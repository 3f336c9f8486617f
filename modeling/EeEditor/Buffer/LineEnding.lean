import EeEditor.Tree.LeafWalk

/-!
# Line endings

The model of `LineEnding` in `xi-core-lib/src/line_ending.rs`. The chunks of a rope are its leaves;
an empty leaf, which is the whole rope, is no chunk, and nothing is found in it.
-/

namespace EeEditor

open BTree (Text bytes)

inductive LineEnding where
  | crLf
  | lf
deriving DecidableEq

inductive LineEndingError where
  | mixed
  | legacyCr
deriving DecidableEq

namespace LineEnding

/-- What is read of a chunk begins a line ending at its first newline or carriage return. -/
def parseChunk (chunk : List UInt8) : Except LineEndingError (Option LineEnding) :=
  match chunk.findIdx? fun b ↦ b == 10 || b == 13 with
  | none => .ok none
  | some x =>
    if chunk[x]? = some 13 ∧ chunk[x + 1]? = some 10 then .ok (some .crLf)
    else if chunk[x]? = some 10 then .ok (some .lf)
    else if chunk[x]? = some 13 then .error .legacyCr
    else .error .mixed

/-- The loop backward to a character boundary. -/
def walkBackward (chunk : List UInt8) : ℕ → ℕ
  | 0 => 0
  | b + 1 => if !isCharBoundary chunk (b + 1) then walkBackward chunk b else b + 1

/-- Where a chunk is cut. -/
def chunkEnd (chunk : List UInt8) (budget : ℕ) : ℕ :=
  if budget ≥ chunk.length then chunk.length else walkBackward chunk budget

/-- The loop over the chunks, with the bytes that were seen and the line endings that were found. -/
def parseChunks (maxBytes : ℕ) : List Text → ℕ → Bool → Bool →
    Except LineEndingError (Option LineEnding)
  | [], _, anyCrlf, anyLf => result anyCrlf anyLf
  | chunk :: chunks, seen, anyCrlf, anyLf =>
    if seen ≥ maxBytes then result anyCrlf anyLf
    else
      let end_ := chunkEnd (bytes chunk) (maxBytes - seen)
      match parseChunk ((bytes chunk).take end_) with
      | .ok (some .crLf) => parseChunks maxBytes chunks (seen + end_) true anyLf
      | .ok (some .lf) => parseChunks maxBytes chunks (seen + end_) anyCrlf true
      | .ok none => parseChunks maxBytes chunks (seen + end_) anyCrlf anyLf
      | .error e => .error e
where
  result : Bool → Bool → Except LineEndingError (Option LineEnding)
    | true, false => .ok (some .crLf)
    | false, true => .ok (some .lf)
    | false, false => .ok none
    | true, true => .error .mixed

def parseBounded (rope : BTree.Tree Text) (maxBytes : ℕ) :
    Except LineEndingError (Option LineEnding) :=
  parseChunks maxBytes rope.leaves 0 false false

def MAX_LINE_ENDING_PROBE_BYTES : ℕ := 65536

def parse (rope : BTree.Tree Text) : Except LineEndingError (Option LineEnding) :=
  parseBounded rope MAX_LINE_ENDING_PROBE_BYTES

/-! ## What it is for -/

def HasCrLf (text : List UInt8) : Prop := ∃ u v, text = u ++ 13 :: 10 :: v

def HasLf (text : List UInt8) : Prop := ∃ u v, text = u ++ 10 :: v ∧ u.getLast? ≠ some 13

/-- In the first bytes of a text there is a carriage return without a newline. -/
def HasCr (text : List UInt8) (maxBytes : ℕ) : Prop :=
  ∃ u v, text = u ++ 13 :: v ∧ u.length < maxBytes ∧ v.head? ≠ some 10

/-- The answer for the line ends in the first bytes of a text. -/
def Tells (text : List UInt8) (maxBytes : ℕ) :
    Except LineEndingError (Option LineEnding) → Prop
  | .ok none => ¬ HasCrLf (text.take maxBytes) ∧ ¬ HasLf (text.take maxBytes)
  | .ok (some .crLf) => HasCrLf (text.take maxBytes) ∧ ¬ HasLf (text.take maxBytes)
  | .ok (some .lf) => ¬ HasCrLf (text.take maxBytes) ∧ HasLf (text.take maxBytes)
  | .error .mixed => HasCrLf (text.take maxBytes) ∧ HasLf (text.take maxBytes)
  | .error .legacyCr => HasCr text maxBytes

/-- Two ropes give one answer, which is right for the text of the first. -/
def TellsText (rope rope' : BTree.Tree Text) (maxBytes : ℕ) : Prop :=
  parseBounded rope maxBytes = parseBounded rope' maxBytes ∧
    Tells (bytes rope.flat) maxBytes (parseBounded rope maxBytes)

/-- What is read of the chunks. -/
def slices (maxBytes : ℕ) : List Text → ℕ → List (List UInt8)
  | [], _ => []
  | chunk :: chunks, seen =>
    if seen ≥ maxBytes then []
    else
      let end_ := chunkEnd (bytes chunk) (maxBytes - seen)
      (bytes chunk).take end_ :: slices maxBytes chunks (seen + end_)

/-- The first line end of a slice is a carriage return and a newline. -/
def BeginsCrLf (slice : List UInt8) : Prop :=
  ∃ u v, slice = u ++ 13 :: v ∧ 10 ∉ u ∧ 13 ∉ u ∧ v.head? = some 10

def BeginsLf (slice : List UInt8) : Prop := ∃ u v, slice = u ++ 10 :: v ∧ 10 ∉ u ∧ 13 ∉ u

/-- The first line end of a slice is a carriage return without a newline behind it in the slice. -/
def BeginsCr (slice : List UInt8) : Prop :=
  ∃ u v, slice = u ++ 13 :: v ∧ 10 ∉ u ∧ 13 ∉ u ∧ v.head? ≠ some 10

/-- A leaf hides what follows its carriage return, or there is nothing. -/
def Alone (rope : BTree.Tree Text) (maxBytes : ℕ) : Prop :=
  ∃ slice ∈ slices maxBytes rope.leaves 0, BeginsCr slice

/-- The first line ends of the leaves are of the kinds that there are within the limit. -/
structure FirstsShow (rope : BTree.Tree Text) (maxBytes : ℕ) : Prop where
  not_alone : ¬ Alone rope maxBytes
  crlf : HasCrLf ((bytes rope.flat).take maxBytes) ↔
    ∃ slice ∈ slices maxBytes rope.leaves 0, BeginsCrLf slice
  lf : HasLf ((bytes rope.flat).take maxBytes) ↔
    ∃ slice ∈ slices maxBytes rope.leaves 0, BeginsLf slice

/-- The first line end is a carriage return without a newline, or there is no carriage return; in
that case, if the limit is within a character, there is none behind it either, nor the first
newline. -/
def Plain (text : List UInt8) (maxBytes : ℕ) : Prop :=
  (∃ u v, text = u ++ 13 :: v ∧ u.length < maxBytes ∧ 10 ∉ u ∧ 13 ∉ u ∧ v.head? ≠ some 10) ∨
  13 ∉ text.take maxBytes ∧
    (maxBytes < text.length → isCharBoundary text maxBytes = false →
      13 ∉ text ∧ (10 ∈ text → 10 ∈ text.take maxBytes))

/-! ## Chunks -/

section

variable {chunk u v : List UInt8} {budget k : ℕ}

theorem walkBackward_spec (chunk : List UInt8) (budget : ℕ) :
    walkBackward chunk budget ≤ budget ∧
      isCharBoundary chunk (walkBackward chunk budget) = true ∧
      ∀ k ≤ budget, isCharBoundary chunk k = true → k ≤ walkBackward chunk budget := by
  induction budget with
  | zero => exact ⟨Nat.le_refl 0, isCharBoundary_zero, fun k hk _ ↦ hk⟩
  | succ b ih =>
    obtain ⟨hle, hboundary, hgreatest⟩ := ih
    rw [walkBackward]
    by_cases hb : isCharBoundary chunk (b + 1) = true
    · rw [hb]
      exact ⟨Nat.le_refl _, hb, fun k hk _ ↦ hk⟩
    · rw [Bool.not_eq_true] at hb
      rw [hb]
      refine ⟨Nat.le_succ_of_le hle, hboundary, fun k hk hk' ↦ ?_⟩
      rcases hk.lt_or_eq with hlt | rfl
      · exact hgreatest k (Nat.le_of_lt_succ hlt) hk'
      · rw [hb] at hk'
        cases hk'

theorem chunkEnd_spec (chunk : List UInt8) (budget : ℕ) :
    chunkEnd chunk budget ≤ budget ∧ chunkEnd chunk budget ≤ chunk.length ∧
      isCharBoundary chunk (chunkEnd chunk budget) = true ∧
      ∀ k ≤ budget, isCharBoundary chunk k = true → k ≤ chunkEnd chunk budget := by
  rw [chunkEnd]
  split_ifs with hlong
  · refine ⟨hlong, Nat.le_refl _, isCharBoundary_length, fun k _ hk ↦ ?_⟩
    rcases isCharBoundary_iff.mp hk with rfl | rfl | ⟨b, hb, -⟩
    · exact Nat.zero_le _
    · exact Nat.le_refl _
    · exact (List.getElem?_eq_some_iff.mp hb).1.le
  · obtain ⟨hle, hboundary, hgreatest⟩ := walkBackward_spec chunk budget
    exact ⟨hle, hle.trans (Nat.not_le.mp hlong).le, hboundary, hgreatest⟩

theorem chunkEnd_of_le (h : chunk.length ≤ budget) : chunkEnd chunk budget = chunk.length :=
  if_pos h

theorem findIdx?_eq_none (hlf : 10 ∉ u) (hcr : 13 ∉ u) :
    u.findIdx? (fun b ↦ b == 10 || b == 13) = none := by
  rw [List.findIdx?_eq_none_iff]
  intro b hb
  rw [Bool.or_eq_false_iff, beq_eq_false_iff_ne, beq_eq_false_iff_ne]
  exact ⟨fun heq ↦ hlf (heq ▸ hb), fun heq ↦ hcr (heq ▸ hb)⟩

theorem findIdx?_append (hlf : 10 ∉ u) (hcr : 13 ∉ u) {b : UInt8} (hb : b = 10 ∨ b = 13)
    (v : List UInt8) :
    (u ++ b :: v).findIdx? (fun b ↦ b == 10 || b == 13) = some u.length := by
  have hfirst : (b == 10 || b == 13) = true := by
    rcases hb with rfl | rfl <;> rfl
  rw [List.findIdx?_append, findIdx?_eq_none hlf hcr, List.findIdx?_cons, hfirst]
  simp

theorem parseChunk_none (hlf : 10 ∉ chunk) (hcr : 13 ∉ chunk) : parseChunk chunk = .ok none := by
  rw [parseChunk, findIdx?_eq_none hlf hcr]

theorem parseChunk_lf (hlf : 10 ∉ u) (hcr : 13 ∉ u) (v : List UInt8) :
    parseChunk (u ++ 10 :: v) = .ok (some .lf) := by
  have hget : (u ++ 10 :: v)[u.length]? = some 10 := by
    rw [List.getElem?_append_right (Nat.le_refl _), Nat.sub_self]
    rfl
  rw [parseChunk, findIdx?_append hlf hcr (.inl rfl) v]
  dsimp only
  rw [hget, if_neg (fun h ↦ absurd h.1 (by decide)), if_pos rfl]

theorem parseChunk_cr (hlf : 10 ∉ u) (hcr : 13 ∉ u) (v : List UInt8) :
    parseChunk (u ++ 13 :: v) =
      if v.head? = some 10 then .ok (some .crLf) else .error .legacyCr := by
  have hget : (u ++ 13 :: v)[u.length]? = some 13 := by
    rw [List.getElem?_append_right (Nat.le_refl _), Nat.sub_self]
    rfl
  have hnext : (u ++ 13 :: v)[u.length + 1]? = v.head? := by
    rw [List.getElem?_append_right (Nat.le_add_right _ 1), List.head?_eq_getElem?,
      Nat.add_sub_cancel_left]
    rfl
  rw [parseChunk, findIdx?_append hlf hcr (.inr rfl) v]
  dsimp only
  rw [hget, hnext]
  by_cases hhead : v.head? = some 10
  · rw [if_pos hhead, if_pos ⟨rfl, hhead⟩]
  · rw [if_neg hhead, if_neg (fun h ↦ hhead h.2), if_neg (by decide), if_pos rfl]

/-- The first line end of a chunk. -/
theorem first_cases (chunk : List UInt8) : (10 ∉ chunk ∧ 13 ∉ chunk) ∨
    ∃ u v b, chunk = u ++ b :: v ∧ 10 ∉ u ∧ 13 ∉ u ∧ (b = 10 ∨ b = 13) := by
  induction chunk with
  | nil => exact .inl ⟨List.not_mem_nil, List.not_mem_nil⟩
  | cons b chunk ih =>
    by_cases hb : b = 10 ∨ b = 13
    · exact .inr ⟨[], chunk, b, rfl, List.not_mem_nil, List.not_mem_nil, hb⟩
    · rw [not_or] at hb
      rcases ih with ⟨hlf, hcr⟩ | ⟨u, v, b', rfl, hlf, hcr, hb'⟩
      · exact .inl ⟨List.not_mem_cons_of_ne_of_not_mem (Ne.symm hb.1) hlf,
          List.not_mem_cons_of_ne_of_not_mem (Ne.symm hb.2) hcr⟩
      · exact .inr ⟨b :: u, v, b', rfl,
          List.not_mem_cons_of_ne_of_not_mem (Ne.symm hb.1) hlf,
          List.not_mem_cons_of_ne_of_not_mem (Ne.symm hb.2) hcr, hb'⟩

theorem BeginsCrLf.parseChunk_eq (h : BeginsCrLf chunk) :
    parseChunk chunk = .ok (some .crLf) := by
  obtain ⟨u, v, rfl, hlf, hcr, hhead⟩ := h
  rw [parseChunk_cr hlf hcr, if_pos hhead]

theorem BeginsLf.parseChunk_eq (h : BeginsLf chunk) : parseChunk chunk = .ok (some .lf) := by
  obtain ⟨u, v, rfl, hlf, hcr⟩ := h
  exact parseChunk_lf hlf hcr v

theorem BeginsCr.parseChunk_eq (h : BeginsCr chunk) : parseChunk chunk = .error .legacyCr := by
  obtain ⟨u, v, rfl, hlf, hcr, hhead⟩ := h
  rw [parseChunk_cr hlf hcr, if_neg hhead]

theorem BeginsLf.not_crLf (h : BeginsLf chunk) : ¬ BeginsCrLf chunk := by
  intro h'
  have heq := h.parseChunk_eq.symm.trans h'.parseChunk_eq
  cases heq

/-- The first line end is of one of the kinds, or there is none. -/
theorem begins_cases (chunk : List UInt8) : (10 ∉ chunk ∧ 13 ∉ chunk) ∨ BeginsCrLf chunk ∨
    BeginsLf chunk ∨ BeginsCr chunk := by
  rcases first_cases chunk with hnone | ⟨u, v, b, hchunk, hlf, hcr, rfl | rfl⟩
  · exact .inl hnone
  · exact .inr (.inr (.inl ⟨u, v, hchunk, hlf, hcr⟩))
  · by_cases hhead : v.head? = some 10
    · exact .inr (.inl ⟨u, v, hchunk, hlf, hcr, hhead⟩)
    · exact .inr (.inr (.inr ⟨u, v, hchunk, hlf, hcr, hhead⟩))

theorem BeginsCrLf.mem (h : BeginsCrLf chunk) : 13 ∈ chunk := by
  obtain ⟨u, v, rfl, -⟩ := h
  exact List.mem_append_right _ List.mem_cons_self

theorem BeginsLf.mem (h : BeginsLf chunk) : 10 ∈ chunk := by
  obtain ⟨u, v, rfl, -⟩ := h
  exact List.mem_append_right _ List.mem_cons_self

theorem BeginsCr.mem (h : BeginsCr chunk) : 13 ∈ chunk := by
  obtain ⟨u, v, rfl, -⟩ := h
  exact List.mem_append_right _ List.mem_cons_self

end

/-! ## The loop -/

section

variable {maxBytes seen : ℕ} {chunks : List Text} {chunk : Text} {b : UInt8}

theorem bytes_concat_cons (chunk : Text) (chunks : List Text) :
    bytes (BTree.concat (chunk :: chunks)) = bytes chunk ++ bytes (BTree.concat chunks) :=
  BTree.bytes_append chunk _

/-- A slice that begins with a carriage return alone ends the loop. -/
theorem parseChunks_legacyCr (h : ∃ slice ∈ slices maxBytes chunks seen, BeginsCr slice)
    (anyCrlf anyLf : Bool) :
    parseChunks maxBytes chunks seen anyCrlf anyLf = .error .legacyCr := by
  induction chunks generalizing seen anyCrlf anyLf with
  | nil =>
    obtain ⟨slice, hslice, -⟩ := h
    cases hslice
  | cons chunk chunks ih =>
    rw [slices] at h
    rw [parseChunks]
    split_ifs at h with hfull
    · obtain ⟨slice, hslice, -⟩ := h
      cases hslice
    rw [if_neg hfull]
    dsimp only at h ⊢
    rw [List.exists_mem_cons_iff] at h
    by_cases hfirst : BeginsCr ((bytes chunk).take (chunkEnd (bytes chunk) (maxBytes - seen)))
    · rw [hfirst.parseChunk_eq]
    have hrest := h.resolve_left hfirst
    rcases begins_cases ((bytes chunk).take (chunkEnd (bytes chunk) (maxBytes - seen))) with
      ⟨hlf, hcr⟩ | hcrlf | hlf | hcr
    · rw [parseChunk_none hlf hcr]
      exact ih hrest anyCrlf anyLf
    · rw [hcrlf.parseChunk_eq]
      exact ih hrest true anyLf
    · rw [hlf.parseChunk_eq]
      exact ih hrest anyCrlf true
    · exact absurd hcr hfirst

/-- Otherwise the loop finds the kinds that its slices begin with. -/
theorem parseChunks_result (h : ¬ ∃ slice ∈ slices maxBytes chunks seen, BeginsCr slice)
    (anyCrlf anyLf : Bool) : ∃ foundCrlf foundLf,
      parseChunks maxBytes chunks seen anyCrlf anyLf = parseChunks.result foundCrlf foundLf ∧
      (foundCrlf = true ↔ anyCrlf = true ∨
        ∃ slice ∈ slices maxBytes chunks seen, BeginsCrLf slice) ∧
      (foundLf = true ↔ anyLf = true ∨
        ∃ slice ∈ slices maxBytes chunks seen, BeginsLf slice) := by
  induction chunks generalizing seen anyCrlf anyLf with
  | nil => exact ⟨anyCrlf, anyLf, rfl, by simp [slices], by simp [slices]⟩
  | cons chunk chunks ih =>
    rw [slices] at h ⊢
    rw [parseChunks]
    split_ifs at h ⊢ with hfull
    · exact ⟨anyCrlf, anyLf, rfl, by simp, by simp⟩
    dsimp only at h ⊢
    simp only [List.exists_mem_cons_iff, not_or] at h ⊢
    obtain ⟨hfirst, hrest⟩ := h
    generalize (bytes chunk).take (chunkEnd (bytes chunk) (maxBytes - seen)) = slice at hfirst ⊢
    rcases begins_cases slice with ⟨hlf, hcr⟩ | hcrlf | hlf | hcr
    · obtain ⟨foundCrlf, foundLf, heq, hfoundCrlf, hfoundLf⟩ := ih hrest anyCrlf anyLf
      have hnot : ¬ BeginsCrLf slice := fun hbegins ↦ hcr hbegins.mem
      have hnot' : ¬ BeginsLf slice := fun hbegins ↦ hlf hbegins.mem
      rw [parseChunk_none hlf hcr]
      refine ⟨foundCrlf, foundLf, heq, ?_, ?_⟩
      · rw [hfoundCrlf, or_iff_right hnot]
      · rw [hfoundLf, or_iff_right hnot']
    · obtain ⟨foundCrlf, foundLf, heq, hfoundCrlf, hfoundLf⟩ := ih hrest true anyLf
      have hnot : ¬ BeginsLf slice := fun hbegins ↦ hbegins.not_crLf hcrlf
      rw [hcrlf.parseChunk_eq]
      refine ⟨foundCrlf, foundLf, heq, ?_, ?_⟩
      · rw [hfoundCrlf]
        exact iff_of_true (.inl rfl) (.inr (.inl hcrlf))
      · rw [hfoundLf, or_iff_right hnot]
    · obtain ⟨foundCrlf, foundLf, heq, hfoundCrlf, hfoundLf⟩ := ih hrest anyCrlf true
      rw [hlf.parseChunk_eq]
      refine ⟨foundCrlf, foundLf, heq, ?_, ?_⟩
      · rw [hfoundCrlf, or_iff_right hlf.not_crLf]
      · rw [hfoundLf]
        exact iff_of_true (.inl rfl) (.inr (.inl hlf))
    · exact absurd hcr hfirst

theorem mem_of_mem_slice {slice : List UInt8} (hslice : slice ∈ slices maxBytes chunks seen)
    (hb : b ∈ slice) : b ∈ bytes (BTree.concat chunks) := by
  induction chunks generalizing seen with
  | nil => exact absurd hslice List.not_mem_nil
  | cons chunk chunks ih =>
    rw [bytes_concat_cons, List.mem_append]
    rw [slices] at hslice
    split_ifs at hslice
    · exact absurd hslice List.not_mem_nil
    · rcases List.mem_cons.mp hslice with rfl | hslice
      · exact .inl (List.mem_of_mem_take hb)
      · exact .inr (ih hslice)

/-- The ASCII bytes before the limit are read. -/
theorem exists_slice (hb : b ∈ (bytes (BTree.concat chunks)).take (maxBytes - seen))
    (hascii : b < 128) : ∃ slice ∈ slices maxBytes chunks seen, b ∈ slice := by
  induction chunks generalizing seen with
  | nil =>
    have hnil : bytes (BTree.concat []) = [] := rfl
    rw [hnil, List.take_nil] at hb
    exact absurd hb List.not_mem_nil
  | cons chunk chunks ih =>
    rw [bytes_concat_cons] at hb
    obtain ⟨i, hi⟩ := List.mem_iff_getElem?.mp hb
    rw [List.getElem?_take] at hi
    split_ifs at hi with hlt
    obtain ⟨-, hle, -, hgreatest⟩ := chunkEnd_spec (bytes chunk) (maxBytes - seen)
    rw [slices, if_neg (by omega)]
    dsimp only
    rcases Nat.lt_or_ge i (bytes chunk).length with hin | hout
    · rw [List.getElem?_append_left hin] at hi
      have hend := hgreatest (i + 1) hlt (BTree.isCharBoundary_succ hi hascii)
      refine ⟨_, List.mem_cons_self, List.mem_iff_getElem?.mpr ⟨i, ?_⟩⟩
      rw [List.getElem?_take, if_pos (by omega)]
      exact hi
    · have hend := chunkEnd_of_le (hout.trans hlt.le)
      have hrest :
          b ∈ (bytes (BTree.concat chunks)).take (maxBytes - (seen + (bytes chunk).length)) := by
        refine List.mem_iff_getElem?.mpr ⟨i - (bytes chunk).length, ?_⟩
        rw [List.getElem?_take, if_pos (by omega), ← hi, List.getElem?_append_right hout]
      rw [hend]
      obtain ⟨slice, hslice, hmem⟩ := ih hrest
      exact ⟨slice, List.mem_cons_of_mem _ hslice, hmem⟩

/-- If the limit is no place within a character, nothing behind it is read. -/
theorem mem_take_of_mem_slice {slice : List UInt8}
    (hlimit : isCharBoundary (bytes (BTree.concat chunks)) (maxBytes - seen) = true ∨
      (bytes (BTree.concat chunks)).length ≤ maxBytes - seen)
    (hslice : slice ∈ slices maxBytes chunks seen) (hb : b ∈ slice) :
    b ∈ (bytes (BTree.concat chunks)).take (maxBytes - seen) := by
  induction chunks generalizing seen with
  | nil => exact absurd hslice List.not_mem_nil
  | cons chunk chunks ih =>
    rw [bytes_concat_cons] at hlimit ⊢
    rw [slices] at hslice
    split_ifs at hslice with hfull
    · exact absurd hslice List.not_mem_nil
    obtain ⟨hle, -, -, hgreatest⟩ := chunkEnd_spec (bytes chunk) (maxBytes - seen)
    rcases Nat.lt_or_ge (bytes chunk).length (maxBytes - seen) with hlong | hshort
    · have hend := chunkEnd_of_le hlong.le
      rw [hend] at hslice
      rcases List.mem_cons.mp hslice with rfl | hslice
      · rw [List.take_append, List.mem_append, List.take_of_length_le hlong.le]
        exact .inl (List.mem_of_mem_take hb)
      · have hrest := ih ?_ hslice
        · rw [List.take_append, List.mem_append]
          rw [Nat.sub_add_eq] at hrest
          exact .inr hrest
        · rw [← BTree.bytes_append, BTree.isCharBoundary_append, if_neg (Nat.not_le.mpr hlong),
            BTree.bytes_append, List.length_append] at hlimit
          rw [Nat.sub_add_eq]
          exact hlimit.imp_right fun h ↦ by omega
    · have hboundary : isCharBoundary (bytes chunk) (maxBytes - seen) = true := by
        rcases hlimit with hlimit | hlimit
        · rwa [← BTree.bytes_append, BTree.isCharBoundary_append, if_pos hshort] at hlimit
        · rw [List.length_append] at hlimit
          rw [show maxBytes - seen = (bytes chunk).length by omega]
          exact isCharBoundary_length
      have hend := Nat.le_antisymm hle (hgreatest _ (Nat.le_refl _) hboundary)
      rw [hend] at hslice
      rcases List.mem_cons.mp hslice with rfl | hslice
      · rw [List.take_append_of_le_length hshort]
        exact hb
      · have hdone : slices maxBytes chunks (seen + (maxBytes - seen)) = [] := by
          cases chunks with
          | nil => rfl
          | cons chunk chunks => exact if_pos (by omega)
        rw [hdone] at hslice
        exact absurd hslice List.not_mem_nil

/-- An ASCII byte before the limit is read, with all that is before it. -/
theorem exists_take {u w : List UInt8} {budget : ℕ} (hchunk : bytes chunk = u ++ b :: w)
    (hascii : b < 128) (hlt : u.length < budget) :
    ∃ n, (bytes chunk).take (chunkEnd (bytes chunk) budget) = u ++ b :: w.take n := by
  have hget : (bytes chunk)[u.length]? = some b := by
    rw [hchunk, List.getElem?_append_right (Nat.le_refl _), Nat.sub_self]
    rfl
  have hend := (chunkEnd_spec (bytes chunk) budget).2.2.2 (u.length + 1) hlt
    (BTree.isCharBoundary_succ hget hascii)
  obtain ⟨n, hn⟩ := Nat.exists_eq_add_of_le hend
  refine ⟨n, ?_⟩
  rw [hn, hchunk, Nat.add_assoc, List.take_length_add_append, Nat.add_comm 1 n,
    List.take_succ_cons]

/-- A carriage return without a newline that comes first is the first line end of a slice. -/
theorem exists_beginsCr {u v : List UInt8}
    (hchunks : bytes (BTree.concat chunks) = u ++ 13 :: v) (hlf : 10 ∉ u) (hcr : 13 ∉ u)
    (hhead : v.head? ≠ some 10) (hlimit : seen + u.length < maxBytes) :
    ∃ slice ∈ slices maxBytes chunks seen, BeginsCr slice := by
  induction chunks generalizing seen u with
  | nil =>
    have hlength := congrArg List.length hchunks
    simp [BTree.concat, BTree.Leaf.empty] at hlength
  | cons chunk chunks ih =>
    rw [bytes_concat_cons] at hchunks
    rw [slices, if_neg (by omega)]
    dsimp only
    have hpast (w : List UInt8) (hu : u = bytes chunk ++ w)
        (hrest : bytes (BTree.concat chunks) = w ++ 13 :: v) :
        ∃ slice ∈ slices maxBytes chunks (seen + chunkEnd (bytes chunk) (maxBytes - seen)),
          BeginsCr slice := by
      subst hu
      rw [List.length_append] at hlimit
      rw [List.mem_append, not_or] at hlf hcr
      rw [chunkEnd_of_le (by omega)]
      exact ih hrest hlf.2 hcr.2 (by omega)
    rw [List.exists_mem_cons_iff]
    rcases List.append_eq_append_iff.mp hchunks with ⟨w, hu, hrest⟩ | ⟨w, hchunk, hrest⟩
    · exact .inr (hpast w hu hrest)
    · rcases w with _ | ⟨b, w⟩
      · rw [List.append_nil] at hchunk
        exact .inr (hpast [] (by rw [hchunk, List.append_nil]) hrest.symm)
      · obtain ⟨rfl, rfl⟩ := List.cons.inj hrest
        obtain ⟨n, htake⟩ := exists_take hchunk (by decide)
          (by omega : u.length < maxBytes - seen)
        refine .inl ⟨u, w.take n, htake, hlf, hcr, fun hnext ↦ hhead ?_⟩
        rw [List.head?_take] at hnext
        split_ifs at hnext
        have hwhole : (w ++ bytes (BTree.concat chunks)).head? = some 10 := by
          rw [List.head?_append, hnext]
          rfl
        exact hwhole

end

/-! ## When the answers are right -/

variable {text : Text} {rope rope' : BTree.Tree Text} {maxBytes : ℕ}

theorem tells_result (text : List UInt8) (maxBytes : ℕ) (foundCrlf foundLf : Bool) :
    Tells text maxBytes (parseChunks.result foundCrlf foundLf) ↔
      (HasCrLf (text.take maxBytes) ↔ foundCrlf = true) ∧
        (HasLf (text.take maxBytes) ↔ foundLf = true) := by
  cases foundCrlf <;> cases foundLf <;> simp [parseChunks.result, Tells]

theorem result_ne_legacyCr (a b : Bool) : parseChunks.result a b ≠ .error .legacyCr := by
  cases a <;> cases b <;> nofun

/-- What a rope answers when no leaf hides what follows a carriage return. -/
theorem parseBounded_result (h : ¬ Alone rope maxBytes) : ∃ foundCrlf foundLf,
    parseBounded rope maxBytes = parseChunks.result foundCrlf foundLf ∧
      (Tells (bytes rope.flat) maxBytes (parseBounded rope maxBytes) ↔
        FirstsShow rope maxBytes) ∧
      (FirstsShow rope maxBytes →
        (HasCrLf ((bytes rope.flat).take maxBytes) ↔ foundCrlf = true) ∧
          (HasLf ((bytes rope.flat).take maxBytes) ↔ foundLf = true)) := by
  obtain ⟨foundCrlf, foundLf, heq, hcrlf, hlf⟩ := parseChunks_result h false false
  simp only [Bool.false_eq_true, false_or] at hcrlf hlf
  have hanswer : parseBounded rope maxBytes = parseChunks.result foundCrlf foundLf := heq
  refine ⟨foundCrlf, foundLf, hanswer, ?_, fun hfirsts ↦ ?_⟩
  · rw [hanswer, tells_result, hcrlf, hlf]
    exact ⟨fun ⟨hcrlf, hlf⟩ ↦ ⟨h, hcrlf, hlf⟩, fun hfirsts ↦ ⟨hfirsts.crlf, hfirsts.lf⟩⟩
  · rw [hcrlf, hlf]
    exact ⟨hfirsts.crlf, hfirsts.lf⟩

/-- Two ropes with one text give one answer, which is right, just in these cases: in both a leaf
has a carriage return alone as its first line end, and there is one in the text; or in neither,
and the first line ends of the leaves are of the kinds that there are. -/
theorem tellsText_iff (rope rope' : BTree.Tree Text) (maxBytes : ℕ)
    (hflat : rope.flat = rope'.flat) :
    TellsText rope rope' maxBytes ↔
      (HasCr (bytes rope.flat) maxBytes ∧ Alone rope maxBytes ∧ Alone rope' maxBytes) ∨
        (FirstsShow rope maxBytes ∧ FirstsShow rope' maxBytes) := by
  by_cases halone : Alone rope maxBytes <;> by_cases halone' : Alone rope' maxBytes
  · have heq : parseBounded rope maxBytes = .error .legacyCr :=
      parseChunks_legacyCr halone false false
    have heq' : parseBounded rope' maxBytes = .error .legacyCr :=
      parseChunks_legacyCr halone' false false
    rw [TellsText, heq, heq']
    exact ⟨fun h ↦ .inl ⟨h.2, halone, halone'⟩, fun h ↦
      ⟨rfl, h.elim (·.1) fun h ↦ absurd halone h.1.not_alone⟩⟩
  · obtain ⟨foundCrlf, foundLf, heq', -⟩ := parseBounded_result halone'
    have heq : parseBounded rope maxBytes = .error .legacyCr :=
      parseChunks_legacyCr halone false false
    rw [TellsText, heq, heq']
    exact iff_of_false (fun h ↦ result_ne_legacyCr _ _ h.1.symm) fun h ↦
      h.elim (fun h ↦ halone' h.2.2) fun h ↦ h.1.not_alone halone
  · obtain ⟨foundCrlf, foundLf, heq, -⟩ := parseBounded_result halone
    have heq' : parseBounded rope' maxBytes = .error .legacyCr :=
      parseChunks_legacyCr halone' false false
    rw [TellsText, heq, heq']
    exact iff_of_false (fun h ↦ result_ne_legacyCr _ _ h.1) fun h ↦
      h.elim (fun h ↦ halone h.2.1) fun h ↦ h.2.not_alone halone'
  · obtain ⟨foundCrlf, foundLf, heq, htells, hfound⟩ := parseBounded_result halone
    obtain ⟨foundCrlf', foundLf', heq', htells', hfound'⟩ := parseBounded_result halone'
    rw [TellsText]
    constructor
    · rintro ⟨hsame, hright⟩
      rw [hsame, hflat] at hright
      exact .inr ⟨htells.mp (by rwa [hsame, hflat]), htells'.mp hright⟩
    · rintro (⟨-, h, -⟩ | ⟨hfirsts, hfirsts'⟩)
      · exact absurd h halone
      · obtain ⟨hcrlf, hlf⟩ := hfound hfirsts
        obtain ⟨hcrlf', hlf'⟩ := hfound' hfirsts'
        rw [hflat] at hcrlf hlf
        rw [heq, heq', Bool.eq_iff_iff.mpr (hcrlf.symm.trans hcrlf'),
          Bool.eq_iff_iff.mpr (hlf.symm.trans hlf')]
        exact ⟨rfl, by rw [← heq']; rw [hflat]; exact htells'.mpr hfirsts'⟩

/-- The carriage return that comes first is found in every rope. -/
theorem alone_of_first {u v : List UInt8} (htext : bytes rope.flat = u ++ 13 :: v)
    (hlimit : u.length < maxBytes) (hlf : 10 ∉ u) (hcr : 13 ∉ u) (hhead : v.head? ≠ some 10) :
    HasCr (bytes rope.flat) maxBytes ∧ Alone rope maxBytes :=
  ⟨⟨u, v, htext, hlimit, hhead⟩, exists_beginsCr htext hlf hcr hhead (by omega)⟩

/-- Without carriage returns every rope shows its newlines. -/
theorem firstsShow_of_not_cr (hcr : 13 ∉ (bytes rope.flat).take maxBytes)
    (hlimit : maxBytes < (bytes rope.flat).length →
      isCharBoundary (bytes rope.flat) maxBytes = false →
        13 ∉ bytes rope.flat ∧ (10 ∈ bytes rope.flat → 10 ∈ (bytes rope.flat).take maxBytes)) :
    FirstsShow rope maxBytes := by
  have hread : ∀ slice ∈ slices maxBytes rope.leaves 0, ∀ b ∈ slice, b = 10 ∨ b = 13 →
      b ∈ (bytes rope.flat).take maxBytes := by
    intro slice hslice b hb hend
    by_cases hwithin : maxBytes < (bytes rope.flat).length ∧
        isCharBoundary (bytes rope.flat) maxBytes = false
    · obtain ⟨hnone, hfirst⟩ := hlimit hwithin.1 hwithin.2
      have hmem : b ∈ bytes rope.flat := mem_of_mem_slice hslice hb
      rcases hend with rfl | rfl
      · exact hfirst hmem
      · exact absurd hmem hnone
    · refine mem_take_of_mem_slice ?_ hslice hb
      rw [Nat.sub_zero]
      by_cases hlt : maxBytes < (bytes rope.flat).length
      · exact .inl (Bool.eq_true_of_not_eq_false fun hfalse ↦ hwithin ⟨hlt, hfalse⟩)
      · exact .inr (Nat.not_lt.mp hlt)
  have hnone : ∀ slice ∈ slices maxBytes rope.leaves 0, 13 ∉ slice := fun slice hslice hmem ↦
    hcr (hread slice hslice 13 hmem (.inr rfl))
  refine ⟨fun ⟨slice, hslice, hbegins⟩ ↦ hnone slice hslice hbegins.mem, ?_, ?_⟩
  · refine iff_of_false ?_ fun ⟨slice, hslice, hbegins⟩ ↦ hnone slice hslice hbegins.mem
    rintro ⟨u, v, heq⟩
    exact hcr (by rw [heq]; simp)
  · constructor
    · rintro ⟨u, v, heq, -⟩
      have hmem : 10 ∈ (bytes (BTree.concat rope.leaves)).take (maxBytes - 0) := by
        rw [Nat.sub_zero]
        exact heq ▸ by simp
      obtain ⟨slice, hslice, hmem⟩ := exists_slice hmem (by decide)
      rcases begins_cases slice with ⟨hlf, -⟩ | hcrlf | hlf | hbegins
      · exact absurd hmem hlf
      · exact absurd hcrlf.mem (hnone slice hslice)
      · exact ⟨slice, hslice, hlf⟩
      · exact absurd hbegins.mem (hnone slice hslice)
    · rintro ⟨slice, hslice, hbegins⟩
      obtain ⟨u, v, heq⟩ := List.append_of_mem (hread slice hslice 10 hbegins.mem (.inl rfl))
      refine ⟨u, v, heq, fun hlast ↦ hcr ?_⟩
      rw [heq]
      exact List.mem_append_left _ (List.mem_of_getLast? hlast)

/-- Of some texts all ropes tell. -/
theorem Plain.shows (h : Plain (bytes rope.flat) maxBytes) (hflat : rope.flat = rope'.flat) :
    (HasCr (bytes rope.flat) maxBytes ∧ Alone rope maxBytes ∧ Alone rope' maxBytes) ∨
      (FirstsShow rope maxBytes ∧ FirstsShow rope' maxBytes) := by
  rcases h with ⟨u, v, htext, hlimit, hlf, hcr, hhead⟩ | ⟨hcr, hlimit⟩
  · obtain ⟨hhas, halone⟩ := alone_of_first htext hlimit hlf hcr hhead
    rw [hflat] at htext
    exact .inl ⟨hhas, halone, (alone_of_first htext hlimit hlf hcr hhead).2⟩
  · refine .inr ⟨firstsShow_of_not_cr hcr hlimit, ?_⟩
    rw [hflat] at hcr hlimit
    exact firstsShow_of_not_cr hcr hlimit

/-! ## Ropes of one leaf and of two -/

def oneLeaf (text : Text) : BTree.Tree Text := ⟨0, text, .inl rfl⟩

def twoLeaves (first second : Text) (hfirst : first ≠ []) (hsecond : second ≠ []) :
    BTree.Tree Text :=
  .ofLeaves [first, second] ⟨Nat.le_refl 2, (by decide : 2 ≤ BTree.maxChildren)⟩ <|
    List.forall_mem_cons.mpr ⟨BTree.len_pos hfirst,
      List.forall_mem_singleton.mpr (BTree.len_pos hsecond)⟩

theorem eq_of_mem_replicate {n : ℕ} {b : UInt8} (h : b ∈ bytes (List.replicate n 'a')) :
    b = 97 := by
  obtain ⟨c, hc, hb⟩ := List.mem_flatMap.mp h
  rw [(List.mem_replicate.mp hc).2] at hb
  exact List.mem_singleton.mp hb

/-- Two lines, in a leaf each. -/
def lineLeaves : BTree.Tree Text :=
  twoLeaves (List.replicate 600 'a' ++ ['\n']) (List.replicate 600 'a')
    (List.append_ne_nil_of_right_ne_nil _ nofun) (by decide)

/-- The same text, with the newline in the second leaf. -/
def newlineLeaves : BTree.Tree Text :=
  twoLeaves (List.replicate 600 'a') ('\n' :: List.replicate 600 'a') (by decide)
    (List.cons_ne_nil _ _)

theorem tellsText_lines : lineLeaves.flat = newlineLeaves.flat ∧
    TellsText lineLeaves newlineLeaves MAX_LINE_ENDING_PROBE_BYTES := by
  have hline : lineLeaves.flat =
      (List.replicate 600 'a' ++ ['\n']) ++ (List.replicate 600 'a' ++ []) := rfl
  have hnewline : newlineLeaves.flat =
      List.replicate 600 'a' ++ ('\n' :: List.replicate 600 'a' ++ []) := rfl
  have hflat : lineLeaves.flat = newlineLeaves.flat := by
    rw [hline, hnewline, List.append_assoc, List.singleton_append, List.cons_append]
  have hcr : 13 ∉ bytes lineLeaves.flat := by
    intro hmem
    rw [hline, List.append_nil, BTree.bytes_append, BTree.bytes_append, List.mem_append,
      List.mem_append] at hmem
    rcases hmem with (hmem | hmem) | hmem
    · exact absurd (eq_of_mem_replicate hmem) (by decide)
    · exact absurd (List.mem_singleton.mp hmem) (by decide)
    · exact absurd (eq_of_mem_replicate hmem) (by decide)
  have hlength : (bytes lineLeaves.flat).length = 1201 := by
    rw [hline, List.append_nil, BTree.length_bytes_append, BTree.length_bytes_append,
      BTree.length_bytes_replicate]
    rfl
  have hplain : Plain (bytes lineLeaves.flat) MAX_LINE_ENDING_PROBE_BYTES := by
    refine .inr ⟨fun hmem ↦ hcr (List.mem_of_mem_take hmem), fun hlt ↦ ?_⟩
    rw [hlength] at hlt
    exact absurd hlt (by decide)
  exact ⟨hflat, (tellsText_iff _ _ _ hflat).mpr (hplain.shows hflat)⟩

/-- In one leaf only the first of the two line ends is seen. -/
theorem parseBounded_second_missed :
    let rope := oneLeaf ['a', '\n', 'b', '\r', '\n']
    parse rope = .ok (some .lf) ∧
      HasCrLf ((bytes rope.flat).take MAX_LINE_ENDING_PROBE_BYTES) ∧
      HasLf ((bytes rope.flat).take MAX_LINE_ENDING_PROBE_BYTES) ∧
      ¬ ∀ rope rope' : BTree.Tree Text, ∀ maxBytes, rope.flat = rope'.flat →
        TellsText rope rope' maxBytes := by
  intro rope
  have hparse : parse rope = .ok (some .lf) := by decide
  have hcrlf : HasCrLf ((bytes rope.flat).take MAX_LINE_ENDING_PROBE_BYTES) :=
    ⟨[97, 10, 98], [], by decide⟩
  refine ⟨hparse, hcrlf, ⟨[97], [98, 13, 10], by decide, by decide⟩, fun h ↦ ?_⟩
  have htells := (h rope rope MAX_LINE_ENDING_PROBE_BYTES rfl).2
  rw [show parseBounded rope MAX_LINE_ENDING_PROBE_BYTES = _ from hparse] at htells
  exact htells.1 hcrlf

end LineEnding

end EeEditor
