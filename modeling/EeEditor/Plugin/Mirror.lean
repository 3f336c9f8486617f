import EeEditor.Plugin.Lines

/-!
# The chunk cache mirrors the document

`ChunkCache.Mirrors` says that the chunk is a slice of the document, with the starts of its lines
and the place of its first line. An honest peer sends slices of the same kind, so that fetching
more of the document keeps it, and so does giving up the beginning of the chunk.
-/

namespace EeEditor.Plugin

/-! ## Lines of a document -/

/-- The number of lines of a document. -/
def lineCount (doc : List UInt8) : ℕ := doc.countP isNewline + 1

/-- The start of line `n`, with an implicit line at the end of the document. -/
def lineStart (doc : List UInt8) (n : ℕ) : Option ℕ :=
  if n = lineCount doc then some doc.length else select isNewline doc n

section

variable {doc : List UInt8} {n m s t : ℕ}

theorem lineStart_of_lt (h : n < lineCount doc) : lineStart doc n = select isNewline doc n :=
  if_neg h.ne

theorem lineStart_of_select (h : select isNewline doc n = some s) : lineStart doc n = some s := by
  rwa [lineStart_of_lt (Nat.lt_succ_of_le (le_countP_of_select h))]

theorem lineStart_lineCount : lineStart doc (lineCount doc) = some doc.length := if_pos rfl

theorem exists_lineStart (h : n ≤ lineCount doc) : ∃ s, lineStart doc n = some s := by
  rcases h.lt_or_eq with hlt | rfl
  · rw [lineStart_of_lt hlt]
    exact exists_select (Nat.lt_succ_iff.mp hlt)
  · exact ⟨_, lineStart_lineCount⟩

theorem lineStart_le_length (h : lineStart doc n = some s) : s ≤ doc.length := by
  rw [lineStart] at h
  split at h
  · exact (Option.some.inj h).ge
  · exact select_le_length h

theorem lineStart_mono (hs : lineStart doc n = some s) (ht : lineStart doc m = some t)
    (h : n ≤ m) : s ≤ t := by
  rw [lineStart] at ht
  split at ht
  · exact Option.some.inj ht ▸ lineStart_le_length hs
  · next hm =>
    have hm' := le_countP_of_select ht
    have hn : n < lineCount doc := Nat.lt_succ_of_le (h.trans hm')
    rw [lineStart_of_lt hn] at hs
    exact (select_le_select hs ht).mpr h

theorem rank_lt_lineCount (i : ℕ) : rank isNewline doc i < lineCount doc :=
  Nat.lt_succ_of_le (rank_le_countP _ _ _)

theorem isCharBoundary_lineStart (hdoc : IsUtf8 doc) (h : lineStart doc n = some s) :
    isCharBoundary doc s = true := by
  rw [lineStart] at h
  split at h
  · exact Option.some.inj h ▸ isCharBoundary_length
  · refine hdoc.isCharBoundary_select (fun b hb ↦ ?_) h
    rw [isNewline, beq_iff_eq] at hb
    exact hb ▸ by decide

end

/-! ## Chunks of a document -/

/-- `contents` is the slice of the document at `offset`, which lies `firstLineOffset` bytes after
the start of line `firstLine`. -/
structure IsChunk (doc contents : List UInt8) (offset firstLine firstLineOffset : ℕ) : Prop where
  le_length : offset + contents.length ≤ doc.length
  contents_eq : contents = (doc.drop offset).take contents.length
  firstLine_eq : firstLine = rank isNewline doc offset
  firstLineOffset_le : firstLineOffset ≤ offset
  lineStart_eq : lineStart doc firstLine = some (offset - firstLineOffset)
  isCharBoundary_start : isCharBoundary doc offset = true
  isCharBoundary_end : isCharBoundary doc (offset + contents.length) = true

namespace IsChunk

variable {doc contents : List UInt8} {offset firstLine firstLineOffset i n s : ℕ}

theorem nil (doc : List UInt8) : IsChunk doc [] 0 0 0 := by
  refine ⟨by simp, by simp, by simp, le_rfl, ?_, isCharBoundary_zero, isCharBoundary_zero⟩
  rw [lineStart_of_lt (Nat.succ_pos _), select_zero]

theorem rank_eq (h : IsChunk doc contents offset firstLine firstLineOffset)
    (hi : i ≤ contents.length) :
    rank isNewline doc (offset + i) = firstLine + rank isNewline contents i := by
  have hle : rank isNewline doc offset ≤ rank isNewline doc (offset + i) :=
    rank_mono (Nat.le_add_right _ _)
  rw [h.contents_eq, rank_slice hi, h.firstLine_eq]
  omega

/-- The line starts in a chunk are the line starts of the document that lie in it. -/
theorem select_iff (h : IsChunk doc contents offset firstLine firstLineOffset) :
    select isNewline contents (n + 1) = some s ↔
      s ≤ contents.length ∧ select isNewline doc (firstLine + (n + 1)) = some (offset + s) := by
  rw [h.contents_eq, select_slice h.le_length, ← h.contents_eq, h.firstLine_eq]

theorem isCharBoundary_contents (h : IsChunk doc contents offset firstLine firstLineOffset)
    (hi : i ≤ contents.length) (hb : isCharBoundary doc (offset + i) = true) :
    isCharBoundary contents i = true := by
  rw [h.contents_eq]
  exact isCharBoundary_slice h.le_length hi hb

/-- The slice of the chunk is the slice of the document. -/
theorem sliceStr_eq {j : ℕ} (h : IsChunk doc contents offset firstLine firstLineOffset)
    (hij : i ≤ j) (hj : j ≤ contents.length) (hbi : isCharBoundary doc (offset + i) = true)
    (hbj : isCharBoundary doc (offset + j) = true) :
    sliceStr contents i j = some ((doc.drop (offset + i)).take (j - i)) := by
  rw [EeEditor.sliceStr_eq hij hj (h.isCharBoundary_contents (hij.trans hj) hbi)
    (h.isCharBoundary_contents hj hbj)]
  nth_rw 1 [h.contents_eq]
  rw [List.drop_take, List.drop_drop, List.take_take, min_eq_left (by omega)]

theorem isCharBoundary_doc (h : IsChunk doc contents offset firstLine firstLineOffset)
    (hi : i ≤ contents.length) (hb : isCharBoundary contents i = true) :
    isCharBoundary doc (offset + i) = true := by
  rcases isCharBoundary_iff.mp hb with rfl | rfl | ⟨b, hget, hcont⟩
  · exact h.isCharBoundary_start
  · exact h.isCharBoundary_end
  · refine isCharBoundary_iff.mpr (.inr (.inr ⟨b, ?_, hcont⟩))
    have hlt : i < contents.length := (List.getElem?_eq_some_iff.mp hget).1
    rwa [h.contents_eq, List.getElem?_take_of_lt hlt, List.getElem?_drop] at hget

theorem eq_of_sliceStr {j : ℕ} {region : List UInt8}
    (h : IsChunk doc contents offset firstLine firstLineOffset)
    (hs : sliceStr contents i j = some region) :
    region = (doc.drop (offset + i)).take (j - i) := by
  have hs' := hs
  rw [sliceStr] at hs'
  split at hs'
  · next hcut =>
    rw [h.sliceStr_eq hcut.1 hcut.2.1 (h.isCharBoundary_doc (hcut.1.trans hcut.2.1) hcut.2.2.1)
      (h.isCharBoundary_doc hcut.2.1 hcut.2.2.2)] at hs
    exact (Option.some.inj hs).symm
  · cases hs'

/-- Adjoining slices make a slice. -/
theorem append {contents' : List UInt8} {firstLine' firstLineOffset' : ℕ}
    (h : IsChunk doc contents offset firstLine firstLineOffset)
    (h' : IsChunk doc contents' (offset + contents.length) firstLine' firstLineOffset') :
    IsChunk doc (contents ++ contents') offset firstLine firstLineOffset := by
  have hlen : offset + (contents ++ contents').length
      = offset + contents.length + contents'.length := by
    rw [List.length_append, Nat.add_assoc]
  refine ⟨hlen ▸ h'.le_length, ?_, h.firstLine_eq, h.firstLineOffset_le, h.lineStart_eq,
    h.isCharBoundary_start, hlen ▸ h'.isCharBoundary_end⟩
  rw [List.length_append, List.take_add, ← h.contents_eq, List.drop_drop, ← h'.contents_eq]

end IsChunk

/-! ## Mirrors -/

/-- The cache mirrors revision `rev` of the document. -/
structure ChunkCache.Mirrors (c : ChunkCache) (doc : List UInt8) (rev : ℕ) : Prop where
  isChunk : IsChunk doc c.contents c.offset c.firstLine c.firstLineOffset
  lineOffsets_eq : c.lineOffsets = newlineOffsets c.contents
  bufSize_eq : c.bufSize = doc.length
  numLines_eq : c.numLines = lineCount doc
  rev_eq : c.rev = rev

/-- A response to a request of text from `start`: a slice of the document there, which is empty
only at the end. -/
structure GetDataResponse.IsHonest (resp : GetDataResponse) (doc : List UInt8) (start : ℕ)
    (unit : TextUnit) : Prop where
  offset_eq : some resp.offset = match unit with
    | .utf8 => some start
    | .line => lineStart doc start
  isChunk : IsChunk doc resp.chunk resp.offset resp.firstLine resp.firstLineOffset
  chunk_ne_nil : resp.offset < doc.length → resp.chunk ≠ []

/-- A peer that sends the text of revision `rev`, or reports an error. -/
def DataSource.Honest (source : DataSource) (doc : List UInt8) (rev : ℕ) : Prop :=
  ∀ start unit size resp, source start unit size rev = .ok resp → resp.IsHonest doc start unit

namespace ChunkCache

variable {c : ChunkCache} {doc : List UInt8} {rev n off : ℕ} {resp : GetDataResponse}

theorem mirrors_new (doc : List UInt8) (rev : ℕ) :
    (new doc.length rev (lineCount doc)).Mirrors doc rev :=
  ⟨.nil doc, rfl, rfl, rfl, rfl⟩

theorem Mirrors.resetChunk {start : ℕ} {unit : TextUnit} (h : c.Mirrors doc rev)
    (hr : resp.IsHonest doc start unit) : (c.resetChunk resp).Mirrors doc rev :=
  ⟨hr.isChunk, rfl, h.bufSize_eq, h.numLines_eq, h.rev_eq⟩

theorem Mirrors.appendChunk (h : c.Mirrors doc rev)
    (hr : resp.IsHonest doc (c.offset + c.contents.length) .utf8) :
    (c.appendChunk resp).Mirrors doc rev := by
  have hoff : resp.offset = c.offset + c.contents.length := Option.some.inj hr.offset_eq
  exact ⟨h.isChunk.append (hoff ▸ hr.isChunk), rfl, h.bufSize_eq, h.numLines_eq, h.rev_eq⟩

/-! ## Lines in the chunk -/

theorem Mirrors.getElem?_lineOffsets (h : c.Mirrors doc rev) :
    c.lineOffsets[n]? = select isNewline c.contents (n + 1) := by
  rw [h.lineOffsets_eq, getElem?_newlineOffsets]

/-- A cached line start is right. After the first line it lies in the chunk. -/
theorem Mirrors.lineStart_of_cached (h : c.Mirrors doc rev)
    (hc : c.cachedOffsetOfLine n = some (some off)) :
    lineStart doc n = some off ∧
      (c.firstLine < n → c.offset ≤ off ∧ off ≤ c.offset + c.contents.length) := by
  rw [cachedOffsetOfLine] at hc
  split at hc
  · cases hc
  · next hn =>
    dsimp only at hc
    split at hc
    · next hrel =>
      obtain rfl : n = c.firstLine := by omega
      rw [checkedSub, if_pos h.isChunk.firstLineOffset_le] at hc
      obtain rfl : c.offset - c.firstLineOffset = off := by simpa using hc
      exact ⟨h.isChunk.lineStart_eq, fun hlt ↦ absurd hlt (lt_irrefl _)⟩
    · next hrel =>
      obtain ⟨k, rfl⟩ := Nat.exists_eq_add_of_lt (show c.firstLine < n by omega)
      rw [show c.firstLine + k + 1 - c.firstLine - 1 = k by omega, h.getElem?_lineOffsets] at hc
      split at hc
      · next s hs =>
        obtain ⟨hlen, hsel⟩ := h.isChunk.select_iff.mp hs
        obtain rfl : c.offset + s = off := by simpa using hc
        exact ⟨lineStart_of_select hsel, fun _ ↦ ⟨by omega, by omega⟩⟩
      · split at hc
        · next heof =>
          obtain rfl : c.offset + c.contents.length = off := by simpa using hc
          refine ⟨?_, fun _ ↦ ⟨by omega, le_rfl⟩⟩
          rw [heof.1, h.numLines_eq, lineStart_lineCount, ← h.bufSize_eq, heof.2]
        · cases hc

/-- Every line start from that of the first line on to the end of the chunk is cached. -/
theorem Mirrors.cached_of_lineStart (h : c.Mirrors doc rev) (hn : c.firstLine ≤ n)
    (hs : lineStart doc n = some off) (hle : off ≤ c.offset + c.contents.length) :
    c.cachedOffsetOfLine n = some (some off) := by
  have hend := h.isChunk.le_length
  rw [cachedOffsetOfLine, if_neg (by omega)]
  rcases hn.eq_or_lt with rfl | hlt
  · rw [h.isChunk.lineStart_eq, Option.some_inj] at hs
    simp [checkedSub, h.isChunk.firstLineOffset_le, hs]
  · obtain ⟨k, rfl⟩ := Nat.exists_eq_add_of_lt hlt
    dsimp only
    rw [if_neg (by omega), show c.firstLine + k + 1 - c.firstLine - 1 = k by omega,
      h.getElem?_lineOffsets]
    rw [lineStart] at hs
    split at hs
    · next heq =>
      obtain rfl := Option.some.inj hs
      have hnone : select isNewline c.contents (k + 1) = none := by
        cases hsel : select isNewline c.contents (k + 1) with
        | none => rfl
        | some s =>
          have hk := le_countP_of_select (h.isChunk.select_iff.mp hsel).2
          rw [lineCount] at heq
          omega
      rw [hnone, h.numLines_eq, h.bufSize_eq]
      dsimp only
      rw [if_pos ⟨heq, by omega⟩]
      exact congrArg (fun x ↦ some (some x)) (by omega)
    · have hlo : c.offset ≤ off := by
        rw [select_eq_some_iff] at hs
        by_contra hlt'
        have hmono := rank_mono (p := isNewline) (l := doc) (not_le.mp hlt').le
        rw [hs.2.1, ← h.isChunk.firstLine_eq] at hmono
        omega
      obtain ⟨s, rfl⟩ := Nat.exists_eq_add_of_le hlo
      rw [h.isChunk.select_iff.mpr ⟨by omega, hs⟩]

theorem Mirrors.cached_ne_none (h : c.Mirrors doc rev) (n : ℕ) : c.cachedOffsetOfLine n ≠ none := by
  rw [cachedOffsetOfLine, checkedSub, if_pos h.isChunk.firstLineOffset_le]
  dsimp only
  split
  · simp
  · split
    · simp
    · split
      · simp
      · split <;> simp

/-! ## Giving up the beginning -/

/-- The line of a position in the chunk. -/
theorem Mirrors.lineAt_eq (h : c.Mirrors doc rev) {i : ℕ} (hi : i ≤ c.contents.length) :
    ∃ rel, c.lineAt i = some (rank isNewline doc (c.offset + i), rel) ∧ rel ≤ c.offset + i ∧
      lineStart doc (rank isNewline doc (c.offset + i)) = some (c.offset + i - rel) := by
  have hline : ∀ {k s : ℕ}, select isNewline c.contents (k + 1) = some s →
      lineStart doc (c.firstLine + (k + 1)) = some (c.offset + s) :=
    fun hs ↦ lineStart_of_select (h.isChunk.select_iff.mp hs).2
  rw [h.isChunk.rank_eq hi, lineAt, h.lineOffsets_eq]
  cases hb : binarySearch (newlineOffsets c.contents) i with
  | ok ix =>
    obtain ⟨hsel, hrank⟩ := rank_of_binarySearch_ok hb
    exact ⟨0, by rw [hrank]; rfl, Nat.zero_le _, by rw [hrank]; exact hline hsel⟩
  | error ix =>
    have hrank := rank_of_binarySearch_error hb
    cases ix with
    | zero =>
      have hle := h.isChunk.firstLineOffset_le
      refine ⟨c.firstLineOffset + i, by rw [hrank]; rfl, by omega, ?_⟩
      rw [hrank, Nat.add_zero, h.isChunk.lineStart_eq]
      exact congrArg some (by omega)
    | succ ix =>
      obtain ⟨s, hs⟩ := exists_select (hrank ▸ rank_le_countP isNewline c.contents i)
      have hle : s ≤ i := (select_le_iff hs).mpr hrank.ge
      refine ⟨i - s, ?_, by omega, ?_⟩
      · rw [hrank]
        simp [getElem?_newlineOffsets, hs, checkedSub, hle]
      · rw [hrank, hline hs]
        exact congrArg some (by omega)

theorem filter_newlineOffsets (text : List UInt8) {i : ℕ} (hi : i ≤ text.length) :
    ((newlineOffsets text).filter (i < ·)).map (· - i) = newlineOffsets (text.drop i) := by
  have hlen : (text.take i).length = i := by rw [List.length_take, min_eq_left hi]
  have hleft : (newlineOffsets (text.take i)).filter (i < ·) = [] := by
    rw [List.filter_eq_nil_iff]
    intro x hx
    have := (bounds_newlineOffsets hx).2
    simp
    omega
  have hright : ((newlineOffsets (text.drop i)).map (· + i)).filter (i < ·)
      = (newlineOffsets (text.drop i)).map (· + i) := by
    rw [List.filter_eq_self]
    intro x hx
    obtain ⟨y, hy, rfl⟩ := List.mem_map.mp hx
    have := (bounds_newlineOffsets hy).1
    simp
    omega
  conv_lhs => rw [← List.take_append_drop i text]
  rw [newlineOffsets_append, hlen, List.filter_append, hleft, hright, List.nil_append,
    List.map_map]
  simp [Function.comp_def]

theorem Mirrors.clearUpTo (h : c.Mirrors doc rev) {i : ℕ} (hi : i ≤ c.contents.length)
    (hb : isCharBoundary doc (c.offset + i) = true) :
    ∃ c', c.clearUpTo i = some (.ok c') ∧ c'.Mirrors doc rev ∧ c'.offset = c.offset + i ∧
      c'.offset + c'.contents.length = c.offset + c.contents.length := by
  obtain ⟨rel, hline, hrel, hstart⟩ := h.lineAt_eq hi
  have hslice := h.isChunk.sliceStr_eq hi le_rfl hb h.isChunk.isCharBoundary_end
  have hchunk : (doc.drop (c.offset + i)).take (c.contents.length - i) = c.contents.drop i := by
    conv_rhs => rw [h.isChunk.contents_eq]
    rw [List.drop_take, List.drop_drop]
  rw [hchunk] at hslice
  have hlen : c.offset + i + (c.contents.drop i).length = c.offset + c.contents.length := by
    rw [List.length_drop]
    omega
  rw [ChunkCache.clearUpTo, if_neg (not_lt.mpr hi), hslice, hline]
  refine ⟨_, rfl, ⟨⟨?_, ?_, rfl, hrel, hstart, hb, ?_⟩, ?_, h.bufSize_eq, h.numLines_eq,
    h.rev_eq⟩, rfl, hlen⟩
  · exact hlen.trans_le h.isChunk.le_length
  · rw [List.length_drop]
    exact hchunk.symm
  · rw [hlen]
    exact h.isChunk.isCharBoundary_end
  · dsimp only
    rw [h.lineOffsets_eq, filter_newlineOffsets _ hi]

end ChunkCache

end EeEditor.Plugin
