import Mathlib.Order.Bounds.Basic
import EeEditor.Rope.LineEdits
import EeEditor.Sequence.Utf8

/-!
# Blocks of a text

`delete_block` and `replay_block_insert` of `xi-core-lib/src/edit_ops/delete.rs`, and `block_text`
of `event_context/helpers.rs`, over the bytes of a text. The deletion is clamped to the last line
and leaves alone all the carriage returns that a line ends with, the yank is not clamped and leaves
alone one of them, before a line feed.
-/

namespace EeEditor.EditOps.Block

/-! ## The code -/

def totalLines (base : List UInt8) : ℕ := base.count 10 + 1

/-- `offset_of_line`, of a line that the text has or of the one behind the last. -/
def offsetOfLine (base : List UInt8) (line : ℕ) : ℕ := startOfLine 10 base line

def logicalLineContents (base : List UInt8) (line : ℕ) : ℕ × List UInt8 :=
  let start := offsetOfLine base line
  let end_ := min (offsetOfLine base (line + 1)) base.length
  (start, ((base.drop start).take (end_ - start)).rdropWhile fun b ↦ b = 10 || b = 13)

/-- The loop of `previous_char_boundary`. -/
def stepBack (line : List UInt8) : ℕ → ℕ
  | 0 => 0
  | col + 1 => if isCharBoundary line (col + 1) then col + 1 else stepBack line col

def previousCharBoundary (line : List UInt8) (col : ℕ) : ℕ := stepBack line (min col line.length)

/-- `line[col..].chars().next().map(|ch| ch.len_utf8()).unwrap_or(0)`. -/
def nextCharLen (rest : List UInt8) : ℕ :=
  match rest with
  | [] => 0
  | _ :: rest => 1 + (rest.takeWhile isContinuation).length

def nextCharBoundary (line : List UInt8) (col : ℕ) : ℕ :=
  let col := previousCharBoundary line (min col line.length)
  if col ≥ line.length then col else col + nextCharLen (line.drop col)

def identityDelta (base : List UInt8) : Delta UInt8 := (DeltaBuilder.new base.length).build

def deleteBlockLine (base : List UInt8) (leftCol rightCol : ℕ) (builder : DeltaBuilder UInt8)
    (line : ℕ) : Option (DeltaBuilder UInt8) :=
  let (lineStart, content) := logicalLineContents base line
  let start := previousCharBoundary content (min leftCol content.length)
  let end_ := nextCharBoundary content (min rightCol content.length)
  if start < end_ then builder.delete (lineStart + start) (lineStart + end_) else some builder

/-- `none` is a panic of the builder. -/
def deleteBlock (base : List UInt8) (startLine endLine leftCol rightCol : ℕ) :
    Option (Delta UInt8) :=
  let startLine := min startLine (totalLines base - 1)
  let endLine := min endLine (totalLines base - 1)
  if startLine > endLine then some (identityDelta base)
  else
    ((List.range' startLine (endLine + 1 - startLine)).foldlM
      (deleteBlockLine base leftCol rightCol) (.new base.length)).map DeltaBuilder.build

def replayBlockLine (base : List UInt8) (column : ℕ) (text : List UInt8) (append : Bool)
    (builder : DeltaBuilder UInt8) (line : ℕ) : Option (DeltaBuilder UInt8) :=
  let (lineStart, content) := logicalLineContents base line
  let offset := previousCharBoundary content (min column content.length)
  let offset := if append then nextCharBoundary content offset else offset
  let global := lineStart + offset
  builder.replace global global text

/-- `none` is a panic of the builder. -/
def replayBlockInsert (base : List UInt8) (startLine endLine column : ℕ) (text : List UInt8)
    (append : Bool) : Option (Delta UInt8) :=
  if text.isEmpty then some (identityDelta base)
  else
    let startLine := min startLine (totalLines base - 1)
    let endLine := min endLine (totalLines base - 1)
    if startLine > endLine then some (identityDelta base)
    else
      ((List.range' startLine (endLine + 1 - startLine)).foldlM
        (replayBlockLine base column text append) (.new base.length)).map DeltaBuilder.build

def lineWithEndingInterval (text : List UInt8) (line : ℕ) : ℕ × ℕ :=
  let totalLines := totalLines text
  let line := min line (totalLines - 1)
  (offsetOfLine text line,
    if line + 1 < totalLines then offsetOfLine text (line + 1) else text.length)

def lineText (text : List UInt8) (line : ℕ) : List UInt8 :=
  let (start, end_) := lineWithEndingInterval text line
  let lineText := (text.drop start).take (end_ - start)
  if lineText.getLast? = some 10 then
    let lineText := lineText.dropLast
    if lineText.getLast? = some 13 then lineText.dropLast else lineText
  else lineText

/-- The same loop as in `previous_char_boundary`. -/
def previousCharBoundaryInText (text : List UInt8) (col : ℕ) : ℕ :=
  stepBack text (min col text.length)

def blockLine (text : List UInt8) (left right line : ℕ) : Option (List UInt8) :=
  let line := lineText text line
  let start := previousCharBoundaryInText line (min left line.length)
  let end_ := nextCharBoundary line (min right line.length)
  (sliceStr line start end_).map (· ++ [10])

/-- `none` is a panic of a slice. -/
def blockText (text : List UInt8) (startLine endLine leftCol rightCol : ℕ) :
    Option (List UInt8) :=
  let top := min startLine endLine
  let bottom := min (max startLine endLine) (totalLines text - 1)
  let left := min leftCol rightCol
  let right := max leftCol rightCol
  ((List.range' top (bottom + 1 - top)).mapM (blockLine text left right)).map List.flatten

/-! ## What blocks are for -/

/-- A rectangle of lines and byte columns. -/
structure Rectangle where
  startLine : ℕ
  endLine : ℕ
  leftCol : ℕ
  rightCol : ℕ
  lines : startLine ≤ endLine
  cols : leftCol ≤ rightCol

/-- The line without the carriage returns at its end. -/
def content (line : List UInt8) : List UInt8 := line.rdropWhile (· = 13)

/-- The last boundary of a character up to a column. -/
def IsCut (line : List UInt8) (col p : ℕ) : Prop :=
  IsGreatest {i | i ≤ col ∧ i ≤ line.length ∧ isCharBoundary line i = true} p

/-- The text that is deleted is the text that is yanked, line by line. -/
structure DeletesYanked (base : List UInt8) (r : Rectangle) (delta : Delta UInt8)
    (yanked : List UInt8) : Prop where
  removed : (List.range' r.startLine
    (min r.endLine (totalLines base - 1) + 1 - r.startLine)).flatMap
    (fun n ↦ removedFrom 10 delta base n ++ [10]) = yanked
  others : ∀ n, n < totalLines base → n < r.startLine ∨ r.endLine < n →
    removedFrom 10 delta base n = []
  boundaries : ∀ b e, .copy b e ∈ delta.els → isCharBoundary base b = true ∧
    isCharBoundary base e = true

/-- A text is inserted once into each of the lines that the deletion works on. -/
def InsertsOnce (base : List UInt8) (r : Rectangle) (text : List UInt8) : Prop :=
  ∃ delta result, replayBlockInsert base r.startLine r.endLine r.leftCol text false = some delta ∧
    delta.apply base = some result ∧
    (result.splitOn 10).length = (base.splitOn 10).length ∧
    ∀ n line, (base.splitOn 10)[n]? = some line →
      ∃ p, IsCut (content line) r.leftCol p ∧ (result.splitOn 10)[n]? = some
        (if min r.startLine (totalLines base - 1) ≤ n ∧ n ≤ r.endLine then
          line.take p ++ (text ++ line.drop p) else line)

/-- Yanking a block and deleting it agree, and a text can be put in its place. -/
def BlockAgrees (base : List UInt8) (r : Rectangle) : Prop :=
  (∃ delta yanked, deleteBlock base r.startLine r.endLine r.leftCol r.rightCol = some delta ∧
    blockText base r.startLine r.endLine r.leftCol r.rightCol = some yanked ∧
    DeletesYanked base r delta yanked) ∧
  ∀ text, IsUtf8 text → 10 ∉ text → InsertsOnce base r text

/-- The rectangle begins in the text, or behind the last line. No line of it has a carriage return
that is yanked but not deleted, unless the rectangle ends before those or begins behind them. -/
structure SameEnds (base : List UInt8) (r : Rectangle) : Prop where
  first : r.startLine < totalLines base ∨
    ∀ line, (base.splitOn 10).getLast? = some line → (content line).length ≤ r.leftCol
  ends : ∀ n line, r.startLine ≤ n → n ≤ r.endLine → (base.splitOn 10)[n]? = some line →
    lineText base n = content line ∨ r.rightCol < (content line).length ∨
      (lineText base n).length ≤ r.leftCol

/-! ## Boundaries -/

section

variable {line : List UInt8} {i p l r col : ℕ}

theorem isGreatest_stepBack (line : List UInt8) (col : ℕ) :
    IsGreatest {i | i ≤ col ∧ isCharBoundary line i = true} (stepBack line col) := by
  induction col with
  | zero => exact ⟨⟨Nat.le_refl 0, isCharBoundary_zero⟩, fun i hi ↦ hi.1⟩
  | succ col ih =>
    rw [stepBack]
    split_ifs with hboundary
    · exact ⟨⟨Nat.le_refl _, hboundary⟩, fun i hi ↦ hi.1⟩
    · refine ⟨⟨ih.1.1.trans (Nat.le_succ col), ih.1.2⟩, fun i ⟨hi, hi'⟩ ↦ ?_⟩
      refine ih.2 ⟨?_, hi'⟩
      rcases Nat.lt_or_eq_of_le hi with hlt | rfl
      · exact Nat.le_of_lt_succ hlt
      · exact absurd hi' hboundary

theorem isCut_previousCharBoundary (line : List UInt8) (col : ℕ) :
    IsCut line col (previousCharBoundary line col) := by
  have hset : {i | i ≤ col ∧ i ≤ line.length ∧ isCharBoundary line i = true} =
      {i | i ≤ min col line.length ∧ isCharBoundary line i = true} := by
    ext i
    simp only [Set.mem_ofPred_eq, le_min_iff, and_assoc]
  rw [IsCut, hset]
  exact isGreatest_stepBack line _

theorem previousCharBoundary_min (line : List UInt8) (col : ℕ) :
    previousCharBoundary line (min col line.length) = previousCharBoundary line col := by
  rw [previousCharBoundary, previousCharBoundary, Nat.min_assoc, Nat.min_self]

theorem previousCharBoundary_of_le (h : line.length ≤ col) :
    previousCharBoundary line col = line.length := by
  have hcut := isCut_previousCharBoundary line col
  exact Nat.le_antisymm hcut.1.2.1 (hcut.2 ⟨h, Nat.le_refl _, isCharBoundary_length⟩)

/-- The byte behind a character begins the next one. -/
theorem isLeast_nextCharLen (hlt : p < line.length) :
    IsLeast {i | p < i ∧ i ≤ line.length ∧ isCharBoundary line i = true}
      (p + nextCharLen (line.drop p)) := by
  have hdrop := List.drop_eq_getElem_cons hlt
  have htake := List.takeWhile_append_dropWhile (p := isContinuation) (l := line.drop (p + 1))
  have hlength := congrArg List.length htake
  rw [List.length_append, List.length_drop] at hlength
  rw [hdrop, nextCharLen]
  refine ⟨⟨by omega, by omega, isCharBoundary_iff.mpr ?_⟩, fun i ⟨hpi, hi, hboundary⟩ ↦ ?_⟩
  · cases hrest : (line.drop (p + 1)).dropWhile isContinuation with
    | nil =>
      rw [hrest, List.length_nil] at hlength
      exact .inr (.inl (by omega))
    | cons b rest =>
      have hb : isContinuation b = false := by
        have hhead := List.head?_dropWhile_not isContinuation (line.drop (p + 1))
        rw [hrest] at hhead
        simpa using hhead
      refine .inr (.inr ⟨b, ?_, hb⟩)
      rw [← Nat.add_assoc, ← List.getElem?_drop, ← htake,
        List.getElem?_append_right (by rw [htake]), htake, Nat.sub_self, hrest]
      rfl
  · by_contra hlt'
    obtain ⟨k, rfl⟩ := Nat.exists_eq_add_of_lt hpi
    have hk : k < ((line.drop (p + 1)).takeWhile isContinuation).length := by omega
    have hget : (line)[p + k + 1]? = some ((line.drop (p + 1)).takeWhile isContinuation)[k] := by
      rw [Nat.add_right_comm, ← List.getElem?_drop, ← List.getElem?_eq_getElem hk]
      conv_lhs => rw [← htake]
      rw [List.getElem?_append_left hk]
    have hcont := List.mem_takeWhile_imp (List.getElem_mem hk)
    rw [isCharBoundary, hget] at hboundary
    simp [hcont] at hboundary

theorem nextCharBoundary_of_le (h : line.length ≤ col) :
    nextCharBoundary line col = line.length := by
  rw [nextCharBoundary, previousCharBoundary_min, previousCharBoundary_of_le h]
  exact if_pos (Nat.le_refl _)

theorem isLeast_nextCharBoundary (hlt : col < line.length) :
    IsLeast {i | col < i ∧ i ≤ line.length ∧ isCharBoundary line i = true}
      (nextCharBoundary line col) := by
  have hcut := isCut_previousCharBoundary line col
  have hprevious := hcut.1.1
  rw [nextCharBoundary, previousCharBoundary_min, if_neg (by omega)]
  have hleast := isLeast_nextCharLen (Nat.lt_of_le_of_lt hprevious hlt)
  refine ⟨⟨?_, hleast.1.2⟩, fun i hi ↦ hleast.2 ⟨Nat.lt_of_le_of_lt hprevious hi.1, hi.2⟩⟩
  by_contra hle
  exact absurd (hcut.2 ⟨Nat.not_lt.mp hle, hleast.1.2⟩) (Nat.not_le.mpr hleast.1.1)

theorem nextCharBoundary_spec (line : List UInt8) (col : ℕ) :
    nextCharBoundary line col ≤ line.length ∧
    isCharBoundary line (nextCharBoundary line col) = true ∧
      (line.length ≤ nextCharBoundary line col ∨ col < nextCharBoundary line col) := by
  rcases Nat.lt_or_ge col line.length with hlt | hge
  · have hleast := isLeast_nextCharBoundary hlt
    exact ⟨hleast.1.2.1, hleast.1.2.2, .inr hleast.1.1⟩
  · rw [nextCharBoundary_of_le hge]
    exact ⟨Nat.le_refl _, isCharBoundary_length, .inl (Nat.le_refl _)⟩

theorem nextCharBoundary_min (line : List UInt8) (col : ℕ) :
    nextCharBoundary line (min col line.length) = nextCharBoundary line col := by
  rw [nextCharBoundary, nextCharBoundary, Nat.min_assoc, Nat.min_self]

/-- The bytes of a line from one column to another, both included. -/
def blockOf (line : List UInt8) (l r : ℕ) : List UInt8 :=
  (line.drop (previousCharBoundary line l)).take
    (nextCharBoundary line r - previousCharBoundary line l)

theorem previous_le_next (hlr : l ≤ r) :
    previousCharBoundary line l ≤ nextCharBoundary line r := by
  have hcut := (isCut_previousCharBoundary line l).1
  have hnext := (nextCharBoundary_spec line r).2.2
  have hle := hcut.1
  have hle' := hcut.2.1
  omega

theorem length_blockOf (line : List UInt8) (l r : ℕ) : (blockOf line l r).length =
    nextCharBoundary line r - previousCharBoundary line l := by
  have hnext := (nextCharBoundary_spec line r).1
  rw [blockOf, List.length_take, List.length_drop]
  omega

theorem blockOf_eq_nil_iff (hlr : l ≤ r) : blockOf line l r = [] ↔ line.length ≤ l := by
  have hcut := (isCut_previousCharBoundary line l).1
  have hnext := (nextCharBoundary_spec line r).2.2
  rw [← List.length_eq_zero_iff, length_blockOf]
  constructor
  · intro hzero
    have hle := hcut.1
    have hle' := hcut.2.1
    omega
  · intro hle
    rw [previousCharBoundary_of_le hle, nextCharBoundary_of_le (hle.trans hlr), Nat.sub_self]

/-! ### Behind a line -/

variable {crs : List UInt8}

theorem isCharBoundary_append_crs (hcrs : ∀ b ∈ crs, b = 13) (hi : i ≤ line.length) :
    isCharBoundary (line ++ crs) i = isCharBoundary line i := by
  rcases Nat.lt_or_eq_of_le hi with hlt | rfl
  · rw [isCharBoundary, isCharBoundary, List.getElem?_append_left hlt,
      List.getElem?_eq_getElem hlt]
  · rw [isCharBoundary_length, isCharBoundary_iff]
    cases crs with
    | nil => exact .inr (.inl (by rw [List.append_nil]))
    | cons b crs =>
      have hget : (line ++ b :: crs)[line.length]? = some b := by
        rw [List.getElem?_append_right (Nat.le_refl _), Nat.sub_self]
        rfl
      refine .inr (.inr ⟨b, hget, ?_⟩)
      rw [hcrs b List.mem_cons_self]
      rfl

theorem previousCharBoundary_append (hcrs : ∀ b ∈ crs, b = 13) (hcol : col ≤ line.length) :
    previousCharBoundary (line ++ crs) col = previousCharBoundary line col := by
  have hcut := isCut_previousCharBoundary line col
  refine (isCut_previousCharBoundary (line ++ crs) col).unique ⟨⟨hcut.1.1, ?_, ?_⟩, fun i hi ↦ ?_⟩
  · rw [List.length_append]
    exact hcut.1.2.1.trans (Nat.le_add_right _ _)
  · rw [isCharBoundary_append_crs hcrs hcut.1.2.1]
    exact hcut.1.2.2
  · refine hcut.2 ⟨hi.1, hi.1.trans hcol, ?_⟩
    rw [← isCharBoundary_append_crs hcrs (hi.1.trans hcol)]
    exact hi.2.2

theorem nextCharBoundary_append (hcrs : ∀ b ∈ crs, b = 13) (hcol : col < line.length) :
    nextCharBoundary (line ++ crs) col = nextCharBoundary line col := by
  have hlong : col < (line ++ crs).length := by
    rw [List.length_append]
    omega
  have hleast := isLeast_nextCharBoundary hcol
  refine (isLeast_nextCharBoundary hlong).unique ⟨⟨hleast.1.1, ?_, ?_⟩, fun i hi ↦ ?_⟩
  · rw [List.length_append]
    exact hleast.1.2.1.trans (Nat.le_add_right _ _)
  · rw [isCharBoundary_append_crs hcrs hleast.1.2.1]
    exact hleast.1.2.2
  · rcases Nat.lt_or_ge line.length i with hlt | hle
    · exact hleast.1.2.1.trans hlt.le
    · refine hleast.2 ⟨hi.1, hle, ?_⟩
      rw [← isCharBoundary_append_crs hcrs hle]
      exact hi.2.2

/-- Carriage returns behind a line make no difference to a block that ends before them or begins
behind them. -/
theorem blockOf_append_iff (hcrs : ∀ b ∈ crs, b = 13) (hlr : l ≤ r) :
    blockOf line l r = blockOf (line ++ crs) l r ↔
      crs = [] ∨ r < line.length ∨ (line ++ crs).length ≤ l := by
  constructor
  · intro heq
    by_contra hnone
    push Not at hnone
    obtain ⟨hne, hr, hl⟩ := hnone
    have hlength := congrArg List.length heq
    rw [length_blockOf, length_blockOf, nextCharBoundary_of_le hr] at hlength
    have hnext := nextCharBoundary_spec (line ++ crs) r
    have hpos := List.length_pos_iff.mpr hne
    rw [List.length_append] at hl hnext
    rcases Nat.lt_or_ge line.length l with hlt | hle
    · rw [previousCharBoundary_of_le hlt.le, Nat.sub_self] at hlength
      have hcut := (isCut_previousCharBoundary (line ++ crs) l).1.1
      omega
    · have hcut := (isCut_previousCharBoundary line l).1.2.1
      rw [previousCharBoundary_append hcrs hle] at hlength
      omega
  · rintro (rfl | hr | hl)
    · rw [List.append_nil]
    · have hnext := (nextCharBoundary_spec line r).1
      have hcut := (isCut_previousCharBoundary line l).1.2.1
      rw [blockOf, blockOf, previousCharBoundary_append hcrs (hlr.trans hr.le),
        nextCharBoundary_append hcrs hr, List.drop_append_of_le_length hcut,
        List.take_append_of_le_length]
      rw [List.length_drop]
      omega
    · have hshort : line.length ≤ l := by
        rw [List.length_append] at hl
        omega
      rw [(blockOf_eq_nil_iff hlr).mpr hshort, (blockOf_eq_nil_iff hlr).mpr hl]

end

/-! ## Lines as they are read -/

section

variable {base line : List UInt8} {n : ℕ}

theorem exists_content (line : List UInt8) : ∃ crs : List UInt8, (∀ b ∈ crs, b = 13) ∧
    line = content line ++ crs := by
  refine ⟨line.rtakeWhile (· = 13), fun b hb ↦ ?_, List.rdropWhile_append_rtakeWhile.symm⟩
  have hcr := List.mem_rtakeWhile_imp hb
  exact of_decide_eq_true hcr

theorem rdropWhile_ends (hline : 10 ∉ line) :
    line.rdropWhile (fun b ↦ b = 10 || b = 13) = content line := by
  induction line using List.reverseRecOn with
  | nil => rfl
  | append_singleton line b ih =>
    rw [List.mem_append, not_or, List.mem_singleton] at hline
    have hb : (decide (b = 10) || decide (b = 13)) = decide (b = 13) := by
      rw [decide_eq_false (Ne.symm hline.2), Bool.false_or]
    rw [content, List.rdropWhile_concat, List.rdropWhile_concat, hb, ih hline.1, content]

theorem logicalLineContents_eq (h : (base.splitOn 10)[n]? = some line) :
    logicalLineContents base n = (offsetOfLine base n, content line) := by
  have hline := notMem_of_mem_splitOn (List.mem_of_getElem? h)
  rw [logicalLineContents]
  refine Prod.ext rfl ?_
  dsimp only [offsetOfLine]
  obtain ⟨-, ⟨rest, hdrop⟩, hnext⟩ | ⟨-, hdrop, hnext⟩ := drop_startOfLine_cases h
  · have hlength := congrArg List.length hdrop
    rw [List.length_drop, List.length_append, List.length_cons] at hlength
    have htake : (line ++ 10 :: rest).take (line.length + 1) = line ++ [10] := by
      rw [List.take_length_add_append]
      rfl
    rw [hnext, Nat.min_eq_left (by omega), hdrop, Nat.add_assoc, Nat.add_sub_cancel_left, htake,
      List.rdropWhile_concat_pos _ _ _ (by decide), rdropWhile_ends hline]
  · have hlength := congrArg List.length hdrop
    rw [List.length_drop] at hlength
    rw [hnext, Nat.min_self, hlength, hdrop, List.take_length, rdropWhile_ends hline]

theorem length_splitOn_eq (base : List UInt8) : (base.splitOn 10).length = totalLines base :=
  length_splitOn 10 base

theorem lineText_eq (h : (base.splitOn 10)[n]? = some line) : lineText base n =
    if n + 1 < totalLines base ∧ line.getLast? = some 13 then line.dropLast else line := by
  have hline := notMem_of_mem_splitOn (List.mem_of_getElem? h)
  have hn := (List.getElem?_eq_some_iff.mp h).1
  rw [length_splitOn_eq] at hn
  rw [lineText, lineWithEndingInterval]
  dsimp only [offsetOfLine]
  rw [Nat.min_eq_left (by omega)]
  obtain ⟨hmore, ⟨rest, hdrop⟩, hnext⟩ | ⟨hlast, hdrop, -⟩ := drop_startOfLine_cases h
  · rw [length_splitOn_eq] at hmore
    have htake : (line ++ 10 :: rest).take (line.length + 1) = line ++ [10] := by
      rw [List.take_length_add_append]
      rfl
    rw [if_pos hmore, hnext, hdrop, Nat.add_assoc, Nat.add_sub_cancel_left, htake,
      List.getLast?_concat, if_pos rfl, List.dropLast_concat]
    exact if_congr (and_iff_right hmore).symm rfl rfl
  · have hlength := congrArg List.length hdrop
    rw [List.length_drop] at hlength
    rw [length_splitOn_eq] at hlast
    have hnot : ¬ n + 1 < totalLines base := by omega
    have hend : line.getLast? ≠ some 10 := fun hget ↦ hline (List.mem_of_getLast? hget)
    rw [if_neg hnot, hlength, hdrop, List.take_length, if_neg hend, if_neg fun hcr ↦ hnot hcr.1]

/-- The yank leaves on a line at least what the deletion does. -/
theorem exists_lineText (h : (base.splitOn 10)[n]? = some line) :
    ∃ crs : List UInt8, (∀ b ∈ crs, b = 13) ∧ lineText base n = content line ++ crs := by
  rw [lineText_eq h]
  split_ifs with hcr
  · obtain ⟨init, rfl⟩ := List.getLast?_eq_some_iff.mp hcr.2
    obtain ⟨crs, hcrs, heq⟩ := exists_content init
    refine ⟨crs, hcrs, ?_⟩
    rw [List.dropLast_concat, content, List.rdropWhile_concat_pos _ _ _ (by decide)]
    exact heq
  · exact exists_content line

end

/-! ## Deleting and yanking -/

section

variable {base : List UInt8} {r : Rectangle}

/-- What is taken away from a line of the block. -/
def cutOf (l r : ℕ) (line : List UInt8) : Option (Splice UInt8) :=
  let start := previousCharBoundary (content line) l
  let end_ := nextCharBoundary (content line) r
  if start < end_ then some ⟨start, end_, []⟩ else none

theorem deleteBlock_editsLines (base : List UInt8) (l r : ℕ) (ns : List ℕ) :
    EditsLines 10 base (fun n ↦ n ∈ ns ∧ n < totalLines base)
      (fun n line ↦ if n ∈ ns then cutOf l r line else none) (deleteBlockLine base l r) where
  line := by
    intro n line builder hn h
    rw [deleteBlockLine, logicalLineContents_eq h, if_pos hn.1]
    dsimp only
    rw [previousCharBoundary_min, nextCharBoundary_min, cutOf]
    split_ifs
    · exact delete_eq_replace ..
    · rfl
  past := by
    intro n builder hn h
    rw [List.getElem?_eq_none_iff, length_splitOn_eq] at h
    exact absurd hn.2 (Nat.not_lt.mpr h)
  within := by
    intro n line splice hsplice
    split_ifs at hsplice
    · rw [cutOf] at hsplice
      split_ifs at hsplice with hlt
      · obtain rfl := Option.some.inj hsplice
        refine ⟨hlt.le, (nextCharBoundary_spec _ r).1.trans ?_⟩
        exact (List.rdropWhile_prefix _ _).length_le
      · cases hsplice
    · cases hsplice

/-- The lines that the deletion works on. -/
def Rectangle.clamped (r : Rectangle) (base : List UInt8) : List ℕ :=
  List.range' (min r.startLine (totalLines base - 1))
    (min r.endLine (totalLines base - 1) + 1 - min r.startLine (totalLines base - 1))

theorem mem_clamped {n : ℕ} : n ∈ r.clamped base ↔
    min r.startLine (totalLines base - 1) ≤ n ∧ n ≤ min r.endLine (totalLines base - 1) := by
  have hlines := r.lines
  rw [Rectangle.clamped, List.mem_range'_1]
  omega

theorem lt_of_mem_clamped {n : ℕ} (h : n ∈ r.clamped base) : n < totalLines base := by
  have hpos : 0 < totalLines base := Nat.succ_pos _
  have hle := (mem_clamped.mp h).2
  omega

theorem pairwise_clamped (base : List UInt8) (r : Rectangle) :
    (r.clamped base).Pairwise (· < ·) := List.pairwise_lt_range' ..

theorem exists_deleteBlock (base : List UInt8) (r : Rectangle) :
    ∃ builder, deleteBlock base r.startLine r.endLine r.leftCol r.rightCol =
        some builder.build ∧
      (r.clamped base).foldlM (deleteBlockLine base r.leftCol r.rightCol) (.new base.length) =
        some builder ∧ builder.lastOffset ≤ base.length := by
  have hlines := r.lines
  obtain ⟨builder, hrun, hreaches⟩ := foldlM_lines
    (deleteBlock_editsLines base r.leftCol r.rightCol (r.clamped base)) (pairwise_clamped base r)
    (fun n hn ↦ ⟨hn, lt_of_mem_clamped hn⟩) fun n line hn ↦ if_neg hn
  refine ⟨builder, ?_, hrun, hreaches.le⟩
  rw [deleteBlock, if_neg (by omega), ← Rectangle.clamped, hrun]
  rfl

theorem take_drop_of_prefix {c line : List UInt8} (h : c <+: line) {p q : ℕ} (hpq : p ≤ q)
    (hq : q ≤ c.length) : (line.drop p).take (q - p) = (c.drop p).take (q - p) := by
  obtain ⟨t, rfl⟩ := h
  rw [List.drop_append_of_le_length (hpq.trans hq), List.take_append_of_le_length]
  rw [List.length_drop]
  omega

theorem removedFrom_deleteBlock {builder : DeltaBuilder UInt8}
    (hrun : (r.clamped base).foldlM (deleteBlockLine base r.leftCol r.rightCol) (.new base.length) =
      some builder) (hle : builder.lastOffset ≤ base.length) {n : ℕ} {line : List UInt8}
    (hline : (base.splitOn 10)[n]? = some line) :
    removedFrom 10 builder.build base n =
      if n ∈ r.clamped base then blockOf (content line) r.leftCol r.rightCol else [] := by
  rw [(deleteBlock_editsLines base r.leftCol r.rightCol (r.clamped base)).removedFrom_eq
    (fun n hn ↦ ⟨hn, lt_of_mem_clamped hn⟩) (fun n line hn ↦ if_neg hn) hrun hle hline]
  split_ifs with hn
  · rw [cutOf]
    split_ifs with hlt
    · have hnext := (nextCharBoundary_spec (content line) r.rightCol).1
      exact take_drop_of_prefix (List.rdropWhile_prefix _ _) hlt.le hnext
    · rw [blockOf, Nat.sub_eq_zero_of_le (Nat.not_lt.mp hlt), List.take_zero]
  · rfl

theorem blockText_eq (base : List UInt8) (r : Rectangle) :
    blockText base r.startLine r.endLine r.leftCol r.rightCol =
      some ((List.range' r.startLine
        (min r.endLine (totalLines base - 1) + 1 - r.startLine)).flatMap fun n ↦
          blockOf (lineText base n) r.leftCol r.rightCol ++ [10]) := by
  have hblock : blockLine base r.leftCol r.rightCol = fun n ↦
      pure (blockOf (lineText base n) r.leftCol r.rightCol ++ [10]) := by
    funext n
    have hnext := nextCharBoundary_spec (lineText base n) r.rightCol
    have hcut := (isCut_previousCharBoundary (lineText base n) r.leftCol).1
    rw [blockLine, previousCharBoundaryInText, ← previousCharBoundary, previousCharBoundary_min,
      nextCharBoundary_min,
      sliceStr_eq (previous_le_next r.cols) hnext.1 hcut.2.2 hnext.2.1]
    rfl
  rw [blockText, Nat.min_eq_left r.lines, Nat.max_eq_right r.lines, Nat.min_eq_left r.cols,
    Nat.max_eq_right r.cols, hblock, List.mapM_pure]
  rfl

/-! ## Cuts in the whole text -/

theorem isCharBoundary_startOfLine (hutf : IsUtf8 base) {n : ℕ} {line : List UInt8}
    (hline : (base.splitOn 10)[n]? = some line) :
    isCharBoundary base (startOfLine 10 base n) = true := by
  cases n with
  | zero =>
    rw [startOfLine]
    exact isCharBoundary_zero
  | succ n =>
    have hn := (List.getElem?_eq_some_iff.mp hline).1
    have hprevious := List.getElem?_eq_getElem (Nat.lt_of_succ_lt hn)
    obtain ⟨-, ⟨rest, hdrop⟩, hnext⟩ | ⟨hlast, -⟩ := drop_startOfLine_cases hprevious
    · have hend : base[startOfLine 10 base n + ((base.splitOn 10)[n]).length]? = some 10 := by
        rw [← List.getElem?_drop, hdrop, List.getElem?_append_right (Nat.le_refl _), Nat.sub_self]
        rfl
      have hlt := (List.getElem?_eq_some_iff.mp hend).1
      rw [hnext, isCharBoundary_iff]
      cases hget : base[startOfLine 10 base n + ((base.splitOn 10)[n]).length + 1]? with
      | none =>
        have hge := List.getElem?_eq_none_iff.mp hget
        exact .inr (.inl (by omega))
      | some b => exact .inr (.inr ⟨b, rfl, hutf.after_ascii hend (by decide) hget⟩)
    · omega

/-- A boundary of the content of a line is one of the text. -/
theorem isCharBoundary_line (hutf : IsUtf8 base) {n : ℕ} {line : List UInt8}
    (hline : (base.splitOn 10)[n]? = some line) {i : ℕ} (hi : i ≤ (content line).length)
    (hboundary : isCharBoundary (content line) i = true) :
    isCharBoundary base (startOfLine 10 base n + i) = true := by
  obtain ⟨crs, hcrs, heq⟩ := exists_content line
  -- behind the content there is no continuation byte
  obtain ⟨rest, hdrop, hrest⟩ : ∃ rest, base.drop (startOfLine 10 base n) = content line ++ rest ∧
      ∀ b ∈ rest.head?, isContinuation b = false := by
    obtain ⟨-, ⟨rest, hdrop⟩, -⟩ | ⟨-, hdrop, -⟩ := drop_startOfLine_cases hline
    · refine ⟨crs ++ 10 :: rest, by rw [hdrop, ← List.append_assoc, ← heq], fun b hb ↦ ?_⟩
      cases crs with
      | nil =>
        obtain rfl := Option.some.inj hb
        rfl
      | cons cr crs =>
        obtain rfl := Option.some.inj hb
        rw [hcrs cr List.mem_cons_self]
        rfl
    · refine ⟨crs, by rw [hdrop, ← heq], fun b hb ↦ ?_⟩
      rw [hcrs b (List.mem_of_head? hb)]
      rfl
  have hlength := congrArg List.length hdrop
  rw [List.length_drop, List.length_append] at hlength
  rcases Nat.eq_zero_or_pos i with rfl | hpos
  · exact isCharBoundary_startOfLine hutf hline
  · rw [isCharBoundary_iff] at hboundary ⊢
    rw [← List.getElem?_drop, hdrop]
    rcases Nat.lt_or_eq_of_le hi with hlt | rfl
    · obtain hzero | hend | hbyte := hboundary
      · omega
      · omega
      · rw [List.getElem?_append_left hlt]
        exact .inr (.inr hbyte)
    · rw [List.getElem?_append_right (Nat.le_refl _), Nat.sub_self]
      cases rest with
      | nil =>
        rw [List.length_nil] at hlength
        exact .inr (.inl (by omega))
      | cons b rest => exact .inr (.inr ⟨b, rfl, hrest b rfl⟩)

theorem deleteBlock_boundaries (hutf : IsUtf8 base) {builder : DeltaBuilder UInt8}
    (hrun : (r.clamped base).foldlM (deleteBlockLine base r.leftCol r.rightCol) (.new base.length) =
      some builder) : ∀ b e, .copy b e ∈ builder.build.els →
        isCharBoundary base b = true ∧ isCharBoundary base e = true := by
  have hedits := deleteBlock_editsLines base r.leftCol r.rightCol (r.clamped base)
  have hselected : ∀ n ∈ r.clamped base, n ∈ r.clamped base ∧ n < totalLines base :=
    fun n hn ↦ ⟨hn, lt_of_mem_clamped hn⟩
  have hcuts : ∀ n ∈ r.clamped base, ∀ line, (base.splitOn 10)[n]? = some line →
      ∀ splice ∈ (if n ∈ r.clamped base then cutOf r.leftCol r.rightCol line else none),
        isCharBoundary base (startOfLine 10 base n + splice.start) = true ∧
          isCharBoundary base (startOfLine 10 base n + splice.end_) = true := by
    intro n hn line hline splice hsplice
    rw [if_pos hn, cutOf] at hsplice
    split_ifs at hsplice
    · obtain rfl := Option.some.inj hsplice
      have hcut := (isCut_previousCharBoundary (content line) r.leftCol).1
      have hnext := nextCharBoundary_spec (content line) r.rightCol
      exact ⟨isCharBoundary_line hutf hline hcut.2.1 hcut.2.2,
        isCharBoundary_line hutf hline hnext.1 hnext.2.1⟩
    · cases hsplice
  obtain ⟨hlast, hcopies⟩ := hedits.copy_ends (q := (isCharBoundary base · = true)) hselected hcuts
    isCharBoundary_zero (fun b e hmem ↦ absurd hmem List.not_mem_nil) hrun
  obtain ⟨-, hbase, -⟩ := hedits.covers hselected hrun
  intro b e hmem
  rw [DeltaBuilder.build] at hmem
  dsimp only at hmem
  split_ifs at hmem
  · rcases List.mem_append.mp hmem with hmem | hmem
    · exact hcopies b e hmem
    · cases List.mem_singleton.mp hmem
      refine ⟨hlast, ?_⟩
      rw [hbase]
      exact isCharBoundary_length
  · exact hcopies b e hmem

/-! ## Inserting -/

theorem replayBlock_editsLines (base : List UInt8) (column : ℕ) (text : List UInt8) (ns : List ℕ) :
    EditsLines 10 base (fun n ↦ n ∈ ns ∧ n < totalLines base)
      (fun n line ↦ if n ∈ ns then some ⟨previousCharBoundary (content line) column,
        previousCharBoundary (content line) column, text⟩ else none)
      (replayBlockLine base column text false) where
  line := by
    intro n line builder hn h
    rw [replayBlockLine, logicalLineContents_eq h, if_pos hn.1]
    dsimp only
    rw [previousCharBoundary_min, if_neg Bool.false_ne_true]
    rfl
  past := by
    intro n builder hn h
    rw [List.getElem?_eq_none_iff, length_splitOn_eq] at h
    exact absurd hn.2 (Nat.not_lt.mpr h)
  within := by
    intro n line splice hsplice
    split_ifs at hsplice
    · obtain rfl := Option.some.inj hsplice
      exact ⟨Nat.le_refl _, (isCut_previousCharBoundary _ _).1.2.1.trans
        (List.rdropWhile_prefix _ _).length_le⟩
    · cases hsplice

theorem insertsOnce (base : List UInt8) (r : Rectangle) {text : List UInt8} (htext : 10 ∉ text) :
    InsertsOnce base r text := by
  have hlines := r.lines
  by_cases hempty : text = []
  · subst hempty
    refine ⟨identityDelta base, base, rfl, (DeltaBuilder.holds_new base).build, rfl,
      fun n line hline ↦ ?_⟩
    refine ⟨_, isCut_previousCharBoundary (content line) r.leftCol, ?_⟩
    rw [List.nil_append, List.take_append_drop, ite_self, hline]
  · obtain ⟨builder, hrun, hreaches⟩ := foldlM_lines
      (replayBlock_editsLines base r.leftCol text (r.clamped base)) (pairwise_clamped base r)
      (fun n hn ↦ ⟨hn, lt_of_mem_clamped hn⟩) fun n line hn ↦ if_neg hn
    have hsplit := splitOn_mapIdx (f := fun n line ↦ editedLine line
      (if n ∈ r.clamped base then some ⟨previousCharBoundary (content line) r.leftCol,
        previousCharBoundary (content line) r.leftCol, text⟩ else none)) (by
      intro n line (hline : 10 ∉ line)
      split_ifs
      · rw [editedLine, List.mem_append, List.mem_append, not_or, not_or]
        exact ⟨fun h ↦ hline (List.mem_of_mem_take h), htext,
          fun h ↦ hline (List.mem_of_mem_drop h)⟩
      · exact hline) base
    refine ⟨builder.build, _, ?_, hreaches.build, by rw [hsplit, List.length_mapIdx],
      fun n line hline ↦ ⟨_, isCut_previousCharBoundary (content line) r.leftCol, ?_⟩⟩
    · rw [replayBlockInsert, if_neg (by simpa using hempty)]
      dsimp only
      rw [if_neg (by omega), ← Rectangle.clamped, hrun]
      rfl
    · have hmem : n ∈ r.clamped base ↔
          min r.startLine (totalLines base - 1) ≤ n ∧ n ≤ r.endLine := by
        have hn := (List.getElem?_eq_some_iff.mp hline).1
        rw [length_splitOn_eq] at hn
        rw [mem_clamped]
        omega
      rw [hsplit, List.getElem?_mapIdx, hline, Option.map_some]
      simp only [← hmem]
      split_ifs <;> rfl

/-- A line of the block is deleted as it is yanked. -/
theorem blockOf_lineText_iff {n : ℕ} {line : List UInt8}
    (hline : (base.splitOn 10)[n]? = some line) :
    blockOf (content line) r.leftCol r.rightCol = blockOf (lineText base n) r.leftCol r.rightCol ↔
      lineText base n = content line ∨ r.rightCol < (content line).length ∨
        (lineText base n).length ≤ r.leftCol := by
  obtain ⟨crs, hcrs, heq⟩ := exists_lineText hline
  rw [heq, blockOf_append_iff hcrs r.cols, List.append_right_eq_self]

theorem notMem_blockOf {x : List UInt8} (h : 10 ∉ x) (l r : ℕ) : 10 ∉ blockOf x l r :=
  fun hmem ↦ h (List.mem_of_mem_drop (List.mem_of_mem_take hmem))

/-- Lines with their ends are equal when the lines are. -/
theorem flatMap_ends_inj {ns : List ℕ} {f g : ℕ → List UInt8} (hf : ∀ n ∈ ns, 10 ∉ f n)
    (hg : ∀ n ∈ ns, 10 ∉ g n)
    (h : ns.flatMap (fun n ↦ f n ++ [10]) = ns.flatMap fun n ↦ g n ++ [10]) :
    ∀ n ∈ ns, f n = g n := by
  have hended (f : ℕ → List UInt8) : ns.flatMap (fun n ↦ f n ++ [10]) = ended 10 (ns.map f) := by
    rw [ended, List.flatMap_map]
  have hsplit (f : ℕ → List UInt8) (hf : ∀ n ∈ ns, 10 ∉ f n) :
      (ended 10 (ns.map f)).splitOn 10 = ns.map f ++ [[]] := by
    have hlines : ∀ line ∈ ns.map f, 10 ∉ line := by simpa using hf
    have hended := splitOn_ended hlines []
    rwa [List.append_nil] at hended
  have heq := congrArg (List.splitOn 10) h
  rw [hended f, hended g, hsplit f hf, hsplit g hg, List.append_left_inj] at heq
  exact List.map_inj_left.mp heq

/-- **Yanking a block and deleting it agree exactly when no carriage return is only yanked.** -/
theorem blockAgrees_iff (hutf : IsUtf8 base) : BlockAgrees base r ↔ SameEnds base r := by
  obtain ⟨builder, hdelete, hrun, hle⟩ := exists_deleteBlock base r
  have hlines := r.lines
  have hpos : 0 < totalLines base := Nat.succ_pos _
  have hremoved := fun (n : ℕ) (line : List UInt8) (hline : (base.splitOn 10)[n]? = some line) ↦
    removedFrom_deleteBlock hrun hle hline
  have hagrees : BlockAgrees base r ↔ DeletesYanked base r builder.build
      ((List.range' r.startLine (min r.endLine (totalLines base - 1) + 1 - r.startLine)).flatMap
        fun n ↦ blockOf (lineText base n) r.leftCol r.rightCol ++ [10]) := by
    constructor
    · rintro ⟨⟨delta, yanked, hdelta, hyanked, h⟩, -⟩
      obtain rfl := Option.some.inj (hdelete.symm.trans hdelta)
      obtain rfl := Option.some.inj ((blockText_eq base r).symm.trans hyanked)
      exact h
    · intro h
      exact ⟨⟨builder.build, _, hdelete, blockText_eq base r, h⟩,
        fun text _ htext ↦ insertsOnce base r htext⟩
  rw [hagrees]
  -- the lines that are yanked
  have hyanked (n : ℕ) : n ∈ List.range' r.startLine
      (min r.endLine (totalLines base - 1) + 1 - r.startLine) ↔
        r.startLine ≤ n ∧ n ≤ r.endLine ∧ n < totalLines base := by
    rw [List.mem_range'_1]
    omega
  have hget (n : ℕ) (hn : n < totalLines base) : ∃ line, (base.splitOn 10)[n]? = some line :=
    ⟨_, List.getElem?_eq_getElem (by rwa [length_splitOn_eq])⟩
  have hline (n : ℕ) (line : List UInt8) (hline : (base.splitOn 10)[n]? = some line)
      (hn : r.startLine ≤ n ∧ n ≤ r.endLine ∧ n < totalLines base) :
      removedFrom 10 builder.build base n = blockOf (content line) r.leftCol r.rightCol := by
    rw [hremoved n line hline, if_pos (mem_clamped.mpr (by omega))]
  constructor
  · intro h
    refine ⟨?_, fun n line hstart hend hsome ↦ ?_⟩
    · refine or_iff_not_imp_left.mpr fun hstart line hlast ↦ ?_
      rw [List.getLast?_eq_getElem?, length_splitOn_eq] at hlast
      have hnone := h.others (totalLines base - 1) (by omega) (.inl (by omega))
      rw [hremoved _ line hlast, if_pos (mem_clamped.mpr (by omega)),
        blockOf_eq_nil_iff r.cols] at hnone
      exact hnone
    · have hn := (List.getElem?_eq_some_iff.mp hsome).1
      rw [length_splitOn_eq] at hn
      have hsame := flatMap_ends_inj (fun k hk ↦ ?_) (fun k hk ↦ ?_) h.removed n
        ((hyanked n).mpr ⟨hstart, hend, hn⟩)
      · rw [hline n line hsome ⟨hstart, hend, hn⟩] at hsame
        exact (blockOf_lineText_iff hsome).mp hsame
      · have hk := (hyanked k).mp hk
        obtain ⟨other, hother⟩ := hget k hk.2.2
        have hnot := notMem_of_mem_splitOn (List.mem_of_getElem? hother)
        rw [hline k other hother hk]
        exact notMem_blockOf (fun hmem ↦ hnot ((List.rdropWhile_prefix _ _).subset hmem)) _ _
      · have hk := (hyanked k).mp hk
        obtain ⟨other, hother⟩ := hget k hk.2.2
        have hnot := notMem_of_mem_splitOn (List.mem_of_getElem? hother)
        refine notMem_blockOf ?_ _ _
        obtain ⟨crs, hcrs, heq⟩ := exists_lineText hother
        rw [heq, List.mem_append, not_or]
        exact ⟨fun hmem ↦ hnot ((List.rdropWhile_prefix _ _).subset hmem),
          fun hmem ↦ absurd (hcrs 10 hmem) (by decide)⟩
  · intro h
    refine ⟨List.flatMap_congr fun n hn ↦ ?_, fun n hn hout ↦ ?_, deleteBlock_boundaries hutf hrun⟩
    · have hn := (hyanked n).mp hn
      obtain ⟨line, hsome⟩ := hget n hn.2.2
      rw [hline n line hsome hn, (blockOf_lineText_iff hsome).mpr (h.ends n line hn.1 hn.2.1 hsome)]
    · obtain ⟨line, hsome⟩ := hget n hn
      rw [hremoved n line hsome]
      split_ifs with hmem
      · have hmem := mem_clamped.mp hmem
        obtain hstart | hfirst := h.first
        · omega
        · have hlast : (base.splitOn 10).getLast? = some line := by
            rw [List.getLast?_eq_getElem?, length_splitOn_eq, ← hsome]
            congr 1
            omega
          exact (blockOf_eq_nil_iff r.cols).mpr (hfirst line hlast)
      · rfl

end

/-- A block of two characters, of which the second takes two bytes. -/
theorem blockAgrees_multibyte : BlockAgrees [97, 195, 169, 10, 97, 98, 13, 10]
    ⟨0, 1, 0, 1, by decide, by decide⟩ :=
  (blockAgrees_iff (validateUTF8_iff.mp rfl)).mpr ⟨.inl (by decide), by
    rintro n line - hn hline
    refine .inl ?_
    obtain rfl | rfl := Nat.le_one_iff_eq_zero_or_eq_one.mp hn
    · obtain rfl : line = [97, 195, 169] := Option.some.inj (hline.symm.trans rfl)
      decide
    · obtain rfl : line = [97, 98, 13] := Option.some.inj (hline.symm.trans rfl)
      decide⟩

/-- Behind the last line nothing is yanked, but the last line is deleted. -/
theorem last_line_deleted : ¬ BlockAgrees [97, 98] ⟨5, 5, 0, 0, by decide, by decide⟩ := by
  rintro ⟨⟨delta, yanked, hdelta, -, h⟩, -⟩
  have heval : (deleteBlock [97, 98] 5 5 0 0).map (removedFrom 10 · [97, 98] 0) = some [97] := by
    decide
  rw [hdelta, Option.map_some, h.others 0 (by decide) (.inl (by decide))] at heval
  cases heval

end EeEditor.EditOps.Block
