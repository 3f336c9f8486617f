import EeEditor.EventContext.LineText
import EeEditor.Rope.LineEdits
import EeEditor.View.SelectionRuns

/-!
# Joined lines

`collect_join_operations` of `event_context/helpers.rs` and `do_join_selections` of `editing.rs`,
over the characters of a text. The operations are found in the text as it was, and are applied from
the last one to the first. As long as no two of them share a line, every one finds its lines as they
were.
-/

namespace EeEditor.EventContext

/-! ## The code -/

/-- `replace_interval_with_text`. `none` is a panic of the builder. -/
def replaceIntervalWithText (text : List Char) (start end_ : ℕ) (replacement : List Char) :
    Option (Delta Char) :=
  ((DeltaBuilder.new text.length).replace start end_ replacement).map DeltaBuilder.build

def logicalLineCol (text : List Char) (offset : ℕ) : ℕ × ℕ :=
  let line := lineOfOffset text offset
  (line, offset - startOfLine '\n' text line)

structure JoinOperation where
  startOffset : ℕ
  endOffset : ℕ
  joined : List Char
  spaceOffsets : List ℕ

/-- The first and the last line that are joined for a region. -/
def joinRange (text : List Char) (region : SelRegion) : Option (ℕ × ℕ) :=
  let (startLine, _) := logicalLineCol text region.min
  let (endLine, endCol) := logicalLineCol text region.max
  let endLine := if endCol = 0 ∧ endLine > startLine then endLine - 1 else endLine
  if startLine = endLine then
    if endLine + 1 ≥ totalLines text then none else some (startLine, endLine + 1)
  else some (startLine, endLine)

/-- A line without the blanks that it begins with. -/
def trimStart (line : List Char) : List Char := line.dropWhile fun c ↦ c = ' ' || c = '\t'

/-- A turn of the loop over the lines that follow the first one. -/
def joinLine (text : List Char) (startOffset : ℕ) (state : List Char × List ℕ) (line : ℕ) :
    List Char × List ℕ :=
  let (joined, spaceOffsets) := state
  let trimmed := trimStart (lineText text line)
  if trimmed.isEmpty then state
  else (joined ++ ' ' :: trimmed, spaceOffsets ++ [startOffset + joined.length])

def joinOperation (text : List Char) (range : ℕ × ℕ) : JoinOperation :=
  let (startLine, endLine) := range
  let startOffset := startOfLine '\n' text startLine
  let endOffset :=
    if endLine + 1 < totalLines text then startOfLine '\n' text (endLine + 1) else text.length
  let (joined, spaceOffsets) := (List.range' (startLine + 1) (endLine - startLine)).foldl
    (joinLine text startOffset) (lineText text startLine, [])
  ⟨startOffset, endOffset, joined, spaceOffsets⟩

/-- The ranges of lines of the regions, or of a caret at the beginning. -/
def joinRanges (text : List Char) (regions : List SelRegion) : List (ℕ × ℕ) :=
  let sourceRegions := if regions.isEmpty then [.new 0 0] else regions
  sourceRegions.filterMap (joinRange text)

def collectJoinOperations (text : List Char) (regions : List SelRegion) : List JoinOperation :=
  if totalLines text = 0 then []
  else ((joinRanges text regions).map (joinOperation text)).insertionSort fun a b ↦
    a.startOffset ≥ b.startOffset

/-- A turn of the loop over the operations, with the text and the selection. `none` is a panic. -/
def joinStep (selectSpace : Bool) (state : List Char × Selection) (operation : JoinOperation) :
    Option (List Char × Selection) := do
  let (text, finalSelection) := state
  let delta ←
    replaceIntervalWithText text operation.startOffset operation.endOffset operation.joined
  let finalSelection ← finalSelection.applyDelta delta false .default
  let text ← delta.apply text
  let finalSelection ← finalSelection.addRegions
    (if selectSpace then operation.spaceOffsets.map fun offset ↦ .new offset (offset + 1)
    else [.new (operation.startOffset + operation.joined.length)
      (operation.startOffset + operation.joined.length)])
  return (text, finalSelection)

/-- The text afterwards, and the selection that is set. -/
def doJoinSelections (selectSpace : Bool) (text : List Char) (regions : List SelRegion) :
    Option (List Char × Option Selection) :=
  let operations := collectJoinOperations text regions
  if operations.isEmpty then some (text, none)
  else do
    let (text, finalSelection) ← operations.foldlM (joinStep selectSpace) (text, .new)
    return (text,
      if !selectSpace || !finalSelection.regions.isEmpty then some finalSelection else none)

/-! ## What joining is for -/

/-- A line with its end. -/
def withEnding (text : List Char) (n : ℕ) : List Char :=
  sliceToCow text (lineWithEndingInterval text n)

/-- The end of a line. -/
def lineEnding (text : List Char) (n : ℕ) : List Char :=
  (withEnding text n).drop (lineText text n).length

/-- The lines of a range as one line. -/
def joinedLine (text : List Char) (range : ℕ × ℕ) : List Char :=
  lineText text range.1 ++ (List.range' (range.1 + 1) (range.2 - range.1)).flatMap fun n ↦
    if trimStart (lineText text n) = [] then [] else ' ' :: trimStart (lineText text n)

/-- What becomes of a line: the first one of a range becomes the joined line with an end, the others
of the range go, and all others stay. -/
def joinedPiece (ending : ℕ → List Char) (text : List Char) (ranges : List (ℕ × ℕ)) (n : ℕ) :
    List Char :=
  match ranges.find? fun range ↦ range.1 ≤ n ∧ n ≤ range.2 with
  | none => withEnding text n
  | some range => if n = range.1 then joinedLine text range ++ ending range.2 else []

def joinedText (ending : ℕ → List Char) (text : List Char) (ranges : List (ℕ × ℕ)) : List Char :=
  (List.range (totalLines text)).flatMap (joinedPiece ending text ranges)

/-- No two ranges share a line. -/
def Apart (ranges : List (ℕ × ℕ)) : Prop := ranges.Pairwise (·.2 < ·.1)

instance (ranges : List (ℕ × ℕ)) : Decidable (Apart ranges) :=
  inferInstanceAs (Decidable (ranges.Pairwise _))

/-! ## Lines as slices -/

section

variable {text : List Char} {range : ℕ × ℕ} {ranges : List (ℕ × ℕ)} {n a b k : ℕ}

theorem startOfLine_le_succ (text : List Char) (n : ℕ) :
    startOfLine '\n' text n ≤ startOfLine '\n' text (n + 1) := by
  induction text generalizing n with
  | nil => cases n <;> exact Nat.le_refl 0
  | cons c text ih =>
    cases n with
    | zero => exact Nat.zero_le _
    | succ n =>
      rw [startOfLine, startOfLine]
      refine Nat.add_le_add_left ?_ 1
      split_ifs
      · exact ih n
      · exact ih (n + 1)

theorem startOfLine_mono (text : List Char) : Monotone (startOfLine '\n' text) :=
  monotone_nat_of_le_succ (startOfLine_le_succ text)

/-- Where a line ends, the next one begins, or the text ends. -/
theorem endOffset_eq (text : List Char) (n : ℕ) :
    (if n < totalLines text then startOfLine '\n' text n else text.length) =
      startOfLine '\n' text n := by
  split_ifs with hlt
  · rfl
  · exact (startOfLine_of_le (Nat.lt_of_succ_le (Nat.not_lt.mp hlt))).symm

theorem withEnding_eq (h : n < totalLines text) :
    withEnding text n = (text.drop (startOfLine '\n' text n)).take
      (startOfLine '\n' text (n + 1) - startOfLine '\n' text n) := by
  rw [withEnding, sliceToCow, lineWithEndingInterval]
  dsimp only
  rw [Nat.min_eq_left (Nat.le_sub_one_of_lt h), endOffset_eq]

variable (text a k) in
/-- Neighbouring lines make up one slice. -/
theorem flatMap_withEnding (h : a + k ≤ totalLines text) :
    (List.range' a k).flatMap (withEnding text) = (text.drop (startOfLine '\n' text a)).take
      (startOfLine '\n' text (a + k) - startOfLine '\n' text a) := by
  induction k generalizing a with
  | zero => rw [List.range'_zero, Nat.add_zero, Nat.sub_self, List.take_zero, List.flatMap_nil]
  | succ k ih =>
    rw [List.range'_succ, List.flatMap_cons, ih (a + 1) (by omega), withEnding_eq (by omega),
      Nat.add_right_comm a 1 k]
    exact take_drop_append (startOfLine_le_succ text a) (startOfLine_mono text (by omega))

/-! ## Operations -/

theorem lineOfOffset_lt (text : List Char) (offset : ℕ) :
    lineOfOffset text offset < totalLines text :=
  Nat.lt_succ_of_le ((List.take_sublist offset text).count_le '\n')

/-- A range has a line to be joined to its first one. -/
theorem joinRange_spec {region : SelRegion} (h : joinRange text region = some range) :
    range.1 < range.2 ∧ range.2 < totalLines text := by
  have hle : lineOfOffset text region.min ≤ lineOfOffset text region.max :=
    lineOfOffset_mono region.min_le_max
  have hlt := lineOfOffset_lt text region.max
  rw [joinRange, logicalLineCol, logicalLineCol] at h
  dsimp only at h
  generalize region.max - _ = endCol at h
  split_ifs at h
  all_goals
    obtain rfl := Option.some.inj h
    dsimp only
    omega

theorem mem_joinRanges {regions : List SelRegion} (h : range ∈ joinRanges text regions) :
    range.1 < range.2 ∧ range.2 < totalLines text := by
  obtain ⟨region, -, hregion⟩ := List.mem_filterMap.mp h
  exact joinRange_spec hregion

/-- The loop over the lines, which keeps every space within what is joined. -/
theorem foldl_joinLine (text : List Char) (startOffset : ℕ) (lines : List ℕ) (joined : List Char)
    (spaceOffsets : List ℕ)
    (h : ∀ offset ∈ spaceOffsets, offset + 1 ≤ startOffset + joined.length) :
    (lines.foldl (joinLine text startOffset) (joined, spaceOffsets)).1 = joined ++
        lines.flatMap (fun n ↦ if trimStart (lineText text n) = [] then []
          else ' ' :: trimStart (lineText text n)) ∧
      ∀ offset ∈ (lines.foldl (joinLine text startOffset) (joined, spaceOffsets)).2,
        offset + 1 ≤ startOffset +
          (lines.foldl (joinLine text startOffset) (joined, spaceOffsets)).1.length := by
  induction lines generalizing joined spaceOffsets with
  | nil => exact ⟨(List.append_nil joined).symm, h⟩
  | cons n lines ih =>
    rw [List.foldl_cons, List.flatMap_cons, joinLine]
    by_cases hblank : trimStart (lineText text n) = []
    · rw [if_pos (List.isEmpty_iff.mpr hblank), if_pos hblank, List.nil_append]
      exact ih joined spaceOffsets h
    · rw [if_neg (mt List.isEmpty_iff.mp hblank), if_neg hblank, ← List.append_assoc]
      refine ih _ _ (List.forall_mem_append.mpr ⟨fun offset hoffset ↦ ?_, fun offset hoffset ↦ ?_⟩)
      · have hle := h offset hoffset
        rw [List.length_append]
        omega
      · rw [List.mem_singleton.mp hoffset, List.length_append, List.length_cons]
        omega

theorem joinOperation_spec (text : List Char) (range : ℕ × ℕ) :
    (joinOperation text range).startOffset = startOfLine '\n' text range.1 ∧
      (joinOperation text range).endOffset = startOfLine '\n' text (range.2 + 1) ∧
      (joinOperation text range).joined = joinedLine text range ∧
      ∀ offset ∈ (joinOperation text range).spaceOffsets,
        offset + 1 ≤ startOfLine '\n' text range.1 + (joinedLine text range).length := by
  obtain ⟨hjoined, hspaces⟩ := foldl_joinLine text (startOfLine '\n' text range.1)
    (List.range' (range.1 + 1) (range.2 - range.1)) (lineText text range.1) []
    fun _ h ↦ absurd h List.not_mem_nil
  refine ⟨rfl, endOffset_eq text (range.2 + 1), hjoined, ?_⟩
  rw [joinedLine, ← hjoined]
  exact hspaces

/-! ## The text with the joined lines -/

/-- What follows a position when the ranges are replaced. -/
def replacedFrom (text : List Char) : ℕ → List (ℕ × ℕ) → List Char
  | start, [] => text.drop start
  | start, range :: ranges =>
    (text.drop start).take (startOfLine '\n' text range.1 - start) ++
      (joinedLine text range ++ replacedFrom text (startOfLine '\n' text (range.2 + 1)) ranges)

theorem take_append_replacedFrom {start : ℕ}
    (h : ∀ range ∈ ranges, start ≤ startOfLine '\n' text range.1) :
    text.take start ++ replacedFrom text start ranges = replacedFrom text 0 ranges := by
  cases ranges with
  | nil => exact List.take_append_drop start text
  | cons range ranges =>
    rw [replacedFrom, replacedFrom, ← List.append_assoc]
    congr 1
    have hjoin := take_drop_append (Nat.zero_le start) (h range List.mem_cons_self) (l := text)
    rwa [Nat.sub_zero, List.drop_zero] at hjoin

section

variable {ending : ℕ → List Char}

theorem joinedPiece_of_lt (h : ∀ range ∈ ranges, n < range.1) :
    joinedPiece ending text ranges n = withEnding text n := by
  have hnone : (ranges.find? fun range ↦ range.1 ≤ n ∧ n ≤ range.2) = none := by
    refine List.find?_eq_none.mpr fun range hrange hmem ↦ ?_
    exact absurd (of_decide_eq_true hmem).1 (Nat.not_le.mpr (h range hrange))
  rw [joinedPiece, hnone]

theorem joinedPiece_cons_of_mem (h : range.1 ≤ n ∧ n ≤ range.2) :
    joinedPiece ending text (range :: ranges) n =
      if n = range.1 then joinedLine text range ++ ending range.2 else [] := by
  have hfind : ((range :: ranges).find? fun range ↦ range.1 ≤ n ∧ n ≤ range.2) = some range :=
    List.find?_cons_of_pos (decide_eq_true h)
  rw [joinedPiece, hfind]

theorem joinedPiece_cons_of_lt (h : range.2 < n) :
    joinedPiece ending text (range :: ranges) n = joinedPiece ending text ranges n := by
  rw [joinedPiece, joinedPiece, List.find?_cons_of_neg]
  exact fun hmem ↦ absurd (of_decide_eq_true hmem).2 (Nat.not_le.mpr h)

end

theorem flatMap_joinedPiece (hapart : Apart ranges)
    (hlines : ∀ range ∈ ranges, a ≤ range.1 ∧ range.1 < range.2 ∧ range.2 < totalLines text)
    (ha : a ≤ totalLines text) :
    replacedFrom text (startOfLine '\n' text a) ranges =
      (List.range' a (totalLines text - a)).flatMap (joinedPiece (fun _ ↦ []) text ranges) := by
  induction ranges generalizing a with
  | nil =>
    have hend : startOfLine '\n' text (totalLines text) = text.length :=
      startOfLine_of_le (Nat.lt_succ_self _)
    have hslice := flatMap_withEnding text a (totalLines text - a) (by omega)
    rw [Nat.add_sub_cancel' ha, hend, List.take_of_length_le (by rw [List.length_drop])] at hslice
    exact hslice.symm
  | cons range ranges ih =>
    obtain ⟨hafter, hapart⟩ := List.pairwise_cons.mp hapart
    obtain ⟨⟨hle, hlt, htotal⟩, hrest⟩ := List.forall_mem_cons.mp hlines
    have hsplit : List.range' a (totalLines text - a) = List.range' a (range.1 - a) ++
        (range.1 :: List.range' (range.1 + 1) (range.2 - range.1) ++
          List.range' (range.2 + 1) (totalLines text - (range.2 + 1))) := by
      obtain ⟨i, hi⟩ := Nat.exists_eq_add_of_le hle
      obtain ⟨j, hj⟩ := Nat.exists_eq_add_of_lt hlt
      obtain ⟨k, hk⟩ := Nat.exists_eq_add_of_lt htotal
      have hcount : totalLines text - a = i + ((j + 1 + 1) + k) := by omega
      have hfirst : range.1 - a = i := by omega
      have hmiddle : range.2 - range.1 = j + 1 := by omega
      have hlast : totalLines text - (range.2 + 1) = k := by omega
      have hnext : range.2 + 1 = range.1 + (j + 1 + 1) := by omega
      rw [hcount, hfirst, hmiddle, hlast, hnext, ← List.range'_succ, List.range'_append_1, hi,
        List.range'_append_1]
    have hbefore : (List.range' a (range.1 - a)).flatMap
        (joinedPiece (fun _ ↦ []) text (range :: ranges)) =
          (text.drop (startOfLine '\n' text a)).take
            (startOfLine '\n' text range.1 - startOfLine '\n' text a) := by
      have hslice := flatMap_withEnding text a (range.1 - a) (by omega)
      rw [Nat.add_sub_cancel' hle] at hslice
      rw [← hslice]
      refine List.flatMap_congr fun n hn ↦ joinedPiece_of_lt (List.forall_mem_cons.mpr ?_)
      rw [List.mem_range'_1] at hn
      refine ⟨by omega, fun range' hrange' ↦ ?_⟩
      have hlater := hafter range' hrange'
      omega
    have hinside : (List.range' (range.1 + 1) (range.2 - range.1)).flatMap
        (joinedPiece (fun _ ↦ []) text (range :: ranges)) = [] := by
      refine List.flatMap_eq_nil_iff.mpr fun n hn ↦ ?_
      rw [List.mem_range'_1] at hn
      rw [joinedPiece_cons_of_mem (by omega), if_neg (by omega)]
    have hbehind : (List.range' (range.2 + 1) (totalLines text - (range.2 + 1))).flatMap
        (joinedPiece (fun _ ↦ []) text (range :: ranges)) =
          replacedFrom text (startOfLine '\n' text (range.2 + 1)) ranges := by
      rw [ih hapart (fun range' hrange' ↦ ⟨hafter range' hrange', (hrest range' hrange').2⟩) htotal]
      refine List.flatMap_congr fun n hn ↦ joinedPiece_cons_of_lt ?_
      rw [List.mem_range'_1] at hn
      exact hn.1
    rw [hsplit, List.flatMap_append, List.flatMap_append, List.flatMap_cons, hbefore, hinside,
      hbehind, joinedPiece_cons_of_mem ⟨Nat.le_refl _, hlt.le⟩, if_pos rfl, replacedFrom]
    simp only [List.append_nil]

end

/-! ## The selection -/

/-- The regions are in order and lie within a text of a length. -/
def Within (length : ℕ) (selection : Selection) : Prop :=
  selection.Sorted ∧ ∀ offset, selection.Meets offset → offset ≤ length

section

variable {selection : Selection} {text new : List Char} {start end_ : ℕ}

theorem within_new (length : ℕ) : Within length .new :=
  ⟨Selection.sorted_new, fun _ ⟨_, hregion, _⟩ ↦ absurd hregion List.not_mem_nil⟩

theorem Within.max_le {length : ℕ} (h : Within length selection) :
    ∀ region ∈ selection.regions, region.max ≤ length := fun region hregion ↦
  h.2 region.max ⟨region, hregion, region.min_le_max, Nat.le_refl _⟩

theorem Within.applyDeltaFrom {delta : Delta Char} {t : Transformer Char} {length : ℕ}
    (h : Within length selection) (ht : Transformer.Caches delta t) (regions : List SelRegion)
    (hle : ∀ offset after, delta.transformFresh offset after ≤ length) :
    ∃ carried, Selection.applyDeltaFrom false .default regions t selection = some carried ∧
      Within length carried := by
  induction regions generalizing t selection with
  | nil => exact ⟨selection, rfl, h⟩
  | cons r regions ih =>
    obtain ⟨hstart, ht'⟩ := ht.transform r.start false
    obtain ⟨hend, ht''⟩ := ht'.transform r.end_ false
    obtain ⟨next, hadd, hadds⟩ := h.1.addRegion
      ((SelRegion.new (delta.transformFresh r.start false)
        (delta.transformFresh r.end_ false)).withAffinity r.affinity)
    have hnext : Within length next := by
      refine ⟨hadds.sorted, fun offset hoffset ↦ ?_⟩
      rcases (hadds.meets offset).mp hoffset with hmeet | hmeet
      · exact hmeet.2.trans (Nat.max_le.mpr ⟨hle _ _, hle _ _⟩)
      · exact h.2 offset hmeet
    have hsides : Selection.sides r false .default = (false, false) := by simp [Selection.sides]
    rw [Selection.applyDeltaFrom, hsides]
    dsimp only
    rw [hstart, hend, hadd]
    exact ih hnext ht''

theorem Within.addRegions {length : ℕ} (h : Within length selection) (regions : List SelRegion)
    (hregions : ∀ region ∈ regions, region.max ≤ length) :
    ∃ added, selection.addRegions regions = some added ∧ Within length added := by
  obtain ⟨added, hadd, hsorted, -, hmeets⟩ := h.1.addRegions regions
  refine ⟨added, hadd, hsorted, fun offset hoffset ↦ ?_⟩
  rcases (hmeets offset).mp hoffset with ⟨region, hregion, hmeet⟩ | hmeet
  · exact hmeet.2.trans (hregions region hregion)
  · exact h.2 offset hmeet

theorem walkLen_le (ix : ℕ) (after : Bool) (els : List (DeltaElement Char)) :
    Transformer.walkLen ix after els ≤ Delta.totalElementLen els := by
  induction els with
  | nil => exact Nat.le_refl 0
  | cons el els ih =>
    cases el with
    | insert n =>
      rw [Transformer.walkLen_insert]
      exact Nat.add_le_add_left ih _
    | copy beg end_ =>
      rw [Transformer.walkLen_copy]
      change _ ≤ (end_ - beg) + Delta.totalElementLen els
      split_ifs
      · exact Nat.zero_le _
      · omega
      · exact Nat.add_le_add_left ih _

/-- What a delta produces is as long as its elements. -/
theorem length_apply {delta : Delta Char} {result : List Char} (hwf : delta.WellFormed)
    (hlen : text.length = delta.baseLen) (h : delta.apply text = some result) :
    result.length = Delta.totalElementLen delta.els := by
  obtain ⟨produced, happly, hproduced⟩ := hwf.apply_eq hlen
  obtain rfl := Option.some.inj (h.symm.trans happly)
  have hlength := congrArg List.length hproduced
  rwa [List.length_map, List.length_map, Delta.length_flatten] at hlength

variable (new) in
/-- A range of the text is replaced, and every offset stays within the text. -/
theorem replaceIntervalWithText_spec (hle : start ≤ end_) (hend : end_ ≤ text.length) :
    ∃ delta, replaceIntervalWithText text start end_ new = some delta ∧
      delta.apply text = some (text.take start ++ (new ++ text.drop end_)) ∧
      ∀ offset after, delta.transformFresh offset after ≤
        (text.take start ++ (new ++ text.drop end_)).length := by
  obtain ⟨builder, hreplace, hreaches⟩ :=
    ((reaches_new text).copy (Nat.zero_le start)).replace hle hend new
  have happly := (hreaches.copy hend).build
  have hresult : [] ++ (text.drop 0).take (start - 0) ++ new ++
      (text.drop end_).take (text.length - end_) = text.take start ++ (new ++ text.drop end_) := by
    have htail : (text.drop end_).take (text.length - end_) = text.drop end_ :=
      List.take_of_length_le (by rw [List.length_drop])
    rw [List.nil_append, List.drop_zero, Nat.sub_zero, List.append_assoc, htail]
  rw [hresult] at happly
  obtain ⟨builder', hreplace', hinv, -, hbase⟩ :=
    (DeltaBuilder.inv_new text.length).replace (Nat.zero_le start) hle hend new
  obtain rfl := Option.some.inj (hreplace.symm.trans hreplace')
  refine ⟨builder.build, by rw [replaceIntervalWithText, hreplace]; rfl, happly,
    fun offset after ↦ ?_⟩
  rw [length_apply hinv.build.1 (hinv.build.2.trans hbase).symm happly,
    Transformer.transformFresh_eq]
  split_ifs
  · exact Nat.zero_le _
  · exact walkLen_le _ _ _

end

/-! ## The loop over the operations -/

section

variable {text : List Char} {ranges : List (ℕ × ℕ)} {range : ℕ × ℕ} {selection : Selection}
  {selectSpace : Bool}

variable (selection selectSpace) in
/-- An operation finds its lines as they were, as long as the text before their end is. -/
theorem joinStep_spec (hrange : range.1 < range.2) (rest : List Char) :
    ∃ selection', joinStep selectSpace
        (text.take (startOfLine '\n' text (range.2 + 1)) ++ rest, selection)
        (joinOperation text range) =
          some (text.take (startOfLine '\n' text range.1) ++ (joinedLine text range ++ rest),
            selection') ∧
      Within (text.take (startOfLine '\n' text range.1) ++
        (joinedLine text range ++ rest)).length selection' := by
  obtain ⟨hstart, hend, hjoined, hspaces⟩ := joinOperation_spec text range
  have hle : startOfLine '\n' text range.1 ≤ startOfLine '\n' text (range.2 + 1) :=
    startOfLine_mono text (by omega)
  have hlength : (text.take (startOfLine '\n' text (range.2 + 1))).length =
      startOfLine '\n' text (range.2 + 1) := List.length_take_of_le (startOfLine_le _ _)
  have hbound : startOfLine '\n' text (range.2 + 1) ≤
      (text.take (startOfLine '\n' text (range.2 + 1)) ++ rest).length := by
    rw [List.length_append, hlength]
    exact Nat.le_add_right _ _
  have htake : (text.take (startOfLine '\n' text (range.2 + 1)) ++ rest).take
      (startOfLine '\n' text range.1) = text.take (startOfLine '\n' text range.1) := by
    rw [List.take_append_of_le_length (hlength.symm ▸ hle), List.take_take, Nat.min_eq_left hle]
  have hdrop : (text.take (startOfLine '\n' text (range.2 + 1)) ++ rest).drop
      (startOfLine '\n' text (range.2 + 1)) = rest := by
    rw [List.drop_append_of_le_length hlength.ge, List.drop_eq_nil_of_le hlength.le,
      List.nil_append]
  obtain ⟨delta, hdelta, happly, htransform⟩ :=
    replaceIntervalWithText_spec (joinedLine text range) hle hbound
  rw [htake, hdrop] at happly htransform
  obtain ⟨carried, hcarried, hwithin⟩ := (within_new _).applyDeltaFrom
    (Transformer.caches_new delta) selection.regions htransform
  have hafter : startOfLine '\n' text range.1 + (joinedLine text range).length ≤
      (text.take (startOfLine '\n' text range.1) ++ (joinedLine text range ++ rest)).length := by
    rw [List.length_append, List.length_append, List.length_take_of_le (startOfLine_le _ _)]
    omega
  obtain ⟨added, hadd, hwithin'⟩ := hwithin.addRegions (if selectSpace then
      (joinOperation text range).spaceOffsets.map fun offset ↦ .new offset (offset + 1)
    else [.new (startOfLine '\n' text range.1 + (joinedLine text range).length)
      (startOfLine '\n' text range.1 + (joinedLine text range).length)]) (by
    intro region hregion
    split_ifs at hregion
    · obtain ⟨offset, hoffset, rfl⟩ := List.mem_map.mp hregion
      have hspace := (hspaces offset hoffset).trans hafter
      exact (Nat.max_le.mpr ⟨Nat.le_succ _, Nat.le_refl _⟩).trans hspace
    · rw [List.mem_singleton.mp hregion]
      exact (Nat.max_self _).trans_le hafter)
  have hcarry : selection.applyDelta delta false .default = some carried := hcarried
  refine ⟨added, ?_, hwithin'⟩
  rw [joinStep, hstart, hend, hjoined, hdelta, Option.bind_eq_bind, Option.bind_some, hcarry,
    Option.bind_eq_bind, Option.bind_some, happly, Option.bind_eq_bind, Option.bind_some, hadd]
  rfl

variable (selectSpace) in
/-- The operations from the last one to the first replace all ranges. -/
theorem foldlM_joinStep (hapart : Apart ranges)
    (hlines : ∀ range ∈ ranges, range.1 < range.2 ∧ range.2 < totalLines text) :
    ∃ selection', (ranges.map (joinOperation text)).reverse.foldlM (joinStep selectSpace)
        (text, .new) = some (replacedFrom text 0 ranges, selection') ∧
      Within (replacedFrom text 0 ranges).length selection' := by
  induction ranges with
  | nil => exact ⟨.new, rfl, within_new _⟩
  | cons range ranges ih =>
    obtain ⟨hafter, hapart⟩ := List.pairwise_cons.mp hapart
    obtain ⟨hrange, hrest⟩ := List.forall_mem_cons.mp hlines
    obtain ⟨selection, hrun, -⟩ := ih hapart hrest
    have hnext : text.take (startOfLine '\n' text (range.2 + 1)) ++
        replacedFrom text (startOfLine '\n' text (range.2 + 1)) ranges =
          replacedFrom text 0 ranges :=
      take_append_replacedFrom fun range' hrange' ↦ startOfLine_mono text (hafter range' hrange')
    have hfirst : text.take (startOfLine '\n' text range.1) ++ (joinedLine text range ++
        replacedFrom text (startOfLine '\n' text (range.2 + 1)) ranges) =
          replacedFrom text 0 (range :: ranges) := by
      rw [replacedFrom, List.drop_zero, Nat.sub_zero]
    rw [← hnext] at hrun
    obtain ⟨selection', hstep, hwithin'⟩ := joinStep_spec selection selectSpace hrange.1
      (replacedFrom text (startOfLine '\n' text (range.2 + 1)) ranges)
    rw [hfirst] at hstep hwithin'
    refine ⟨selection', ?_, hwithin'⟩
    rw [List.map_cons, List.reverse_cons, List.foldlM_append, hrun, Option.bind_eq_bind,
      Option.bind_some, List.foldlM_cons, hstep]
    rfl

/-- A line that is followed by another one ends behind its beginning. -/
theorem startOfLine_lt {n m : ℕ} (hlt : n < m) (hm : m < totalLines text) :
    startOfLine '\n' text n < startOfLine '\n' text m := by
  rw [← length_splitOn_eq] at hm
  exact (Nat.le_add_right _ _).trans_lt
    (startOfLine_add_lt (List.getElem?_eq_getElem (hlt.trans hm)) hlt hm)

/-- The operations of ranges that are apart are in order. -/
theorem pairwise_startOffset (hapart : Apart ranges)
    (hlines : ∀ range ∈ ranges, range.1 < range.2 ∧ range.2 < totalLines text) :
    (ranges.map (joinOperation text)).Pairwise fun a b ↦ a.startOffset < b.startOffset := by
  refine List.pairwise_map.mpr (hapart.imp_of_mem fun {a b} ha hb hlt ↦ ?_)
  exact startOfLine_lt ((hlines a ha).1.trans hlt) ((hlines b hb).1.trans (hlines b hb).2)

/-- The operations are taken from the last one to the first. -/
theorem collectJoinOperations_eq {regions : List SelRegion}
    (hapart : Apart (joinRanges text regions)) : collectJoinOperations text regions =
      ((joinRanges text regions).map (joinOperation text)).reverse := by
  have hpairwise := pairwise_startOffset hapart fun _ ↦ mem_joinRanges
  set operations := (joinRanges text regions).map (joinOperation text) with hoperations
  have hlines : totalLines text ≠ 0 := Nat.succ_ne_zero _
  rw [collectJoinOperations, if_neg hlines, ← hoperations]
  let descending : JoinOperation → JoinOperation → Prop := fun a b ↦
    a.startOffset ≥ b.startOffset
  have : Std.Total descending := ⟨fun a b ↦ Nat.le_total b.startOffset a.startOffset⟩
  have : IsTrans JoinOperation descending := ⟨fun _ _ _ hab hbc ↦ hbc.trans hab⟩
  have hreverse : operations.reverse.Pairwise descending :=
    List.pairwise_reverse.mpr (hpairwise.imp Nat.le_of_lt)
  -- two operations that begin at one offset are one
  have hsame : ∀ a ∈ operations, ∀ b ∈ operations,
      a.startOffset = b.startOffset → a = b := by
    have : Std.Symm fun a b : JoinOperation ↦ a.startOffset = b.startOffset → a = b :=
      ⟨fun _ _ h heq ↦ (h heq.symm).symm⟩
    exact List.Pairwise.forall_of_forall (fun _ _ _ ↦ rfl)
      (hpairwise.imp fun hlt heq ↦ absurd heq hlt.ne)
  have hperm : (operations.insertionSort descending).Perm operations.reverse :=
    (List.perm_insertionSort descending operations).trans (List.reverse_perm operations).symm
  refine List.Perm.eq_of_pairwise (fun a b ha hb hab hba ↦ ?_)
    (List.pairwise_insertionSort descending operations) hreverse hperm
  rw [List.mem_insertionSort] at ha
  exact hsame a ha b (List.mem_reverse.mp hb) (Nat.le_antisymm hba hab)

end

/-- When no two ranges share a line, each is replaced by its lines as one, without an end, and all
other lines stay. -/
theorem doJoinSelections_apart (selectSpace : Bool) (text : List Char) (regions : List SelRegion)
    (hapart : Apart (joinRanges text regions)) :
    ∃ selection, doJoinSelections selectSpace text regions =
        some (joinedText (fun _ ↦ []) text (joinRanges text regions), selection) ∧
      ∀ finalSelection ∈ selection, finalSelection.Sorted ∧ ∀ region ∈ finalSelection.regions,
        region.max ≤ (joinedText (fun _ ↦ []) text (joinRanges text regions)).length := by
  have htext : replacedFrom text 0 (joinRanges text regions) =
      joinedText (fun _ ↦ []) text (joinRanges text regions) := by
    have hpieces := flatMap_joinedPiece hapart (fun range hrange ↦
      ⟨Nat.zero_le range.1, mem_joinRanges hrange⟩) (Nat.zero_le (totalLines text))
    rw [startOfLine, Nat.sub_zero, ← List.range_eq_range'] at hpieces
    exact hpieces
  rw [doJoinSelections, collectJoinOperations_eq hapart]
  dsimp only
  obtain ⟨selection, hrun, hwithin⟩ :=
    foldlM_joinStep selectSpace hapart fun _ ↦ mem_joinRanges
  rw [htext] at hrun hwithin
  by_cases hempty : ((joinRanges text regions).map (joinOperation text)).reverse.isEmpty
  · have hsame : some (text, Selection.new) =
        some (joinedText (fun _ ↦ []) text (joinRanges text regions), selection) := by
      rw [← hrun, List.isEmpty_iff.mp hempty]
      rfl
    have htext' : text = joinedText (fun _ ↦ []) text (joinRanges text regions) :=
      congrArg Prod.fst (Option.some.inj hsame)
    rw [if_pos hempty, ← htext']
    exact ⟨none, rfl, fun finalSelection hfinal ↦ by cases hfinal⟩
  · rw [if_neg hempty, hrun]
    refine ⟨_, rfl, fun finalSelection hfinal ↦ ?_⟩
    split_ifs at hfinal
    · obtain rfl := Option.some.inj hfinal
      exact ⟨hwithin.1, hwithin.max_le⟩
    · cases hfinal

/-- Two carets with a line between them. -/
theorem doJoinSelections_apart_example :
    ∃ selection, doJoinSelections false ['a', '\n', 'b', '\n', 'c', '\n', 'd', '\n', 'e']
        [.new 0 0, .new 6 6] = some (joinedText (fun _ ↦ [])
          ['a', '\n', 'b', '\n', 'c', '\n', 'd', '\n', 'e']
          (joinRanges ['a', '\n', 'b', '\n', 'c', '\n', 'd', '\n', 'e'] [.new 0 0, .new 6 6]),
          selection) ∧
      ∀ finalSelection ∈ selection, finalSelection.Sorted ∧ ∀ region ∈ finalSelection.regions,
        region.max ≤ (joinedText (fun _ ↦ []) ['a', '\n', 'b', '\n', 'c', '\n', 'd', '\n', 'e']
          (joinRanges ['a', '\n', 'b', '\n', 'c', '\n', 'd', '\n', 'e']
            [.new 0 0, .new 6 6])).length :=
  doJoinSelections_apart false ['a', '\n', 'b', '\n', 'c', '\n', 'd', '\n', 'e']
    [.new 0 0, .new 6 6] (by decide)

/-- The line that follows is glued to the joined one, although that one had an end. -/
theorem doJoinSelections_glues :
    (doJoinSelections false ['a', '\n', 'b', '\n', 'c'] [.new 0 0]).map (·.1) =
        some ['a', ' ', 'b', 'c'] ∧
      joinedText (lineEnding ['a', '\n', 'b', '\n', 'c']) ['a', '\n', 'b', '\n', 'c']
        (joinRanges ['a', '\n', 'b', '\n', 'c'] [.new 0 0]) = ['a', ' ', 'b', '\n', 'c'] := by
  decide

end EeEditor.EventContext
