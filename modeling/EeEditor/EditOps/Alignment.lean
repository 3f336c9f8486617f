import EeEditor.EditOps.DisplayColumns
import EeEditor.EditOps.LineTransforms
import EeEditor.Sequence.Columns
import EeEditor.View.Regions

/-!
# Aligned selections

`align_selections` and `display_col_for_offset` of `xi-core-lib/src/edit_ops/align.rs`, over the
characters of a text. The columns are computed from where the heads are before anything is inserted,
so that a head may miss its column when there is a tab between an insertion and the head.
-/

namespace EeEditor.EditOps

open Background (offsetOfLine)
open EventContext (lineOfOffset lineOfOffset_mono)
open Columns

/-! ## The code -/

section

variable (charWidth : CharWidth) (tabSize : ℕ)

def displayColForOffset (base : List Char) (offset : ℕ) : ℕ :=
  let line := lineOfOffset base offset
  let lineStart := offsetOfLine base line
  displayColForStr charWidth tabSize ((base.drop lineStart).take (offset - lineStart))

/-- `previous_line`, `column_index` and `running_offset`. There is no previous line at first. -/
structure RowCursor where
  previousLine : Option ℕ
  columnIndex : ℕ
  runningOffset : ℕ

def RowCursor.new : RowCursor := ⟨none, 0, 0⟩

def RowCursor.enter (row : RowCursor) (line : ℕ) : RowCursor :=
  if row.previousLine ≠ some line then ⟨some line, 0, 0⟩ else row

/-- The loop over the regions. -/
structure Measuring where
  columnWidths : List ℕ
  coordinates : List (ℕ × ℕ × ℕ)
  row : RowCursor

/-- `none` if the region is on more than one line. -/
def Measuring.region (base : List Char) (m : Measuring) (region : SelRegion) : Option Measuring :=
  let headLine := lineOfOffset base region.end_
  let anchorLine := lineOfOffset base region.start
  if headLine ≠ anchorLine then none
  else
    let row := m.row.enter headLine
    let headCol := displayColForOffset charWidth tabSize base region.end_
    let width := headCol - row.runningOffset
    some ⟨noteWidth m.columnWidths row.columnIndex width,
      m.coordinates ++ [(headLine, headCol, region.min)],
      ⟨row.previousLine, row.columnIndex + 1, row.runningOffset + width⟩⟩

/-- `scan` over the widths. -/
def scanWidths : ℕ → List ℕ → List ℕ
  | _, [] => []
  | sum, width :: columnWidths => (sum + width) :: scanWidths (sum + width) columnWidths

def columnPositions (columnWidths : List ℕ) : List ℕ := scanWidths 0 columnWidths

/-- The loop over the coordinates. -/
structure Inserting where
  builder : DeltaBuilder Char
  row : RowCursor

/-- `none` is a panic of the builder. -/
def insertSpaces (builder : DeltaBuilder Char) (insertPos currentInserts : ℕ) :
    Option (DeltaBuilder Char) :=
  if currentInserts > 0 then
    builder.replace insertPos insertPos (List.replicate currentInserts ' ')
  else some builder

def Inserting.coordinate (positions : List ℕ) (i : Inserting) (coordinate : ℕ × ℕ × ℕ) :
    Option Inserting := do
  let (line, headCol, insertPos) := coordinate
  let row := i.row.enter line
  let position ← positions[row.columnIndex]?
  let currentInserts := position - (headCol + row.runningOffset)
  let builder ← insertSpaces i.builder insertPos currentInserts
  some ⟨builder, ⟨row.previousLine, row.columnIndex + 1, row.runningOffset + currentInserts⟩⟩

/-- `none` is a panic. -/
def alignSelections (base : List Char) (regions : List SelRegion) : Option (Delta Char) :=
  if regions.length < 2 then some (identityDelta base)
  else
    match regions.foldlM (Measuring.region charWidth tabSize base) ⟨[], [], .new⟩ with
    | none => some (identityDelta base)
    | some m =>
      (m.coordinates.foldlM (Inserting.coordinate (columnPositions m.columnWidths))
        ⟨.new base.length, .new⟩).map fun i ↦ i.builder.build

end

/-! ## What aligning is for -/

section

variable (charWidth : CharWidth) (tabSize : ℕ)

/-- The line and the column of a head. -/
def headCell (base : List Char) (region : SelRegion) : ℕ × ℕ :=
  (lineOfOffset base region.end_, displayColForOffset charWidth tabSize base region.end_)

/-- Sorted regions of a text, each on one line. -/
structure OnLines (base : List Char) (regions : List SelRegion) : Prop where
  sorted : (Selection.mk regions).Sorted
  le : ∀ r ∈ regions, r.max ≤ base.length
  single : ∀ r ∈ regions, lineOfOffset base r.start = lineOfOffset base r.end_

/-- In a text where so many characters have been put before the regions, the heads of the regions
that have equally many regions before them on their lines are at the same column. -/
def HeadsAligned (base : List Char) (regions : List SelRegion) (text : List Char)
    (inserted : List ℕ) : Prop :=
  ∀ pre r post pre' r' post', regions = pre ++ r :: post → regions = pre' ++ r' :: post' →
    pre.countP (lineOfOffset base ·.end_ = lineOfOffset base r.end_) =
      pre'.countP (lineOfOffset base ·.end_ = lineOfOffset base r'.end_) →
    displayColForOffset charWidth tabSize text
        (r.end_ + (inserted.take (pre.length + 1)).sum) =
      displayColForOffset charWidth tabSize text
        (r'.end_ + (inserted.take (pre'.length + 1)).sum)

/-- The text with spaces before the regions. -/
def withSpaces (base : List Char) (regions : List SelRegion) (inserted : List ℕ) : List Char :=
  padded base ' ' 0 ((regions.map SelRegion.min).zip inserted) base.length

/-- How far the text goes along with a region: up to the next region of the line. -/
def reach (base : List Char) (region : SelRegion) : List SelRegion → ℕ
  | [] => region.end_
  | next :: _ =>
    if lineOfOffset base next.end_ = lineOfOffset base region.end_ then next.min else region.end_

/-- Where a tab goes along with a region, the head of the region is some tab stops away from the end
of its column. -/
def TabsStay (base : List Char) (regions : List SelRegion) : Prop :=
  ∀ widths, Widths widths (regions.map (headCell charWidth tabSize base)) →
    ∀ pre r post, regions = pre ++ r :: post →
      '\t' ∈ (base.drop r.min).take (reach base r post - r.min) →
      max tabSize 1 ∣ lack widths ((pre ++ [r]).map (headCell charWidth tabSize base))
        (lineOfOffset base r.end_)

end

/-! ## Columns at the end of a text -/

section

variable {charWidth : CharWidth} {tabSize : ℕ} {base s t : List Char} {offset a b : ℕ}

variable (charWidth tabSize) in
/-- The column that a text ends at. -/
def endCol (text : List Char) : ℕ :=
  displayColForStr charWidth tabSize (text.rtakeWhile (· ≠ '\n'))

theorem offsetOfLine_count_append (s t : List Char) :
    offsetOfLine (s ++ t) (s.count '\n') + (s.rtakeWhile (· ≠ '\n')).length = s.length := by
  induction s using lines_induction '\n' with
  | last line hline =>
    rw [List.count_eq_zero.mpr hline, rtakeWhile_line hline]
    cases line ++ t <;> exact Nat.zero_add _
  | cons line rest hline ih =>
    rw [List.count_append, List.count_eq_zero.mpr hline, List.count_cons_self, Nat.zero_add,
      List.append_assoc, List.cons_append, offsetOfLine_append_line hline, rtakeWhile_append_line,
      List.length_append, List.length_cons]
    omega

theorem displayColForOffset_eq (h : offset ≤ base.length) :
    displayColForOffset charWidth tabSize base offset =
      endCol charWidth tabSize (base.take offset) := by
  have hcount := offsetOfLine_count_append (base.take offset) (base.drop offset)
  rw [List.take_append_drop, List.length_take_of_le h] at hcount
  have hsuffix := List.suffix_iff_eq_drop.mp
    (List.rtakeWhile_suffix (fun c ↦ decide (c ≠ '\n')) (base.take offset))
  rw [List.length_take_of_le h] at hsuffix
  rw [displayColForOffset, lineOfOffset, endCol, hsuffix, ← List.drop_take]
  congr 2
  omega

theorem endCol_append (h : '\n' ∉ t) (s : List Char) : endCol charWidth tabSize (s ++ t) =
    displayColFrom charWidth (max tabSize 1) t (endCol charWidth tabSize s) := by
  have hall : ∀ c ∈ t.reverse, decide (c ≠ '\n') = true := by
    intro c hc
    rw [decide_eq_true_eq]
    rintro rfl
    exact h (List.mem_reverse.mp hc)
  rw [endCol, List.rtakeWhile, List.reverse_append, List.takeWhile_append_of_pos hall,
    List.reverse_append, List.reverse_reverse, displayColForStr, displayColFrom_append, endCol,
    displayColForStr, List.rtakeWhile]

/-- Behind a newline it does not matter what is before it. -/
theorem endCol_append_newline (h : '\n' ∈ t) (s : List Char) :
    endCol charWidth tabSize (s ++ t) = endCol charWidth tabSize t := by
  obtain ⟨t, rest, rfl⟩ := List.append_of_mem h
  rw [endCol, ← List.append_assoc, rtakeWhile_append_line, endCol, rtakeWhile_append_line]

theorem take_eq_append (hle : a ≤ b) :
    base.take b = base.take a ++ (base.drop a).take (b - a) := by
  have happend := take_drop_append (l := base) (Nat.zero_le a) hle
  simpa using happend.symm

theorem lineOfOffset_eq (hle : a ≤ b) :
    lineOfOffset base b = lineOfOffset base a + ((base.drop a).take (b - a)).count '\n' := by
  rw [lineOfOffset, take_eq_append hle, List.count_append, lineOfOffset]

/-- Two offsets are on one line when there is no newline between them. -/
theorem newline_notMem_iff (hle : a ≤ b) : '\n' ∉ (base.drop a).take (b - a) ↔
    lineOfOffset base b = lineOfOffset base a := by
  rw [lineOfOffset_eq hle, ← List.count_eq_zero]
  omega

end

/-! ## The two loops -/

section

variable {charWidth : CharWidth} {tabSize : ℕ} {base : List Char} {regions : List SelRegion}
  {pre : List (ℕ × ℕ)} {c : ℕ × ℕ} {f : List (ℕ × ℕ) → ℕ → ℕ} {widths : List ℕ} {k : ℕ}

/-- The cursor behind some heads. -/
def rowAfter (f : List (ℕ × ℕ) → ℕ → ℕ) (pre : List (ℕ × ℕ)) : RowCursor :=
  match pre.getLast? with
  | none => .new
  | some d => ⟨some d.1, column pre d.1, f pre d.1⟩

theorem rowAfter_concat (f : List (ℕ × ℕ) → ℕ → ℕ) (pre : List (ℕ × ℕ)) (c : ℕ × ℕ) :
    rowAfter f (pre ++ [c]) = ⟨some c.1, column pre c.1 + 1, f (pre ++ [c]) c.1⟩ := by
  rw [rowAfter, List.getLast?_concat]
  dsimp only
  rw [column_concat, if_pos rfl]

/-- The heads of a line follow each other. -/
theorem column_eq_zero {d : ℕ × ℕ} (hlines : (pre ++ [d] ++ [c]).Pairwise (·.1 ≤ ·.1))
    (hne : d.1 ≠ c.1) : column (pre ++ [d]) c.1 = 0 := by
  obtain ⟨hpre, -, hlast⟩ := List.pairwise_append.mp hlines
  have hd := hlast d (by simp) c (List.mem_singleton_self c)
  rw [column, List.countP_eq_zero]
  intro e he
  rw [decide_eq_true_eq]
  have hed : e.1 ≤ d.1 := by
    rcases List.mem_append.mp he with he | he
    · exact (List.pairwise_append.mp hpre).2.2 e he d (List.mem_singleton_self d)
    · rw [List.mem_singleton.mp he]
  omega

variable (f) in
theorem enter_rowAfter (hlines : (pre ++ [c]).Pairwise (·.1 ≤ ·.1))
    (hzero : column pre c.1 = 0 → f pre c.1 = 0) :
    (rowAfter f pre).enter c.1 = ⟨some c.1, column pre c.1, f pre c.1⟩ := by
  rcases List.eq_nil_or_concat' pre with rfl | ⟨init, d, rfl⟩
  · rw [hzero rfl]
    rfl
  · rw [rowAfter, List.getLast?_concat, RowCursor.enter]
    dsimp only
    split_ifs with hne
    · rw [ne_eq, Option.some.injEq] at hne
      have hnone := column_eq_zero hlines hne
      rw [hnone, hzero hnone]
    · rw [ne_eq, Option.some.injEq, not_not] at hne
      rw [hne]

theorem getElem?_scanWidths {w : ℕ} (hw : widths[k]? = some w) (sum : ℕ) :
    (scanWidths sum widths)[k]? = some (sum + (widths.take (k + 1)).sum) := by
  induction widths generalizing sum k with
  | nil => cases hw
  | cons width widths ih =>
    rw [scanWidths]
    cases k with
    | zero => simp
    | succ k =>
      rw [List.getElem?_cons_succ, ih (by simpa using hw) (sum + width), List.take_succ_cons,
        List.sum_cons, Nat.add_assoc]

variable (charWidth tabSize base) in
def coordinate (region : SelRegion) : ℕ × ℕ × ℕ :=
  (lineOfOffset base region.end_, displayColForOffset charWidth tabSize base region.end_,
    region.min)

theorem foldlM_region
    (hsingle : ∀ r ∈ regions, lineOfOffset base r.start = lineOfOffset base r.end_)
    (hlines : (regions.map (headCell charWidth tabSize base)).Pairwise (·.1 ≤ ·.1))
    (hrises : Rises (regions.map (headCell charWidth tabSize base))) :
    ∃ widths, Widths widths (regions.map (headCell charWidth tabSize base)) ∧
      regions.foldlM (Measuring.region charWidth tabSize base) ⟨[], [], .new⟩ =
        some ⟨widths, regions.map (coordinate charWidth tabSize base),
          rowAfter lastCol (regions.map (headCell charWidth tabSize base))⟩ := by
  induction regions using List.reverseRecOn with
  | nil => exact ⟨[], widths_nil, rfl⟩
  | append_singleton regions r ih =>
    rw [List.map_append, List.map_singleton] at hlines hrises ⊢
    rw [List.forall_mem_append, List.forall_mem_singleton] at hsingle
    obtain ⟨widths, hwidths, hrun⟩ := ih hsingle.1 (List.pairwise_append.mp hlines).1
      fun pre c hpre ↦ hrises pre c (hpre.trans (List.prefix_append _ _))
    have hrise := hrises _ _ List.prefix_rfl
    have henter := enter_rowAfter lastCol hlines lastCol_of_column
    refine ⟨_, hwidths.concat (headCell charWidth tabSize base r), ?_⟩
    rw [List.foldlM_append, hrun, Option.bind_eq_bind, Option.bind_some, List.foldlM_cons,
      Measuring.region, if_neg (not_not_intro hsingle.2.symm), Option.bind_eq_bind,
      Option.bind_some, List.foldlM_nil, rowAfter_concat, List.map_append, List.map_singleton,
      lastCol_concat, if_pos rfl]
    dsimp only [headCell] at henter hrise ⊢
    rw [henter]
    dsimp only
    rw [Nat.add_sub_cancel' hrise]
    rfl

/-- The builder behind some regions, with so many spaces put before them. -/
structure Padded (base : List Char) (regions : List SelRegion) (inserted : List ℕ)
    (builder : DeltaBuilder Char) : Prop where
  holds : ∃ content, builder.Holds base content ∧
    ∀ pos, (∀ r ∈ regions, r.min ≤ pos) → pos ≤ base.length → builder.lastOffset ≤ pos ∧
      padded base ' ' 0 ((regions.map SelRegion.min).zip inserted) pos =
        content ++ (base.drop builder.lastOffset).take (pos - builder.lastOffset)
  new : (∀ n ∈ inserted, n = 0) → builder = .new base.length

theorem padded_new (base : List Char) : Padded base [] [] (.new base.length) where
  holds := ⟨[], DeltaBuilder.holds_new base, fun pos _ _ ↦ ⟨Nat.zero_le pos, rfl⟩⟩
  new := fun _ ↦ rfl

theorem Padded.insertSpaces {inserted : List ℕ} {builder : DeltaBuilder Char} {r : SelRegion}
    {n : ℕ} (h : Padded base regions inserted builder) (hlength : inserted.length = regions.length)
    (hmin : ∀ s ∈ regions, s.min ≤ r.min) (hr : r.min ≤ base.length) :
    ∃ builder', EditOps.insertSpaces builder r.min n = some builder' ∧
      Padded base (regions ++ [r]) (inserted ++ [n]) builder' := by
  obtain ⟨content, hholds, hpadded⟩ := h.holds
  obtain ⟨hlast, hcontent⟩ := hpadded r.min hmin hr
  have happend (pos : ℕ) : padded base ' ' 0
      (((regions ++ [r]).map SelRegion.min).zip (inserted ++ [n])) pos =
        content ++ ((base.drop builder.lastOffset).take (r.min - builder.lastOffset) ++
          List.replicate n ' ') ++ (base.drop r.min).take (pos - r.min) := by
    rw [List.map_append, List.zip_append (by rw [List.length_map, hlength])]
    exact (padded_append _ _ _ _ [] _ _ _).trans (by simp [hcontent, padded])
  rw [EditOps.insertSpaces]
  split_ifs with hpos
  · obtain ⟨builder', hreplace, hlast', hholds'⟩ :=
      hholds.replace hlast (Nat.le_refl r.min) hr (List.replicate n ' ')
    refine ⟨builder', hreplace, ⟨_, hholds', fun pos hall _ ↦ ?_⟩, fun hzero ↦ ?_⟩
    · rw [hlast', happend]
      exact ⟨hall r (by simp), rfl⟩
    · exact absurd (hzero n (by simp)) hpos.ne'
  · obtain rfl : n = 0 := Nat.eq_zero_of_not_pos hpos
    refine ⟨builder, rfl, ⟨content, hholds, fun pos hall _ ↦ ?_⟩, fun hzero ↦ h.new ?_⟩
    · have hle := hall r (by simp)
      rw [happend, List.replicate_zero, List.append_nil, List.append_assoc,
        take_drop_append hlast hle]
      exact ⟨hlast.trans hle, rfl⟩
    · exact fun n hn ↦ hzero n (List.mem_append_left _ hn)

theorem Padded.build {inserted : List ℕ} {builder : DeltaBuilder Char}
    (h : Padded base regions inserted builder) (hmin : ∀ r ∈ regions, r.min ≤ base.length) :
    builder.build.apply base = some (withSpaces base regions inserted) := by
  obtain ⟨content, hholds, hpadded⟩ := h.holds
  obtain ⟨-, hcontent⟩ := hpadded base.length hmin (Nat.le_refl _)
  rw [hholds.build, withSpaces, hcontent, List.take_of_length_le]
  rw [List.length_drop]

theorem room_concat_eq (widths : List ℕ) (pre : List (ℕ × ℕ)) (c : ℕ × ℕ) :
    room widths (pre ++ [c]) c.1 = (widths.take (column pre c.1 + 1)).sum := by
  rw [room, column_concat, if_pos rfl]

/-- Each region is moved to the end of its column. -/
theorem coordinate_eq {cells : List (ℕ × ℕ)} (hwidths : Widths widths cells) {r : SelRegion}
    (hcells : pre ++ [headCell charWidth tabSize base r] <+: cells)
    (hlines : cells.Pairwise (·.1 ≤ ·.1)) (builder : DeltaBuilder Char) :
    Inserting.coordinate (columnPositions widths) ⟨builder, rowAfter (lack widths) pre⟩
      (coordinate charWidth tabSize base r) =
        (insertSpaces builder r.min (filling widths pre (headCell charWidth tabSize base r))).map
          fun builder ↦ ⟨builder,
            rowAfter (lack widths) (pre ++ [headCell charWidth tabSize base r])⟩ := by
  obtain ⟨w, hw, -⟩ := hwidths.le _ _ hcells
  have henter := enter_rowAfter (lack widths) (hlines.sublist hcells.sublist) lack_of_column
  have hposition := getElem?_scanWidths hw 0
  rw [Nat.zero_add, ← room_concat_eq] at hposition
  rw [rowAfter_concat, ← hwidths.lack_add_filling hcells, filling, Inserting.coordinate, coordinate]
  dsimp only [headCell] at henter hposition ⊢
  rw [henter]
  dsimp only
  rw [columnPositions, hposition, Option.map_eq_bind]
  rfl

theorem foldlM_coordinate {cells : List (ℕ × ℕ)} (hwidths : Widths widths cells)
    (hcells : regions.map (headCell charWidth tabSize base) <+: cells)
    (hlines : cells.Pairwise (·.1 ≤ ·.1)) (hmin : regions.Pairwise (·.min ≤ ·.min))
    (hle : ∀ r ∈ regions, r.min ≤ base.length) :
    ∃ builder, Padded base regions
        (fillings widths [] (regions.map (headCell charWidth tabSize base))) builder ∧
      (regions.map (coordinate charWidth tabSize base)).foldlM
        (Inserting.coordinate (columnPositions widths)) ⟨.new base.length, .new⟩ =
          some ⟨builder, rowAfter (lack widths)
            (regions.map (headCell charWidth tabSize base))⟩ := by
  induction regions using List.reverseRecOn with
  | nil => exact ⟨_, padded_new base, rfl⟩
  | append_singleton regions r ih =>
    rw [List.map_append, List.map_singleton] at hcells ⊢
    rw [List.forall_mem_append, List.forall_mem_singleton] at hle
    obtain ⟨hmins, -, hlast⟩ := List.pairwise_append.mp hmin
    obtain ⟨builder, hpadded, hrun⟩ := ih ((List.prefix_append _ _).trans hcells) hmins hle.1
    have hlength : (fillings widths [] (regions.map (headCell charWidth tabSize base))).length =
        regions.length := by rw [length_fillings, List.length_map]
    obtain ⟨builder', hinsert, hpadded'⟩ := hpadded.insertSpaces hlength
      (fun s hs ↦ hlast s hs r (List.mem_singleton_self r)) hle.2
    rw [← fillings_concat] at hpadded'
    refine ⟨builder', hpadded', ?_⟩
    rw [List.map_append, List.foldlM_append, hrun, Option.bind_eq_bind, Option.bind_some,
      List.map_singleton, List.foldlM_cons, coordinate_eq hwidths hcells hlines, hinsert]
    rfl

end

/-! ## Regions on lines -/

namespace OnLines

variable {charWidth : CharWidth} {tabSize : ℕ} {base : List Char}
  {regions pre post : List SelRegion} {q r : SelRegion} {widths : List ℕ} {e : ℕ}

theorem pairwise (h : OnLines base regions) : regions.Pairwise (·.max ≤ ·.min) :=
  (Selection.sorted_iff.mp h.sorted).imp And.left

theorem pairwise_min (h : OnLines base regions) : regions.Pairwise (·.min ≤ ·.min) :=
  h.pairwise.imp fun {r _} hle ↦ r.min_le_max.trans hle

theorem min_le_end (r : SelRegion) : r.min ≤ r.end_ := Nat.min_le_right _ _

theorem end_le_max (r : SelRegion) : r.end_ ≤ r.max := Nat.le_max_right _ _

theorem pairwise_end (h : OnLines base regions) : regions.Pairwise (·.end_ ≤ ·.min) :=
  h.pairwise.imp fun {r _} hle ↦ (end_le_max r).trans hle

theorem line_min (h : OnLines base regions) (hr : r ∈ regions) :
    lineOfOffset base r.min = lineOfOffset base r.end_ := by
  rcases Nat.le_total r.start r.end_ with hle | hle
  · rw [SelRegion.min, Nat.min_eq_left hle, h.single r hr]
  · rw [SelRegion.min, Nat.min_eq_right hle]

variable (charWidth tabSize) in
theorem pairwise_line (h : OnLines base regions) :
    (regions.map (headCell charWidth tabSize base)).Pairwise (·.1 ≤ ·.1) := by
  rw [List.pairwise_map]
  exact h.pairwise_end.imp fun {_ s} hle ↦ lineOfOffset_mono (hle.trans (min_le_end s))

theorem end_le (h : OnLines base regions) (hr : r ∈ regions) : r.end_ ≤ base.length :=
  (end_le_max r).trans (h.le r hr)

/-- The cells of the first regions. -/
theorem exists_of_isPrefix {pre : List (ℕ × ℕ)} {c : ℕ × ℕ}
    (h : pre ++ [c] <+: regions.map (headCell charWidth tabSize base)) :
    ∃ pre' r post, regions = pre' ++ r :: post ∧
      pre = pre'.map (headCell charWidth tabSize base) ∧ c = headCell charWidth tabSize base r := by
  obtain ⟨first, ⟨post, rfl⟩, heq⟩ := List.prefix_map_iff.mp h
  obtain ⟨pre', last, rfl, hpre, hlast⟩ := List.map_eq_append_iff.mp heq.symm
  obtain ⟨r, rfl, rfl⟩ := List.map_eq_singleton_iff.mp hlast
  exact ⟨pre', r, post, by rw [List.append_assoc, List.singleton_append], hpre.symm, rfl⟩

theorem rises (h : OnLines base regions) :
    Rises (regions.map (headCell charWidth tabSize base)) := by
  intro pre c hpre
  obtain ⟨pre', r, post, rfl, rfl, rfl⟩ := exists_of_isPrefix hpre
  obtain ⟨-, hzero⟩ | ⟨p, d, hp, hline, -, hd⟩ := exists_last
    (pre'.map (headCell charWidth tabSize base)) (headCell charWidth tabSize base r).1
  · exact hzero ▸ Nat.zero_le _
  · obtain ⟨before, q, after, rfl, rfl, rfl⟩ := exists_of_isPrefix hp
    have hmem : q ∈ before ++ q :: after ++ r :: post := by simp
    have hle : q.end_ ≤ r.end_ :=
      ((List.pairwise_append.mp h.pairwise_end).2.2 q (by simp) r List.mem_cons_self).trans
        (min_le_end r)
    rw [hd, headCell, headCell, displayColForOffset_eq (h.end_le hmem),
      displayColForOffset_eq (h.end_le (List.mem_append_right _ List.mem_cons_self)),
      take_eq_append hle, endCol_append ((newline_notMem_iff hle).mpr hline.symm)]
    exact le_displayColFrom _ _

theorem placed (hmin : regions.Pairwise (·.min ≤ ·.min)) {p pos : ℕ} (hp : p ≤ pos)
    (hle : ∀ r ∈ regions, p ≤ r.min ∧ r.min ≤ pos) (inserted : List ℕ) :
    Placed p ((regions.map SelRegion.min).zip inserted) pos := by
  induction regions generalizing p inserted with
  | nil => exact hp
  | cons r regions ih =>
    obtain ⟨hr, hrest⟩ := List.forall_mem_cons.mp hle
    obtain ⟨hfirst, hmins⟩ := List.pairwise_cons.mp hmin
    cases inserted with
    | nil => exact hp
    | cons n inserted =>
      exact ⟨hr.1, ih hmins hr.2 (fun s hs ↦ ⟨hfirst s hs, (hrest s hs).2⟩) inserted⟩

/-! ### Columns behind the spaces -/

/-- What the code puts before the first regions. -/
def places (charWidth : CharWidth) (tabSize : ℕ) (base : List Char) (widths : List ℕ)
    (regions : List SelRegion) : List (ℕ × ℕ) :=
  (regions.map SelRegion.min).zip
    (fillings widths [] (regions.map (headCell charWidth tabSize base)))

theorem places_append (pre post : List SelRegion) :
    places charWidth tabSize base widths (pre ++ post) =
      places charWidth tabSize base widths pre ++ (post.map SelRegion.min).zip
        (fillings widths (pre.map (headCell charWidth tabSize base))
          (post.map (headCell charWidth tabSize base))) := by
  rw [places, List.map_append, List.map_append, fillings_append, List.nil_append,
    List.zip_append]
  · rfl
  · rw [length_fillings, List.length_map, List.length_map]

theorem places_concat (pre : List SelRegion) (r : SelRegion) :
    places charWidth tabSize base widths (pre ++ [r]) = places charWidth tabSize base widths pre ++
      [(r.min, filling widths (pre.map (headCell charWidth tabSize base))
        (headCell charWidth tabSize base r))] := by
  rw [places, List.map_append, List.map_append, List.map_singleton, List.map_singleton,
    fillings_concat, List.zip_append]
  · rfl
  · rw [length_fillings, List.length_map, List.length_map]

theorem isPrefix_cells (h : regions = pre ++ r :: post) :
    pre.map (headCell charWidth tabSize base) ++ [headCell charWidth tabSize base r] <+:
      regions.map (headCell charWidth tabSize base) := by
  rw [h, List.map_append, List.map_cons]
  exact List.prefix_append_right_inj _ |>.mpr (List.prefix_append [_] _)

theorem min_le_of_eq (h : OnLines base regions) (heq : regions = pre ++ r :: post) :
    ∀ s ∈ pre, s.min ≤ r.min := by
  subst heq
  exact fun s hs ↦ (List.pairwise_append.mp h.pairwise_min).2.2 s hs r List.mem_cons_self

/-- The spaces before a region come on top. -/
theorem endCol_min (hspace : charWidth ' ' = some 1)
    (hwidths : Widths widths (regions.map (headCell charWidth tabSize base)))
    (heq : regions = pre ++ r :: post)
    (hbefore : endCol charWidth tabSize
        (padded base ' ' 0 (places charWidth tabSize base widths pre) r.min) =
      endCol charWidth tabSize (base.take r.min) +
        lack widths (pre.map (headCell charWidth tabSize base)) (lineOfOffset base r.end_)) :
    endCol charWidth tabSize
        (padded base ' ' 0 (places charWidth tabSize base widths (pre ++ [r])) r.min) =
      endCol charWidth tabSize (base.take r.min) +
        lack widths ((pre ++ [r]).map (headCell charWidth tabSize base))
          (lineOfOffset base r.end_) := by
  have hlack := hwidths.lack_add_filling (isPrefix_cells heq)
  have hspaces {n : ℕ} : '\n' ∉ List.replicate n ' ' :=
    fun hmem ↦ absurd (List.eq_of_mem_replicate hmem) (by decide)
  rw [places_concat, padded_append, padded, Nat.sub_self, List.take_zero, List.append_nil,
    endCol_append hspaces, hbefore,
    displayColFrom_replicate hspace, Nat.add_assoc, List.map_append, List.map_singleton]
  exact congrArg _ hlack

/-- Along with a region, the text moves as its head does. -/
theorem endCol_extend (hline : lineOfOffset base e = lineOfOffset base r.min) (hle : r.min ≤ e)
    (hplaced : Placed 0 (places charWidth tabSize base widths (pre ++ [r])) r.min) {n : ℕ}
    (htabs : '\t' ∈ (base.drop r.min).take (e - r.min) → max tabSize 1 ∣ n)
    (hmin : endCol charWidth tabSize
        (padded base ' ' 0 (places charWidth tabSize base widths (pre ++ [r])) r.min) =
      endCol charWidth tabSize (base.take r.min) + n) :
    endCol charWidth tabSize
        (padded base ' ' 0 (places charWidth tabSize base widths (pre ++ [r])) e) =
      endCol charWidth tabSize (base.take e) + n := by
  have hnewline := (newline_notMem_iff hle).mpr hline
  rw [padded_extend hplaced hle, endCol_append hnewline, hmin, displayColFrom_add htabs,
    take_eq_append hle, endCol_append hnewline]

variable (charWidth tabSize widths) in
theorem placed_places (h : OnLines base regions) (heq : regions = pre ++ r :: post) :
    Placed 0 (places charWidth tabSize base widths (pre ++ [r])) r.min := by
  rw [places_concat, placed_append]
  refine ⟨placed ?_ (Nat.zero_le _) (fun s hs ↦ ⟨Nat.zero_le _, h.min_le_of_eq heq s hs⟩) _,
    Nat.le_refl _⟩
  subst heq
  exact (List.pairwise_append.mp h.pairwise_min).1

theorem endCol_before (h : OnLines base regions) (hspace : charWidth ' ' = some 1)
    (hwidths : Widths widths (regions.map (headCell charWidth tabSize base)))
    (htabs : TabsStay charWidth tabSize base regions) (heq : regions = pre ++ r :: post) :
    endCol charWidth tabSize
        (padded base ' ' 0 (places charWidth tabSize base widths pre) r.min) =
      endCol charWidth tabSize (base.take r.min) +
        lack widths (pre.map (headCell charWidth tabSize base)) (lineOfOffset base r.end_) := by
  induction pre using List.reverseRecOn generalizing r post with
  | nil => exact (Nat.add_zero _).symm
  | append_singleton pre q ih =>
    have heq' : regions = pre ++ q :: r :: post := by
      rw [heq, List.append_assoc, List.singleton_append]
    have hq : q ∈ regions := heq' ▸ List.mem_append_right _ List.mem_cons_self
    have hr : r ∈ regions := heq ▸ List.mem_append_right _ List.mem_cons_self
    have hle : q.min ≤ r.min := h.min_le_of_eq heq q (by simp)
    have hmin := endCol_min hspace hwidths heq' (ih heq')
    have hplaced := h.placed_places charWidth tabSize widths heq'
    rcases eq_or_ne (lineOfOffset base r.end_) (lineOfOffset base q.end_) with hline | hline
    · have hstay := htabs widths hwidths pre q (r :: post) heq'
      rw [reach, if_pos hline] at hstay
      rw [hline]
      refine endCol_extend ?_ hle hplaced hstay hmin
      rw [h.line_min hr, h.line_min hq, hline]
    · have hzero : column ((pre ++ [q]).map (headCell charWidth tabSize base))
          (lineOfOffset base r.end_) = 0 := by
        have hlines := (h.pairwise_line charWidth tabSize).sublist (isPrefix_cells heq).sublist
        rw [List.map_append, List.map_singleton] at hlines ⊢
        exact column_eq_zero hlines hline.symm
      have hnewline : '\n' ∈ (base.drop q.min).take (r.min - q.min) := by
        by_contra hnot
        have hsame := (newline_notMem_iff hle).mp hnot
        rw [h.line_min hr, h.line_min hq] at hsame
        exact hline hsame
      rw [lack_of_column hzero, Nat.add_zero, padded_extend hplaced hle,
        endCol_append_newline hnewline, take_eq_append hle, endCol_append_newline hnewline]

/-- A head ends up at the end of its column. -/
theorem endCol_end (h : OnLines base regions) (hspace : charWidth ' ' = some 1)
    (hwidths : Widths widths (regions.map (headCell charWidth tabSize base)))
    (htabs : TabsStay charWidth tabSize base regions) (heq : regions = pre ++ r :: post) :
    endCol charWidth tabSize
        (padded base ' ' 0 (places charWidth tabSize base widths (pre ++ [r])) r.end_) =
      room widths ((pre ++ [r]).map (headCell charWidth tabSize base))
        (lineOfOffset base r.end_) := by
  have hr : r ∈ regions := heq ▸ List.mem_append_right _ List.mem_cons_self
  have hmin := endCol_min hspace hwidths heq (h.endCol_before hspace hwidths htabs heq)
  have hreach : r.end_ ≤ reach base r post := by
    cases post with
    | nil => exact Nat.le_refl _
    | cons s post =>
      rw [reach]
      split_ifs
      · rw [heq] at h
        exact (List.pairwise_cons.mp (List.pairwise_append.mp h.pairwise_end).2.1).1 s
          List.mem_cons_self
      · exact Nat.le_refl _
  have hhead := endCol_extend (h.line_min hr).symm (min_le_end r)
    (h.placed_places charWidth tabSize widths heq) (fun htab ↦ htabs widths hwidths pre r post heq
      ((List.take_subset_take_left _ (by omega)) htab)) hmin
  rw [hhead, ← displayColForOffset_eq (h.end_le hr), List.map_append, List.map_singleton]
  exact hwidths.add_lack (isPrefix_cells heq)

theorem map_snd_places (regions : List SelRegion) :
    (places charWidth tabSize base widths regions).map Prod.snd =
      fillings widths [] (regions.map (headCell charWidth tabSize base)) := by
  refine List.map_snd_zip ?_
  rw [length_fillings, List.length_map, List.length_map]

theorem take_fillings (heq : regions = pre ++ r :: post) :
    (fillings widths [] (regions.map (headCell charWidth tabSize base))).take (pre.length + 1) =
      (places charWidth tabSize base widths (pre ++ [r])).map Prod.snd := by
  have hlength : (fillings widths [] ((pre ++ [r]).map (headCell charWidth tabSize base))).length =
      pre.length + 1 := by
    rw [length_fillings, List.length_map, List.length_append, List.length_singleton]
  have hsplit : regions = (pre ++ [r]) ++ post := by
    rw [heq, List.append_assoc, List.singleton_append]
  rw [hsplit, List.map_append, fillings_append, ← hlength, List.take_left, map_snd_places]

/-- The text up to a head, and so its column. -/
theorem displayColForOffset_withSpaces (h : OnLines base regions)
    (heq : regions = pre ++ r :: post) :
    displayColForOffset charWidth tabSize
        (withSpaces base regions
          (fillings widths [] (regions.map (headCell charWidth tabSize base))))
        (r.end_ + ((fillings widths [] (regions.map (headCell charWidth tabSize base))).take
          (pre.length + 1)).sum) =
      endCol charWidth tabSize
        (padded base ' ' 0 (places charWidth tabSize base widths (pre ++ [r])) r.end_) := by
  have hr : r ∈ regions := heq ▸ List.mem_append_right _ List.mem_cons_self
  have hsplit : regions = (pre ++ [r]) ++ post := by
    rw [heq, List.append_assoc, List.singleton_append]
  have hfirst := (h.placed_places charWidth tabSize widths heq).mono (min_le_end r)
  have hall := h.placed_places charWidth tabSize widths heq
  have hpost : Placed r.end_ ((post.map SelRegion.min).zip
      (fillings widths ((pre ++ [r]).map (headCell charWidth tabSize base))
        (post.map (headCell charWidth tabSize base)))) base.length := by
    have hends := h.pairwise_end
    have hmins := h.pairwise_min
    rw [heq] at hends hmins
    refine placed ((List.pairwise_append.mp hmins).2.1.tail) (h.end_le hr) (fun s hs ↦ ⟨?_, ?_⟩) _
    · exact (List.pairwise_cons.mp (List.pairwise_append.mp hends).2.1).1 s hs
    · exact s.min_le_max.trans (h.le s (heq ▸ List.mem_append_right _ (List.mem_cons_of_mem r hs)))
  have htext : withSpaces base regions
      (fillings widths [] (regions.map (headCell charWidth tabSize base))) =
        padded base ' ' 0 (places charWidth tabSize base widths (pre ++ [r]) ++
          (post.map SelRegion.min).zip
            (fillings widths ((pre ++ [r]).map (headCell charWidth tabSize base))
              (post.map (headCell charWidth tabSize base)))) base.length := by
    rw [← places_append, ← hsplit]
    rfl
  have htake := take_padded ' ' hfirst hpost (h.end_le hr)
  have hlength := length_padded ' ' hfirst (h.end_le hr)
  rw [take_fillings heq, htext, displayColForOffset_eq, htake]
  have hpref := (padded_isPrefix hfirst hpost base ' ').length_le
  omega

theorem headsAligned_of_tabsStay (h : OnLines base regions) (hspace : charWidth ' ' = some 1)
    (hwidths : Widths widths (regions.map (headCell charWidth tabSize base)))
    (htabs : TabsStay charWidth tabSize base regions) :
    HeadsAligned charWidth tabSize base regions
      (withSpaces base regions
        (fillings widths [] (regions.map (headCell charWidth tabSize base))))
      (fillings widths [] (regions.map (headCell charWidth tabSize base))) := by
  have hcolumn (pre : List SelRegion) (r : SelRegion) :
      room widths ((pre ++ [r]).map (headCell charWidth tabSize base)) (lineOfOffset base r.end_) =
        (widths.take
          (pre.countP (lineOfOffset base ·.end_ = lineOfOffset base r.end_) + 1)).sum := by
    rw [List.map_append, List.map_singleton]
    refine (room_concat_eq widths _ (headCell charWidth tabSize base r)).trans ?_
    rw [column, List.countP_map]
    rfl
  intro pre r post pre' r' post' heq heq' hcount
  rw [h.displayColForOffset_withSpaces heq, h.displayColForOffset_withSpaces heq',
    h.endCol_end hspace hwidths htabs heq, h.endCol_end hspace hwidths htabs heq', hcolumn, hcolumn,
    hcount]

/-- Nothing is inserted where the heads are aligned. -/
theorem fillings_of_headsAligned (h : OnLines base regions)
    (hwidths : Widths widths (regions.map (headCell charWidth tabSize base)))
    (haligned : HeadsAligned charWidth tabSize base regions base []) :
    ∀ n ∈ fillings widths [] (regions.map (headCell charWidth tabSize base)), n = 0 := by
  have hcells : Aligned (regions.map (headCell charWidth tabSize base)) := by
    intro pre c pre' c' hpre hpre' hcolumn
    obtain ⟨before, r, post, heq, rfl, rfl⟩ := exists_of_isPrefix hpre
    obtain ⟨before', r', post', heq', rfl, rfl⟩ := exists_of_isPrefix hpre'
    rw [column, column, List.countP_map, List.countP_map] at hcolumn
    have hsame := haligned before r post before' r' post' heq heq' hcolumn
    rwa [List.take_nil, List.take_nil, List.sum_nil, Nat.add_zero, Nat.add_zero] at hsame
  intro n hn
  obtain ⟨pre, c, hpre, rfl⟩ := exists_of_mem_fillings hn
  exact hwidths.filling_of_aligned h.rises hcells hpre

end OnLines

/-- Only spaces are inserted, and nothing when the heads are aligned. They are aligned afterwards
where each tab that goes along with a region stays between the same tab stops. -/
theorem alignSelections_aligns (charWidth : CharWidth) (hspace : charWidth ' ' = some 1)
    (tabSize : ℕ) {base : List Char} {regions : List SelRegion} (h : OnLines base regions)
    (hlength : 2 ≤ regions.length) :
    ∃ delta inserted, alignSelections charWidth tabSize base regions = some delta ∧
      inserted.length = regions.length ∧
      delta.apply base = some (withSpaces base regions inserted) ∧
      (HeadsAligned charWidth tabSize base regions base [] → delta = identityDelta base) ∧
      (TabsStay charWidth tabSize base regions → HeadsAligned charWidth tabSize base regions
        (withSpaces base regions inserted) inserted) := by
  obtain ⟨widths, hwidths, hmeasured⟩ := foldlM_region h.single
    (h.pairwise_line charWidth tabSize) h.rises
  have hmin : ∀ r ∈ regions, r.min ≤ base.length := fun r hr ↦ r.min_le_max.trans (h.le r hr)
  obtain ⟨builder, hpadded, hinserted⟩ := foldlM_coordinate hwidths List.prefix_rfl
    (h.pairwise_line charWidth tabSize) h.pairwise_min hmin
  refine ⟨builder.build, _, ?_, ?_, hpadded.build hmin, fun haligned ↦ ?_,
    h.headsAligned_of_tabsStay hspace hwidths⟩
  · rw [alignSelections, if_neg (Nat.not_lt.mpr hlength), hmeasured]
    dsimp only
    rw [hinserted]
    rfl
  · rw [length_fillings, List.length_map]
  · rw [hpadded.new (h.fillings_of_headsAligned hwidths haligned)]
    rfl

/-- A line of eight characters, and a tab. -/
def tabText : List Char := List.replicate 8 'a' ++ ['\n', '\t']

/-- A caret behind the line, and a selection of the tab. -/
def tabRegions : List SelRegion := [.new 8 8, .new 9 10]

/-- The tab goes on by one tab stop. -/
theorem tabsStay_tabText : TabsStay (fun _ ↦ some 1) 4 tabText tabRegions := by
  intro widths hwidths pre r post heq htab
  rw [tabRegions] at heq
  obtain ⟨w, hw, hle⟩ := hwidths.le [] (0, 8) ⟨[(1, 4)], by decide⟩
  obtain ⟨before, c, hpre, -, hgap⟩ := hwidths.attained 0 w hw
  have hc : c.2 ≤ 8 := (by decide : ∀ c ∈ [((0 : ℕ), 8), (1, 4)], c.2 ≤ 8) c
    (hpre.subset (by simp))
  obtain rfl : w = 8 := by
    have : 8 ≤ w := hle
    omega
  obtain _ | ⟨first, _ | ⟨second, pre⟩⟩ := pre
  · obtain ⟨rfl, rfl⟩ := List.cons.inj heq
    exact absurd htab (by decide)
  · obtain ⟨rfl, hrest⟩ := List.cons.inj heq
    obtain ⟨rfl, rfl⟩ := List.cons.inj hrest
    obtain _ | ⟨x, widths⟩ := widths
    · cases hw
    · obtain rfl := Option.some.inj hw
      exact ⟨1, rfl⟩
  · have hlength := congrArg List.length heq
    simp only [List.length_cons, List.length_append, List.length_nil] at hlength
    omega

theorem alignSelections_tab : ∃ delta inserted,
    alignSelections (fun _ ↦ some 1) 4 tabText tabRegions = some delta ∧
      inserted.length = 2 ∧
      delta.apply tabText = some (withSpaces tabText tabRegions inserted) ∧
      HeadsAligned (fun _ ↦ some 1) 4 tabText tabRegions
        (withSpaces tabText tabRegions inserted) inserted := by
  have honLines : OnLines tabText tabRegions :=
    ⟨List.isChain_pair.mpr ⟨by decide, by decide⟩, by decide, by decide⟩
  obtain ⟨delta, inserted, hdelta, hlength, happly, -, haligned⟩ :=
    alignSelections_aligns (fun _ ↦ some 1) rfl 4 honLines (by decide)
  exact ⟨delta, inserted, hdelta, hlength, happly, haligned tabsStay_tabText⟩

/-- The tab of the second line gives way to the space before it. -/
theorem tab_misaligned : ¬ ∃ delta inserted, alignSelections (fun _ ↦ some 1) 4
    ['a', 'b', 'c', 'd', 'e', '\n', 'a', '\t'] [.new 5 5, .new 6 8] = some delta ∧
      inserted.length = 2 ∧
      delta.apply ['a', 'b', 'c', 'd', 'e', '\n', 'a', '\t'] = some
        (withSpaces ['a', 'b', 'c', 'd', 'e', '\n', 'a', '\t'] [.new 5 5, .new 6 8] inserted) ∧
      HeadsAligned (fun _ ↦ some 1) 4 ['a', 'b', 'c', 'd', 'e', '\n', 'a', '\t']
        [.new 5 5, .new 6 8]
        (withSpaces ['a', 'b', 'c', 'd', 'e', '\n', 'a', '\t'] [.new 5 5, .new 6 8] inserted)
        inserted := by
  rintro ⟨delta, inserted, hdelta, hlength, happly, haligned⟩
  have hresult : (alignSelections (fun _ ↦ some 1) 4
      ['a', 'b', 'c', 'd', 'e', '\n', 'a', '\t'] [.new 5 5, .new 6 8]).bind
        (·.apply ['a', 'b', 'c', 'd', 'e', '\n', 'a', '\t']) =
          some ['a', 'b', 'c', 'd', 'e', '\n', ' ', 'a', '\t'] := rfl
  obtain ⟨m, n, rfl⟩ := List.length_eq_two.mp hlength
  rw [hdelta, Option.bind_some, happly] at hresult
  have htext := Option.some.inj hresult
  have hsum : m + n = 1 := by
    have hlengths := congrArg List.length htext
    simp [withSpaces, padded, SelRegion.new, SelRegion.min] at hlengths
    omega
  obtain ⟨rfl, rfl⟩ | ⟨rfl, rfl⟩ : m = 0 ∧ n = 1 ∨ m = 1 ∧ n = 0 := by omega
  · have hcolumns := haligned [] (.new 5 5) [.new 6 8] [.new 5 5] (.new 6 8) [] rfl rfl (by decide)
    revert hcolumns
    decide
  · revert htext
    decide

end EeEditor.EditOps
