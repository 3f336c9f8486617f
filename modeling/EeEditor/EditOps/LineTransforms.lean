import Mathlib.Data.Char
import Mathlib.Data.List.Lex
import Mathlib.Data.List.Sort
import EeEditor.Background.Reindent
import EeEditor.EditOps.DisplayColumns
import EeEditor.Rope.Splices
import EeEditor.Sequence.Lines
import EeEditor.View.Selection

/-!
# Transforms of lines

`sort_lines`, `expand_tabs_in_lines` and `transform_linewise` of
`xi-core-lib/src/edit_ops/align.rs`, over the characters of a text. Lines are cut out without the
carriage returns at their ends and joined with newlines, so that a transform that changes something
is one of line contents only if no line of its range ends with a carriage return.
-/

namespace EeEditor.EditOps

open Background (offsetOfLine)
open EventContext (lineOfOffset totalLines)

/-! ## The transforms -/

def logicalLineContents (base : List Char) (line : ℕ) : ℕ × List Char :=
  let start := offsetOfLine base line
  let end_ := min (offsetOfLine base (line + 1)) base.length
  (start, ((base.drop start).take (end_ - start)).rdropWhile fun c ↦ c = '\n' || c = '\r')

def identityDelta (base : List Char) : Delta Char := (DeltaBuilder.new base.length).build

def selectedLineRange (base : List Char) (regions : List SelRegion) : Option (ℕ × ℕ) :=
  if regions.length > 1 || regions.any (!·.isCaret) then
    regions.foldl (fun lines region ↦
      let firstLine := lineOfOffset base region.min
      let lastOffset := if region.isCaret then region.max else region.max - 1
      let lastLine := lineOfOffset base lastOffset
      match lines with
      | none => some (firstLine, lastLine)
      | some (startLine, endLine) => some (min startLine firstLine, max endLine lastLine)) none
  else none

/-- A range of lines in a text. -/
def clampRange (lineRange : ℕ × ℕ) (last : ℕ) : ℕ × ℕ :=
  (min lineRange.1 last, max (min lineRange.2 last) (min lineRange.1 last))

def resolveLinewiseRange (base : List Char) (regions : List SelRegion) (lineRange : Option (ℕ × ℕ))
    (totalLines : ℕ) : Option (ℕ × ℕ) :=
  let last := totalLines - 1
  ((lineRange.map (clampRange · last)).or (selectedLineRange base regions)).or (some (0, last))

/-- The lines between two offsets are replaced. `none` is a panic of the builder. -/
def replaceLines (base : List Char) (startOffset endOffset : ℕ) (updated : List (List Char)) :
    Option (Delta Char) :=
  let originalSegment := (base.drop startOffset).take (endOffset - startOffset)
  let replacement := ['\n'].intercalate updated
  let replacement :=
    if originalSegment.getLast? = some '\n' ∨ originalSegment.getLast? = some '\r' then
      replacement ++ ['\n']
    else replacement
  ((DeltaBuilder.new base.length).replace startOffset endOffset replacement).map DeltaBuilder.build

def transformLinewise (base : List Char) (regions : List SelRegion) (lineRange : Option (ℕ × ℕ))
    (transform : List (List Char) → List (List Char)) : Option (Delta Char) :=
  if totalLines base = 0 then some (identityDelta base)
  else
    match resolveLinewiseRange base regions lineRange (totalLines base) with
    | none => some (identityDelta base)
    | some (startLine, endLine) =>
      let original := (List.range' startLine (endLine + 1 - startLine)).map fun line ↦
        (logicalLineContents base line).2
      let updated := transform original
      if original = updated then some (identityDelta base)
      else
        let startOffset := offsetOfLine base startLine
        let endOffset :=
          if endLine + 1 < totalLines base then offsetOfLine base (endLine + 1) else base.length
        replaceLines base startOffset endOffset updated

/-- The order of strings. -/
def sortContents (descending : Bool) (lines : List (List Char)) : List (List Char) :=
  if descending then lines.insertionSort (· ≥ ·) else lines.insertionSort (· ≤ ·)

def sortLines (base : List Char) (regions : List SelRegion) (descending : Bool)
    (lineRange : Option (ℕ × ℕ)) : Option (Delta Char) :=
  transformLinewise base regions lineRange (sortContents descending)

def expandContents (charWidth : CharWidth) (tabSize : ℕ) (lines : List (List Char)) :
    List (List Char) :=
  lines.map fun line ↦ if '\t' ∈ line then expandTabs charWidth tabSize line else line

def expandTabsInLines (charWidth : CharWidth) (base : List Char) (regions : List SelRegion)
    (tabSize : ℕ) (lineRange : Option (ℕ × ℕ)) : Option (Delta Char) :=
  transformLinewise base regions lineRange (expandContents charWidth tabSize)

/-! ## Lines by their offsets -/

section

variable {text base line rest : List Char} {before lines lines' after updated : List (List Char)}
  {lineRange : ℕ × ℕ} {transform : List (List Char) → List (List Char)}

theorem offsetOfLine_eq (text : List Char) (n : ℕ) :
    offsetOfLine text n = startOfLine '\n' text n := by
  induction text generalizing n with
  | nil => cases n <;> rfl
  | cons c text ih =>
    cases n with
    | zero => rfl
    | succ n => rw [offsetOfLine, startOfLine, ih]

theorem offsetOfLine_append_line (hline : '\n' ∉ line) (rest : List Char) (n : ℕ) :
    offsetOfLine (line ++ '\n' :: rest) (n + 1) = line.length + 1 + offsetOfLine rest n := by
  rw [offsetOfLine_eq, offsetOfLine_eq, startOfLine_append_line hline]

/-- The lines before a line end where it begins. -/
theorem offsetOfLine_ended (h : ∀ line ∈ before, '\n' ∉ line) (rest : List Char) (n : ℕ) :
    offsetOfLine (ended '\n' before ++ rest) (before.length + n) =
      (ended '\n' before).length + offsetOfLine rest n := by
  rw [offsetOfLine_eq, offsetOfLine_eq, startOfLine_ended h]

def trimCr (line : List Char) : List Char := line.rdropWhile (· = '\r')

theorem rdropWhile_line (hline : '\n' ∉ line) :
    line.rdropWhile (fun c ↦ c = '\n' || c = '\r') = trimCr line := by
  induction line using List.reverseRecOn with
  | nil => rfl
  | append_singleton line ch ih =>
    rw [List.mem_append, not_or, List.mem_singleton] at hline
    rw [trimCr, List.rdropWhile_concat, List.rdropWhile_concat, ih hline.1, trimCr]
    have hch : (decide (ch = '\n') || decide (ch = '\r')) = decide (ch = '\r') := by
      rw [decide_eq_false (Ne.symm hline.2), Bool.false_or]
    rw [hch]

theorem notMem_of_splitOn (h : text.splitOn '\n' = before ++ after) :
    (∀ line ∈ before, '\n' ∉ line) ∧ ∀ line ∈ after, '\n' ∉ line := by
  rw [← List.forall_mem_append, ← h]
  exact fun line hline ↦ notMem_of_mem_splitOn hline

theorem offsetOfLine_of_le {n : ℕ} (h : totalLines text ≤ n) :
    offsetOfLine text n = text.length := by
  rw [offsetOfLine_eq, startOfLine_of_le h]

/-- Where a line ends. -/
theorem min_offsetOfLine (text : List Char) (n : ℕ) : min (offsetOfLine text n) text.length =
    if n < totalLines text then offsetOfLine text n else text.length := by
  split_ifs with hlt
  · exact Nat.min_eq_left (Background.offsetOfLine_le text n)
  · rw [offsetOfLine_of_le (Nat.not_lt.mp hlt), Nat.min_self]

/-- The part of the text that the range covers. -/
theorem exists_segment (before lines after : List (List Char))
    (h : text.splitOn '\n' = before ++ (lines ++ after)) (hne : lines ≠ []) :
    ∃ segment tail, text = ended '\n' before ++ (segment ++ tail) ∧
      offsetOfLine text before.length = (ended '\n' before).length ∧
      (if before.length + lines.length < totalLines text then
        offsetOfLine text (before.length + lines.length) else text.length) =
          (ended '\n' before).length + segment.length ∧
      (after ≠ [] ∧ segment = ended '\n' lines ∧ tail.splitOn '\n' = after ∨
        after = [] ∧ segment = ['\n'].intercalate lines ∧ tail = []) := by
  have htotal : totalLines text = before.length + (lines.length + after.length) := by
    rw [totalLines, ← length_splitOn, h, List.length_append, List.length_append]
  obtain ⟨hbefore, hlines⟩ := notMem_of_splitOn h
  rw [List.forall_mem_append] at hlines
  obtain ⟨rest, rfl, hrest⟩ := eq_ended_of_splitOn h (List.append_ne_nil_of_left_ne_nil hne after)
  have hstart := offsetOfLine_ended hbefore rest 0
  rw [Nat.add_zero, offsetOfLine, Nat.add_zero] at hstart
  rw [htotal, hstart, offsetOfLine_ended hbefore rest lines.length]
  by_cases hafter : after = []
  · subst hafter
    have hjoined : ['\n'].intercalate (rest.splitOn '\n') = rest := List.intercalate_splitOn '\n'
    rw [hrest, List.append_nil] at hjoined
    refine ⟨rest, [], by rw [List.append_nil], rfl, ?_, .inr ⟨rfl, hjoined.symm, rfl⟩⟩
    rw [if_neg (by simp), List.length_append]
  · obtain ⟨tail, rfl, htail⟩ := eq_ended_of_splitOn hrest hafter
    refine ⟨ended '\n' lines, tail, rfl, rfl, ?_, .inl ⟨hafter, rfl, htail⟩⟩
    have hpos := List.length_pos_iff.mpr hafter
    have hend := offsetOfLine_ended hlines.1 tail 0
    rw [Nat.add_zero, offsetOfLine, Nat.add_zero] at hend
    rw [if_pos (by omega), hend]

/-- A line is cut out without its end and the carriage returns before that. -/
theorem logicalLineContents_eq (h : text.splitOn '\n' = before ++ line :: after) :
    (logicalLineContents text before.length).2 = trimCr line := by
  have hline := (notMem_of_splitOn h).2 line List.mem_cons_self
  obtain ⟨segment, tail, htext, hstart, hend, hsegment⟩ :=
    exists_segment before [line] after h (List.cons_ne_nil _ _)
  rw [List.length_singleton] at hend
  rw [logicalLineContents, min_offsetOfLine, hstart, hend]
  dsimp only
  rw [Nat.add_sub_cancel_left, htext, List.drop_left, List.take_left]
  obtain ⟨-, rfl, -⟩ | ⟨-, rfl, -⟩ := hsegment
  · rw [ended_cons, ended_nil, List.rdropWhile_concat_pos _ _ _ (by decide), rdropWhile_line hline]
  · rw [List.intercalate_singleton, rdropWhile_line hline]

/-- The lines of a range are cut out one by one. -/
theorem map_logicalLineContents (h : text.splitOn '\n' = before ++ (lines ++ after)) :
    (List.range' before.length lines.length).map (fun line ↦ (logicalLineContents text line).2) =
      lines.map trimCr := by
  induction lines generalizing before with
  | nil => rfl
  | cons line lines ih =>
    have hsplit : text.splitOn '\n' = (before ++ [line]) ++ (lines ++ after) := by
      rw [h, List.append_assoc]
      rfl
    have hnext := ih hsplit
    rw [List.length_append, List.length_singleton] at hnext
    rw [List.length_cons, List.range'_succ, List.map_cons, List.map_cons, hnext,
      logicalLineContents_eq h]

/-! ## What a transform makes of a text -/

/-- The range of the text that lines are numbered by. -/
structure Covers (text : List Char) (lineRange : ℕ × ℕ) (before lines after : List (List Char)) :
    Prop where
  splitOn : text.splitOn '\n' = before ++ (lines ++ after)
  ne_nil : lines ≠ []
  range : clampRange lineRange (totalLines text - 1) =
    (before.length, before.length + lines.length - 1)

theorem exists_covers (text : List Char) (lineRange : ℕ × ℕ) :
    ∃ before lines after, Covers text lineRange before lines after := by
  have hlength := length_splitOn '\n' text
  obtain ⟨start, end_, hrange, hle, hlt⟩ : ∃ start end_,
    clampRange lineRange (totalLines text - 1) =
      (start, end_) ∧ start ≤ end_ ∧ end_ < (text.splitOn '\n').length := by
    refine ⟨_, _, rfl, le_max_right _ _, ?_⟩
    rw [hlength, totalLines]
    omega
  refine ⟨(text.splitOn '\n').take start, ((text.splitOn '\n').drop start).take (end_ + 1 - start),
    (text.splitOn '\n').drop (end_ + 1), ?_, ?_, ?_⟩
  · have hdrop : (text.splitOn '\n').drop (end_ + 1) =
        ((text.splitOn '\n').drop start).drop (end_ + 1 - start) := by
      rw [List.drop_drop]
      congr 1
      omega
    rw [hdrop, List.take_append_drop, List.take_append_drop]
  · rw [← List.length_pos_iff, List.length_take, List.length_drop]
    omega
  · rw [hrange, List.length_take, List.length_take, List.length_drop, Prod.mk.injEq]
    omega

theorem identityDelta_apply (text : List Char) : (identityDelta text).apply text = some text :=
  (DeltaBuilder.holds_new text).build

theorem replaceLines_apply (start segment tail : List Char) (updated : List (List Char)) :
    (replaceLines (start ++ (segment ++ tail)) start.length (start.length + segment.length)
      updated).bind (·.apply (start ++ (segment ++ tail)))
        = some (start ++ (['\n'].intercalate updated
        ++ ((if segment.getLast? = some '\n' ∨ segment.getLast? = some '\r' then ['\n'] else [])
          ++ tail))) := by
  have hcut : ((start ++ (segment ++ tail)).drop start.length).take
      (start.length + segment.length - start.length) = segment := by
    rw [List.drop_left, Nat.add_sub_cancel_left, List.take_left]
  have hend : start.length + segment.length ≤ (start ++ (segment ++ tail)).length := by
    rw [List.length_append, List.length_append]
    omega
  have hdrop : (start ++ (segment ++ tail)).drop (start.length + segment.length) = tail := by
    rw [← List.append_assoc, ← List.length_append, List.drop_left]
  have hpush (replacement : List Char) (p : Prop) [Decidable p] :
      (if p then replacement ++ ['\n'] else replacement) =
        replacement ++ if p then ['\n'] else [] := by
    split_ifs
    · rfl
    · rw [List.append_nil]
  obtain ⟨builder, hreplace, hlast, hholds⟩ := (DeltaBuilder.holds_new
    (start ++ (segment ++ tail))).replace (Nat.zero_le start.length) (Nat.le_add_right _ _) hend
    (['\n'].intercalate updated ++
      if segment.getLast? = some '\n' ∨ segment.getLast? = some '\r' then ['\n'] else [])
  rw [replaceLines, hcut, hpush, hreplace, Option.map_some, Option.bind_some, hholds.build, hlast,
    hdrop,
    DeltaBuilder.new, List.drop_zero, Nat.sub_zero, List.take_left]
  simp only [List.nil_append, List.append_assoc]

/-- The transform adds a line: the range ends at the last line, which is empty behind another line
of the range, or ends with a carriage return. -/
def Reopens (lines after : List (List Char)) : Prop :=
  after = [] ∧ (1 < lines.length ∧ lines.getLast? = some [] ∨
    lines.getLast?.bind List.getLast? = some '\r')

instance (lines after : List (List Char)) : Decidable (Reopens lines after) :=
  inferInstanceAs (Decidable (_ ∧ _))

/-- When a newline is pushed behind the replacement. -/
theorem getLast?_segment {segment : List Char} (hne : lines ≠ [])
    (hlines : ∀ line ∈ lines, '\n' ∉ line)
    (hsegment : after ≠ [] ∧ segment = ended '\n' lines ∨
      after = [] ∧ segment = ['\n'].intercalate lines) :
    segment.getLast? = some '\n' ∨ segment.getLast? = some '\r' ↔
      after ≠ [] ∨ Reopens lines after := by
  obtain ⟨init, last, rfl⟩ := List.eq_nil_or_concat' lines |>.resolve_left hne
  rw [Reopens, List.length_append, List.length_singleton, List.getLast?_concat, Option.bind_some,
    Option.some.injEq]
  have hended (lines : List (List Char)) (line : List Char) :
      (ended '\n' (lines ++ [line])).getLast? = some '\n' := by
    rw [ended_append, ended_cons, ended_nil, ← List.append_assoc, List.getLast?_concat]
  obtain ⟨hafter, rfl⟩ | ⟨rfl, rfl⟩ := hsegment
  · exact iff_of_true (.inl (hended init last)) (.inl hafter)
  · rw [intercalate_concat, List.getLast?_append, and_iff_right rfl,
      or_iff_right (not_not_intro rfl)]
    cases hlast : last.getLast? with
    | some ch =>
      have hch : ch ≠ '\n' := by
        rintro rfl
        exact hlines last (List.mem_append_right init (List.mem_singleton_self last))
          (List.mem_of_getLast? hlast)
      have hne : last ≠ [] := by
        rintro rfl
        cases hlast
      simp [hch, hne]
    | none =>
      rw [List.getLast?_eq_none_iff] at hlast
      rw [Option.none_or]
      rcases List.eq_nil_or_concat' init with rfl | ⟨lines, line, rfl⟩
      · simp [ended]
      · rw [hended]
        simp [hlast]

theorem Covers.transformLinewise_eq (h : Covers text lineRange before lines after)
    (regions : List SelRegion) (hupdated : transform (lines.map trimCr) = updated) :
    transformLinewise text regions (some lineRange) transform =
      if lines.map trimCr = updated then some (identityDelta text)
      else replaceLines text (offsetOfLine text before.length)
        (if before.length + lines.length < totalLines text then
          offsetOfLine text (before.length + lines.length) else text.length) updated := by
  have hpos := List.length_pos_iff.mpr h.ne_nil
  have hresolve : resolveLinewiseRange text regions (some lineRange) (totalLines text) =
      some (before.length, before.length + lines.length - 1) := congrArg some h.range
  have hlast : before.length + lines.length - 1 + 1 = before.length + lines.length := by omega
  have htotal : totalLines text ≠ 0 := Nat.succ_ne_zero _
  rw [transformLinewise, if_neg htotal, hresolve]
  dsimp only
  rw [hlast, Nat.add_sub_cancel_left, map_logicalLineContents h.splitOn, hupdated]

/-- The text after a transform, by its lines. -/
theorem Covers.transformLinewise_apply (h : Covers text lineRange before lines after)
    (regions : List SelRegion) (hupdated : transform (lines.map trimCr) = updated)
    (hclean : ∀ line ∈ updated, '\n' ∉ line) (hlength : updated.length = lines.length) :
    ∃ out, (transformLinewise text regions (some lineRange) transform).bind (·.apply text)
    = some out ∧
      (lines.map trimCr = updated → out = text) ∧
      (lines.map trimCr ≠ updated → out.splitOn '\n' =
        before ++ (updated ++ if Reopens lines after then [[]] else after)) := by
  rw [h.transformLinewise_eq regions hupdated]
  by_cases heq : lines.map trimCr = updated
  · rw [if_pos heq]
    exact ⟨text, identityDelta_apply text, fun _ ↦ rfl, fun hne ↦ absurd heq hne⟩
  obtain ⟨segment, tail, htext, hstart, hend, hsegment⟩ :=
    exists_segment before lines after h.splitOn h.ne_nil
  obtain ⟨hbefore, hlines⟩ := notMem_of_splitOn h.splitOn
  rw [List.forall_mem_append] at hlines
  have hnewline := getLast?_segment h.ne_nil hlines.1
    (hsegment.imp (fun h ↦ ⟨h.1, h.2.1⟩) (fun h ↦ ⟨h.1, h.2.1⟩))
  have hrun := replaceLines_apply (ended '\n' before) segment tail updated
  rw [← htext] at hrun
  rw [if_neg heq, hstart, hend]
  refine ⟨_, hrun, fun h ↦ absurd h heq, fun _ ↦ ?_⟩
  have hne : updated ≠ [] := by
    rw [← List.length_pos_iff, hlength]
    exact List.length_pos_iff.mpr h.ne_nil
  obtain ⟨init, last, rfl⟩ := List.eq_nil_or_concat' updated |>.resolve_left hne
  have hended : ended '\n' init ++ last ++ ['\n'] = ended '\n' (init ++ [last]) := by
    rw [ended_append, ended_cons, ended_nil, List.append_assoc]
  rw [splitOn_ended hbefore, intercalate_concat]
  congr 1
  by_cases hpush : after ≠ [] ∨ Reopens lines after
  · rw [if_pos (hnewline.mpr hpush), ← List.append_assoc, hended, splitOn_ended hclean]
    obtain ⟨hafter, -, htail⟩ | ⟨rfl, -, rfl⟩ := hsegment
    · rw [htail, if_neg fun hreopens ↦ hafter hreopens.1]
    · rw [if_pos (hpush.resolve_left (not_not_intro rfl))]
      rfl
  · rw [if_neg fun h ↦ hpush (hnewline.mp h)]
    rw [not_or, not_not] at hpush
    rw [if_neg hpush.2]
    obtain ⟨hafter, -⟩ | ⟨rfl, -, rfl⟩ := hsegment
    · exact absurd hpush.1 hafter
    · rw [List.forall_mem_append, List.forall_mem_singleton] at hclean
      rw [List.append_nil, List.append_nil, splitOn_ended hclean.1,
        List.splitOn_eq_singleton hclean.2, List.append_nil]

/-! ## Contents and terminators -/

inductive Terminator where
  | lf
  | crlf
  | none
deriving DecidableEq

/-- A line that is not the last one, without its terminator. -/
def endLine (line : List Char) : List Char × Terminator :=
  if line.getLast? = some '\r' then (line.dropLast, .crlf) else (line, .lf)

def terminated : List (List Char) → List (List Char × Terminator)
  | [] => []
  | [last] => [(last, .none)]
  | line :: next :: lines => endLine line :: terminated (next :: lines)

def contentsOf (text : List Char) : List (List Char) :=
  (terminated (text.splitOn '\n')).map Prod.fst

def terminatorsOf (text : List Char) : List Terminator :=
  (terminated (text.splitOn '\n')).map Prod.snd

/-- The lines from one number to another. -/
def linesWithin {β : Type} (range : ℕ × ℕ) (l : List β) : List β :=
  (l.drop range.1).take (range.2 + 1 - range.1)

/-- Only the contents of the lines in the range change. -/
structure OnlyTransforms (effect : List (List Char) → List (List Char) → Prop) (range : ℕ × ℕ)
    (text out : List Char) : Prop where
  length : (contentsOf out).length = (contentsOf text).length
  terminators : terminatorsOf out = terminatorsOf text
  before : (contentsOf out).take range.1 = (contentsOf text).take range.1
  after : (contentsOf out).drop (range.2 + 1) = (contentsOf text).drop (range.2 + 1)
  inside : effect (linesWithin range (contentsOf text)) (linesWithin range (contentsOf out))

/-- Only the contents of the lines in the range change, and nothing when it is done again. -/
def TransformsLines (run : List Char → Option (List Char))
    (effect : List (List Char) → List (List Char) → Prop) (text : List Char) (lineRange : ℕ × ℕ) :
    Prop :=
  ∃ out, run text = some out ∧
    OnlyTransforms effect (clampRange lineRange (totalLines text - 1)) text out ∧ run out = some out

theorem terminated_append (lines : List (List Char)) (hne : lines' ≠ []) :
    terminated (lines ++ lines') = lines.map endLine ++ terminated lines' := by
  induction lines with
  | nil => rfl
  | cons line lines ih =>
    obtain ⟨next, rest, hrest⟩ := List.exists_cons_of_ne_nil
      (List.append_ne_nil_of_right_ne_nil lines hne)
    rw [List.cons_append, hrest, terminated, ← hrest, ih, List.map_cons, List.cons_append]

/-- The lines of a range with their terminators. -/
def terminatedIn (lines after : List (List Char)) : List (List Char × Terminator) :=
  if after = [] then terminated lines else lines.map endLine

theorem terminated_range (before after : List (List Char)) (hne : lines ≠ []) :
    terminated (before ++ (lines ++ after)) =
      before.map endLine ++ (terminatedIn lines after ++ terminated after) := by
  rw [terminated_append before (List.append_ne_nil_of_left_ne_nil hne after), terminatedIn]
  split_ifs with hafter
  · rw [hafter, List.append_nil, terminated, List.append_nil]
  · rw [terminated_append lines hafter]

theorem terminated_concat (lines : List (List Char)) (line : List Char) :
    terminated (lines ++ [line]) = lines.map endLine ++ [(line, .none)] :=
  terminated_append lines (List.cons_ne_nil _ _)

theorem length_terminatedIn (lines after : List (List Char)) :
    (terminatedIn lines after).length = lines.length := by
  rw [terminatedIn]
  split_ifs
  · rcases List.eq_nil_or_concat' lines with rfl | ⟨init, last, rfl⟩
    · rfl
    · rw [terminated_concat, List.length_append, List.length_map, List.length_append,
        List.length_singleton, List.length_singleton]
  · exact List.length_map _

theorem length_terminated (lines : List (List Char)) : (terminated lines).length = lines.length :=
  length_terminatedIn lines []

/-! ## Lines without carriage returns -/

/-- A line that is its own content. -/
def EndsClean (line : List Char) : Prop := line.getLast? ≠ some '\r'

theorem endLine_of_endsClean (h : EndsClean line) : endLine line = (line, .lf) := if_neg h

theorem endsClean_of_endLine (h : (endLine line).2 = .lf) : EndsClean line := by
  intro hlast
  rw [endLine, if_pos hlast] at h
  cases h

theorem endsClean_trimCr (line : List Char) : EndsClean (trimCr line) := by
  intro hlast
  have hne : trimCr line ≠ [] := fun hnil ↦ by
    rw [hnil] at hlast
    cases hlast
  have hnot := List.rdropWhile_last_not _ line hne
  rw [List.getLast?_eq_some_getLast hne, Option.some.injEq] at hlast
  exact hnot (decide_eq_true hlast)

theorem trimCr_of_endsClean (h : EndsClean line) : trimCr line = line := by
  rw [trimCr, List.rdropWhile_eq_self_iff]
  intro hne hlast
  rw [decide_eq_true_eq] at hlast
  exact h (by rw [List.getLast?_eq_some_getLast hne, hlast])

theorem map_fst_endLine (h : ∀ line ∈ lines, EndsClean line) :
    (lines.map endLine).map Prod.fst = lines := by
  rw [List.map_map]
  refine (List.map_congr_left fun line hline ↦ ?_).trans (List.map_id lines)
  exact congrArg Prod.fst (endLine_of_endsClean (h line hline))

theorem map_snd_endLine (h : ∀ line ∈ lines, EndsClean line) :
    (lines.map endLine).map Prod.snd = List.replicate lines.length .lf := by
  rw [List.map_map, List.eq_replicate_iff, List.length_map]
  refine ⟨rfl, fun terminator hmem ↦ ?_⟩
  obtain ⟨line, hline, rfl⟩ := List.mem_map.mp hmem
  exact congrArg Prod.snd (endLine_of_endsClean (h line hline))

/-- The contents of clean lines are the lines. -/
theorem map_fst_terminatedIn (h : ∀ line ∈ lines, EndsClean line) (after : List (List Char)) :
    (terminatedIn lines after).map Prod.fst = lines := by
  rw [terminatedIn]
  split_ifs
  · rcases List.eq_nil_or_concat' lines with rfl | ⟨init, last, rfl⟩
    · rfl
    · rw [List.forall_mem_append] at h
      rw [terminated_concat, List.map_append, map_fst_endLine h.1]
      rfl
  · exact map_fst_endLine h

/-- Clean lines have the terminators of other clean lines. -/
theorem map_snd_terminatedIn (h : ∀ line ∈ lines, EndsClean line)
    (h' : ∀ line ∈ lines', EndsClean line) (hlength : lines'.length = lines.length)
    (after : List (List Char)) :
    (terminatedIn lines' after).map Prod.snd = (terminatedIn lines after).map Prod.snd := by
  rw [terminatedIn, terminatedIn]
  split_ifs
  · rcases List.eq_nil_or_concat' lines with rfl | ⟨init, last, rfl⟩
    · rw [List.length_eq_zero_iff.mp hlength]
    · rcases List.eq_nil_or_concat' lines' with rfl | ⟨init', last', rfl⟩
      · simp at hlength
      · rw [List.forall_mem_append] at h h'
        rw [List.length_append, List.length_append, List.length_singleton, List.length_singleton,
          Nat.add_right_cancel_iff] at hlength
        rw [terminated_concat, terminated_concat, List.map_append, List.map_append,
          map_snd_endLine h.1, map_snd_endLine h'.1, hlength]
        rfl
  · rw [map_snd_endLine h, map_snd_endLine h', hlength]

theorem endsClean_of_map_snd (h : ∀ line ∈ lines', EndsClean line)
    (heq : (lines'.map endLine).map Prod.snd = (lines.map endLine).map Prod.snd) :
    ∀ line ∈ lines, EndsClean line := by
  intro line hline
  have hmem : (endLine line).2 ∈ (lines.map endLine).map Prod.snd :=
    List.mem_map_of_mem (List.mem_map_of_mem hline)
  rw [← heq, map_snd_endLine h] at hmem
  exact endsClean_of_endLine (List.eq_of_mem_replicate hmem)

/-- Lines with the terminators of clean ones are clean, except for the last line of a text. -/
theorem endsClean_of_terminatedIn (h : ∀ line ∈ lines', EndsClean line)
    (hlength : lines'.length = lines.length)
    (heq : (terminatedIn lines' after).map Prod.snd = (terminatedIn lines after).map Prod.snd)
    (hlast : after = [] → lines.getLast?.bind List.getLast? ≠ some '\r') :
    ∀ line ∈ lines, EndsClean line := by
  rw [terminatedIn, terminatedIn] at heq
  split_ifs at heq with hafter
  · rcases List.eq_nil_or_concat' lines with rfl | ⟨init, last, rfl⟩
    · exact List.forall_mem_nil _
    · rcases List.eq_nil_or_concat' lines' with rfl | ⟨init', last', rfl⟩
      · simp at hlength
      · rw [List.forall_mem_append] at h
        rw [terminated_concat, terminated_concat, List.map_append, List.map_append] at heq
        have hlast := hlast hafter
        rw [List.getLast?_concat, Option.bind_some] at hlast
        rw [List.forall_mem_append, List.forall_mem_singleton]
        exact ⟨endsClean_of_map_snd h.1 (List.append_inj_left' heq rfl), hlast⟩
  · exact endsClean_of_map_snd h heq

/-! ## Transforms of line contents -/

/-- A transform of the contents of lines, which is done when it is done once. -/
structure IsTransform (transform : List (List Char) → List (List Char)) : Prop where
  length : ∀ lines, (transform lines).length = lines.length
  idem : ∀ lines, transform (transform lines) = transform lines
  newline : ∀ lines, (∀ line ∈ lines, '\n' ∉ line) → ∀ line ∈ transform lines, '\n' ∉ line
  endsClean : ∀ lines, (∀ line ∈ lines, EndsClean line) → ∀ line ∈ transform lines, EndsClean line
  empty : transform [[]] = [[]]

/-- If the transform leaves the lines without the carriage returns at their ends as they are, it
leaves their contents as they are; and if not, no line of the range ends with a carriage return, and
the range does not reach an empty last line. -/
def KeepsLines (transform : List (List Char) → List (List Char)) (text : List Char)
    (lineRange : ℕ × ℕ) : Prop :=
  let range := clampRange lineRange (totalLines text - 1)
  let lines := linesWithin range (text.splitOn '\n')
  if lines.map trimCr = transform (lines.map trimCr) then
    transform (linesWithin range (contentsOf text)) = linesWithin range (contentsOf text)
  else
    (∀ line ∈ lines, EndsClean line) ∧
      (range.2 + 1 = totalLines text → (text.splitOn '\n').getLast? ≠ some [])

theorem linesWithin_range {β : Type} (before lines after : List β) (hne : lines ≠ []) :
    linesWithin (before.length, before.length + lines.length - 1) (before ++ (lines ++ after)) =
      lines := by
  have hpos := List.length_pos_iff.mpr hne
  have hlast : before.length + lines.length - 1 + 1 = before.length + lines.length := by omega
  rw [linesWithin, hlast, List.drop_left, Nat.add_sub_cancel_left, List.take_left]

theorem Covers.contentsOf_eq (h : Covers text lineRange before lines after) :
    contentsOf text = (before.map endLine).map Prod.fst ++
      ((terminatedIn lines after).map Prod.fst ++ (terminated after).map Prod.fst) := by
  rw [contentsOf, h.splitOn, terminated_range before after h.ne_nil, List.map_append,
    List.map_append]

theorem Covers.terminatorsOf_eq (h : Covers text lineRange before lines after) :
    terminatorsOf text = (before.map endLine).map Prod.snd ++
      ((terminatedIn lines after).map Prod.snd ++ (terminated after).map Prod.snd) := by
  rw [terminatorsOf, h.splitOn, terminated_range before after h.ne_nil, List.map_append,
    List.map_append]

theorem Covers.linesWithin_contentsOf (h : Covers text lineRange before lines after) :
    linesWithin (clampRange lineRange (totalLines text - 1)) (contentsOf text) =
      (terminatedIn lines after).map Prod.fst := by
  have hne : (terminatedIn lines after).map Prod.fst ≠ [] := by
    rw [← List.length_pos_iff, List.length_map, length_terminatedIn]
    exact List.length_pos_iff.mpr h.ne_nil
  have hwithin := linesWithin_range ((before.map endLine).map Prod.fst)
    ((terminatedIn lines after).map Prod.fst) ((terminated after).map Prod.fst) hne
  rw [List.length_map, List.length_map, List.length_map, length_terminatedIn] at hwithin
  rw [h.range, h.contentsOf_eq, hwithin]

/-- As many other lines in the place of the range. -/
theorem Covers.of_splitOn (h : Covers text lineRange before lines after) {out : List Char}
    (hlength : updated.length = lines.length)
    (hout : out.splitOn '\n' = before ++ (updated ++ after)) :
    Covers out lineRange before updated after := by
  have htotal : totalLines out = totalLines text := by
    rw [totalLines, totalLines, ← length_splitOn, ← length_splitOn, hout, h.splitOn]
    simp only [List.length_append, hlength]
  refine ⟨hout, ?_, ?_⟩
  · rw [← List.length_pos_iff, hlength]
    exact List.length_pos_iff.mpr h.ne_nil
  · rw [htotal, h.range, hlength]

theorem Covers.totalLines_eq (h : Covers text lineRange before lines after) :
    totalLines text = before.length + lines.length + after.length := by
  rw [totalLines, ← length_splitOn, h.splitOn, List.length_append, List.length_append,
    Nat.add_assoc]

theorem Covers.eq_nil_of_last (h : Covers text lineRange before lines after)
    (hend : (clampRange lineRange (totalLines text - 1)).2 + 1 = totalLines text) : after = [] := by
  have hpos := List.length_pos_iff.mpr h.ne_nil
  rw [h.range, h.totalLines_eq] at hend
  rw [← List.length_eq_zero_iff]
  dsimp only at hend
  omega

theorem drop_append_append {β : Type} (a b c : List β) :
    (a ++ (b ++ c)).drop (a.length + b.length) = c := by
  rw [← List.append_assoc, ← List.length_append, List.drop_left]

/-- Clean lines in the place of clean lines. -/
theorem Covers.onlyTransforms (h : Covers text lineRange before lines after) {out : List Char}
    (hout : Covers out lineRange before updated after)
    (hclean : ∀ line ∈ lines, EndsClean line) (hclean' : ∀ line ∈ updated, EndsClean line)
    (hlength : updated.length = lines.length) {effect : List (List Char) → List (List Char) → Prop}
    (heffect : effect lines updated) :
    OnlyTransforms effect (clampRange lineRange (totalLines text - 1)) text out := by
  have hpos := List.length_pos_iff.mpr h.ne_nil
  have hlast : before.length + lines.length - 1 + 1 = before.length + lines.length := by omega
  have htotal : totalLines out = totalLines text := by
    rw [h.totalLines_eq, hout.totalLines_eq, hlength]
  have hwithin := hout.linesWithin_contentsOf
  rw [htotal, map_fst_terminatedIn hclean'] at hwithin
  have hcontents := h.contentsOf_eq
  rw [map_fst_terminatedIn hclean] at hcontents
  have hcontents' := hout.contentsOf_eq
  rw [map_fst_terminatedIn hclean'] at hcontents'
  have hbefore : before.length = ((before.map endLine).map Prod.fst).length := by
    rw [List.length_map, List.length_map]
  constructor
  · rw [hcontents, hcontents', List.length_append, List.length_append, List.length_append,
      List.length_append, hlength]
  · rw [h.terminatorsOf_eq, hout.terminatorsOf_eq, map_snd_terminatedIn hclean hclean' hlength]
  · rw [h.range, hcontents, hcontents', hbefore, List.take_left, List.take_left]
  · have hdrop := drop_append_append ((before.map endLine).map Prod.fst) lines
      ((terminated after).map Prod.fst)
    have hdrop' := drop_append_append ((before.map endLine).map Prod.fst) updated
      ((terminated after).map Prod.fst)
    rw [← hbefore, ← hcontents] at hdrop
    rw [← hbefore, ← hcontents', hlength] at hdrop'
    rw [h.range, hlast, hdrop, hdrop']
  · rw [hwithin, h.linesWithin_contentsOf, map_fst_terminatedIn hclean]
    exact heffect

/-- A transform is one of line contents just if it keeps lines. -/
theorem transformsLines_iff (htransform : IsTransform transform)
    (effect : List (List Char) → List (List Char) → Prop)
    (heffect : ∀ contents result, effect contents result ↔ result = transform contents)
    (regions : List SelRegion) (text : List Char) (lineRange : ℕ × ℕ) :
    TransformsLines (fun text ↦
      (transformLinewise text regions (some lineRange) transform).bind (·.apply text))
      effect text lineRange ↔ KeepsLines transform text lineRange := by
  obtain ⟨before, lines, after, h⟩ := exists_covers text lineRange
  have hpos := List.length_pos_iff.mpr h.ne_nil
  have hlines := (List.forall_mem_append.mp (notMem_of_splitOn h.splitOn).2).1
  have hupdated : ∀ line ∈ transform (lines.map trimCr), '\n' ∉ line := by
    refine htransform.newline _ fun line hline ↦ ?_
    obtain ⟨l, hl, rfl⟩ := List.mem_map.mp hline
    exact fun hmem ↦ hlines l hl ((List.rdropWhile_prefix _ l).subset hmem)
  have hclean : ∀ line ∈ transform (lines.map trimCr), EndsClean line := by
    refine htransform.endsClean _ fun line hline ↦ ?_
    obtain ⟨l, -, rfl⟩ := List.mem_map.mp hline
    exact endsClean_trimCr l
  have hlength : (transform (lines.map trimCr)).length = lines.length := by
    rw [htransform.length, List.length_map]
  have hwithin : linesWithin (clampRange lineRange (totalLines text - 1)) (text.splitOn '\n') =
      lines := by
    rw [h.range, h.splitOn, linesWithin_range _ _ _ h.ne_nil]
  obtain ⟨out, hrun, hsame, hchange⟩ :=
    h.transformLinewise_apply regions rfl hupdated hlength
  rw [KeepsLines, hwithin]
  by_cases heq : lines.map trimCr = transform (lines.map trimCr)
  · obtain rfl := hsame heq
    rw [if_pos heq]
    constructor
    · rintro ⟨out', hrun', honly, -⟩
      obtain rfl := Option.some.inj (hrun.symm.trans hrun')
      exact ((heffect _ _).mp honly.inside).symm
    · intro hkept
      exact ⟨out, hrun, ⟨rfl, rfl, rfl, rfl, (heffect _ _).mpr hkept.symm⟩, hrun⟩
  · rw [if_neg heq]
    have hout := hchange heq
    constructor
    · rintro ⟨out', hrun', honly, -⟩
      obtain rfl := Option.some.inj (hrun.symm.trans hrun')
      have hreopens : ¬Reopens lines after := by
        intro hreopens
        have hcount := honly.length
        rw [contentsOf, contentsOf, List.length_map, List.length_map, length_terminated,
          length_terminated, hout, h.splitOn, if_pos hreopens, hreopens.1] at hcount
        simp only [List.length_append, hlength, List.length_singleton, List.length_nil] at hcount
        omega
      rw [if_neg hreopens] at hout
      have hcovers := h.of_splitOn hlength hout
      have hterminators := honly.terminators
      rw [h.terminatorsOf_eq, hcovers.terminatorsOf_eq] at hterminators
      have hinner := List.append_cancel_right (List.append_cancel_left hterminators)
      refine ⟨endsClean_of_terminatedIn hclean hlength hinner fun hafter hlast ↦
        hreopens ⟨hafter, .inr hlast⟩, fun hend hempty ↦ ?_⟩
      have hafter := h.eq_nil_of_last hend
      rw [h.splitOn, hafter, List.append_nil, List.getLast?_append_of_ne_nil _ h.ne_nil] at hempty
      have hone : lines.length = 1 := by
        by_contra hne
        exact hreopens ⟨hafter, .inl ⟨by omega, hempty⟩⟩
      obtain ⟨line, rfl⟩ := List.length_eq_one_iff.mp hone
      obtain rfl := Option.some.inj hempty
      exact heq htransform.empty.symm
    · rintro ⟨hlinesClean, hlast⟩
      have hreopens : ¬Reopens lines after := by
        rintro ⟨rfl, ⟨-, hempty⟩ | hcr⟩
        · refine hlast ?_ ?_
          · rw [h.range, h.totalLines_eq, List.length_nil]
            dsimp only
            omega
          · rw [h.splitOn, List.append_nil, List.getLast?_append_of_ne_nil _ h.ne_nil, hempty]
        · obtain ⟨last, hmem, hcr⟩ := Option.bind_eq_some_iff.mp hcr
          exact hlinesClean last (List.mem_of_getLast? hmem) hcr
      have htrim (lines : List (List Char)) (hlines : ∀ line ∈ lines, EndsClean line) :
          lines.map trimCr = lines :=
        (List.map_congr_left fun line hline ↦ trimCr_of_endsClean (hlines line hline)).trans
          (List.map_id lines)
      rw [if_neg hreopens] at hout
      rw [htrim lines hlinesClean] at hout hclean hlength hupdated
      have hcovers := h.of_splitOn hlength hout
      have hagain : transform ((transform lines).map trimCr) = transform lines := by
        rw [htrim _ hclean, htransform.idem]
      obtain ⟨out', hrun', hsame', -⟩ := hcovers.transformLinewise_apply regions hagain hupdated rfl
      obtain rfl := hsame' (htrim _ hclean)
      exact ⟨out', hrun, h.onlyTransforms hcovers hlinesClean hclean hlength
        ((heffect _ _).mpr rfl),
        hrun'⟩

end

/-! ## Sorting lines and expanding tabs -/

inductive LinewiseEdit where
  | sortLines (descending : Bool)
  | expandTabsInLines (tabSize : ℕ)

namespace LinewiseEdit

variable (charWidth : CharWidth)

def delta (self : LinewiseEdit) (base : List Char) (regions : List SelRegion)
    (lineRange : Option (ℕ × ℕ)) : Option (Delta Char) :=
  match self with
  | sortLines descending => EditOps.sortLines base regions descending lineRange
  | expandTabsInLines tabSize =>
    EditOps.expandTabsInLines charWidth base regions tabSize lineRange

def transform : LinewiseEdit → List (List Char) → List (List Char)
  | sortLines descending => sortContents descending
  | expandTabsInLines tabSize => expandContents charWidth tabSize

/-- What the edit is to make of line contents. -/
def Effect : LinewiseEdit → List (List Char) → List (List Char) → Prop
  | sortLines false => fun contents result ↦ result.Perm contents ∧ result.Pairwise (· ≤ ·)
  | sortLines true => fun contents result ↦ result.Perm contents ∧ result.Pairwise (· ≥ ·)
  | expandTabsInLines tabSize => List.Forall₂ (Expands charWidth (max tabSize 1) 0)

variable {charWidth}

/-- What is sorted is the permutation that is in order. -/
theorem insertionSort_iff {β : Type} (r : β → β → Prop) [DecidableRel r] [Std.Total r] [IsTrans β r]
    [Std.Antisymm r] (contents result : List β) :
    result.Perm contents ∧ result.Pairwise r ↔ result = contents.insertionSort r := by
  constructor
  · rintro ⟨hperm, hsorted⟩
    exact (hperm.trans (List.perm_insertionSort r contents).symm).eq_of_pairwise' hsorted
      (List.pairwise_insertionSort r contents)
  · rintro rfl
    exact ⟨List.perm_insertionSort r contents, List.pairwise_insertionSort r contents⟩

theorem expandContents_eq (tabSize : ℕ) (lines : List (List Char)) :
    expandContents charWidth tabSize lines = lines.map (expandTabs charWidth tabSize) := by
  refine List.map_congr_left fun line _ ↦ ?_
  split_ifs with htab
  · rfl
  · exact (expandTabsFrom_of_notMem htab 0).symm

theorem forall₂_expands (tabSize : ℕ) (contents result : List (List Char)) :
    List.Forall₂ (Expands charWidth (max tabSize 1) 0) contents result ↔
      result = contents.map (expandTabs charWidth tabSize) := by
  induction contents generalizing result with
  | nil => exact List.forall₂_nil_left_iff
  | cons line contents ih =>
    rw [List.forall₂_cons_left_iff, List.map_cons]
    constructor
    · rintro ⟨expanded, rest, hline, hrest, rfl⟩
      rw [(expands_iff (Nat.le_max_right tabSize 1)).mp hline, (ih rest).mp hrest]
      rfl
    · rintro rfl
      exact ⟨_, _, (expands_iff (Nat.le_max_right tabSize 1)).mpr rfl, (ih _).mpr rfl, rfl⟩

theorem effect_iff (self : LinewiseEdit) (contents result : List (List Char)) :
    self.Effect charWidth contents result ↔ result = self.transform charWidth contents := by
  cases self with
  | sortLines descending =>
    cases descending with
    | false => exact insertionSort_iff _ contents result
    | true => exact insertionSort_iff _ contents result
  | expandTabsInLines tabSize =>
    rw [transform, expandContents_eq]
    exact forall₂_expands tabSize contents result

theorem isTransform_insertionSort (r : List Char → List Char → Prop) [DecidableRel r] [Std.Total r]
    [IsTrans (List Char) r] : IsTransform (List.insertionSort r) where
  length lines := List.length_insertionSort r lines
  idem lines := (List.pairwise_insertionSort r lines).insertionSort_eq
  newline _ h line hline := h line ((List.mem_insertionSort r).mp hline)
  endsClean _ h line hline := h line ((List.mem_insertionSort r).mp hline)
  empty := rfl

theorem isTransform (self : LinewiseEdit) : IsTransform (self.transform charWidth) := by
  cases self with
  | sortLines descending =>
    cases descending with
    | false => exact isTransform_insertionSort (· ≤ ·)
    | true => exact isTransform_insertionSort (· ≥ ·)
  | expandTabsInLines tabSize =>
    have hmap : (expandTabsInLines tabSize).transform charWidth =
        List.map (expandTabs charWidth tabSize) := funext (expandContents_eq tabSize)
    rw [hmap]
    refine ⟨fun lines ↦ List.length_map _, fun lines ↦ ?_, fun lines h ↦ ?_, fun lines h ↦ ?_, rfl⟩
    · rw [List.map_map]
      exact List.map_congr_left fun line _ ↦
        expandTabsFrom_of_notMem (tab_notMem_expandTabs charWidth tabSize line) 0
    · refine List.forall_mem_map.mpr fun line hline hmem ↦ ?_
      rcases mem_expandTabsFrom hmem with h' | ⟨h', -⟩
      · exact absurd h' (by decide)
      · exact h line hline h'
    · refine List.forall_mem_map.mpr fun line hline hlast ↦ ?_
      rcases getLast?_expandTabsFrom (Nat.le_max_right tabSize 1) hlast with h' | h'
      · exact absurd h' (by decide)
      · exact h line hline h'

/-- Sorting lines and expanding tabs change only line contents just if they keep lines. -/
theorem edit_transformsLines_iff (charWidth : CharWidth) (edit : LinewiseEdit)
    (regions : List SelRegion) (text : List Char) (lineRange : ℕ × ℕ) :
    TransformsLines
      (fun text ↦ (edit.delta charWidth text regions (some lineRange)).bind (·.apply text))
      (edit.Effect charWidth) text lineRange ↔
        KeepsLines (edit.transform charWidth) text lineRange := by
  have hiff := transformsLines_iff edit.isTransform (edit.Effect charWidth) edit.effect_iff regions
    text lineRange
  cases edit with
  | sortLines descending => exact hiff
  | expandTabsInLines tabSize => exact hiff

/-- Sorted lines lose their carriage returns. -/
theorem sorted_crlf_lost : ¬ ∀ (charWidth : CharWidth) (edit : LinewiseEdit)
    (regions : List SelRegion) (text : List Char) (lineRange : ℕ × ℕ), TransformsLines
      (fun text ↦ (edit.delta charWidth text regions (some lineRange)).bind (·.apply text))
      (edit.Effect charWidth) text lineRange := by
  intro h
  obtain ⟨out, hrun, honly, -⟩ := h (fun _ ↦ some 1) (sortLines false) []
    ['b', '\r', '\n', 'a', '\r', '\n'] (0, 1)
  have hout : out = ['a', '\n', 'b', '\n'] := Option.some.inj (hrun.symm.trans (by decide))
  have hterminators := honly.terminators
  rw [hout] at hterminators
  exact absurd hterminators (by decide +kernel)

end LinewiseEdit

end EeEditor.EditOps
