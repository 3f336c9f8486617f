import Mathlib.Data.List.Dedup
import Mathlib.Data.List.DropRight
import Mathlib.Data.List.Sort
import EeEditor.EventContext.LineText
import EeEditor.Orchestrator.Text
import EeEditor.Rope.Builder

/-!
# Reindenting

The model of `reindent` in `xi-core-lib/src/lang_features.rs`, over the characters of a text. The
indentation levels come from the syntax tree of a parser outside the repository, so that they are a
parameter. Whatever they are, the delta is well-formed and has the length of the text that it was
computed from.
-/

namespace EeEditor.Background

open EventContext (totalLines)
open EeEditor.Orchestrator (isWhitespace)

/-- `offset_of_line`, of a line that the text has. -/
def offsetOfLine : List Char → ℕ → ℕ
  | _, 0 => 0
  | [], _ + 1 => 0
  | c :: text, line + 1 => 1 + offsetOfLine text (if c = '\n' then line else line + 1)

/-- `str::trim_end_matches`, of a character. -/
def trimEndMatches (text : List Char) (c : Char) : List Char := text.rdropWhile (· = c)

/-- Where the line ends: where the next one begins, or at the end of the text. -/
def endOfLine (text : List Char) (line : ℕ) : ℕ :=
  if line + 1 < totalLines text then offsetOfLine text (line + 1) else text.length

/-- The text of a line, without its newline. -/
def lineContent (text : List Char) (line : ℕ) : List Char :=
  if totalLines text ≤ line then []
  else
    let start := offsetOfLine text line
    let raw := (text.drop start).take (endOfLine text line - start)
    trimEndMatches (trimEndMatches raw '\n') '\r'

/-- The lines of some ranges, both ends included, in order and each once. -/
def collectLines (lineRanges : List (ℕ × ℕ)) : List ℕ :=
  ((lineRanges.flatMap fun (start, end_) ↦
    List.range' start (end_ + 1 - start)).dedup).insertionSort (· ≤ ·)

/-- What `begin_async_reindent` hands to a worker. -/
structure ReindentRequest where
  text : List Char
  lineRanges : List (ℕ × ℕ)
  languageName : String
  indentStr : List Char

/-- The levels of the lines of a text up to one of them, if its language has a parser. -/
abbrev IndentationLevels := String → List Char → ℕ → Option (List ℕ)

/-- One turn of the loop over the lines, with whether anything has changed. -/
def reindentLine (text indentStr : List Char) (levels : List ℕ) (builder : DeltaBuilder Char)
    (changed : Bool) (line : ℕ) : Option (DeltaBuilder Char × Bool) :=
  if totalLines text ≤ line then some (builder, changed)
  else
    let expectedWs := (List.replicate (levels.getD line 0) indentStr).flatten
    let existingWs := (lineContent text line).takeWhile isWhitespace
    if existingWs = expectedWs then some (builder, changed)
    else
      let lineStart := offsetOfLine text line
      (builder.replace lineStart (lineStart + existingWs.length) expectedWs).map (·, true)

def reindentLines (text indentStr : List Char) (levels : List ℕ) :
    List ℕ → DeltaBuilder Char → Bool → Option (DeltaBuilder Char × Bool)
  | [], builder, changed => some (builder, changed)
  | line :: lines, builder, changed => do
    let (builder, changed) ← reindentLine text indentStr levels builder changed line
    reindentLines text indentStr levels lines builder changed

/-- `reindent`. The outer `Option` is a panic. -/
def reindent (levels : IndentationLevels) (request : ReindentRequest) :
    Option (Option (Delta Char)) :=
  if request.text.isEmpty || request.lineRanges.isEmpty || request.indentStr.isEmpty then some none
  else
    let maxLine := min ((request.lineRanges.map (·.2)).foldl max 0) (totalLines request.text - 1)
    match levels request.languageName request.text maxLine with
    | none => some none
    | some levels => do
      let (builder, changed) ← reindentLines request.text request.indentStr levels
        (collectLines request.lineRanges) (DeltaBuilder.new request.text.length) false
      return if changed then some builder.build else none

/-! ## Lines -/

variable {text indentStr : List Char} {levels : List ℕ} {builder : DeltaBuilder Char}

theorem offsetOfLine_le (text : List Char) (line : ℕ) : offsetOfLine text line ≤ text.length := by
  induction text generalizing line with
  | nil => cases line <;> exact Nat.le_refl 0
  | cons c text ih =>
    cases line with
    | zero => exact Nat.zero_le _
    | succ line =>
      rw [offsetOfLine, List.length_cons, Nat.add_comm]
      exact Nat.succ_le_succ (ih _)

theorem offsetOfLine_le_succ (text : List Char) (line : ℕ) :
    offsetOfLine text line ≤ offsetOfLine text (line + 1) := by
  induction text generalizing line with
  | nil => cases line <;> exact Nat.le_refl 0
  | cons c text ih =>
    cases line with
    | zero => exact Nat.zero_le _
    | succ line =>
      rw [offsetOfLine, offsetOfLine]
      apply Nat.add_le_add_left
      split
      · exact ih line
      · exact ih (line + 1)

theorem offsetOfLine_mono (text : List Char) : Monotone (offsetOfLine text) :=
  monotone_nat_of_le_succ (offsetOfLine_le_succ text)

theorem endOfLine_le (text : List Char) (line : ℕ) : endOfLine text line ≤ text.length := by
  unfold endOfLine
  split
  · exact offsetOfLine_le ..
  · exact Nat.le_refl _

theorem le_endOfLine (text : List Char) (line : ℕ) :
    offsetOfLine text line ≤ endOfLine text line := by
  unfold endOfLine
  split
  · exact offsetOfLine_le_succ ..
  · exact offsetOfLine_le ..

/-- A line ends before any later one begins. -/
theorem endOfLine_le_offset {line later : ℕ} (h : line < later) (hlater : later < totalLines text) :
    endOfLine text line ≤ offsetOfLine text later := by
  rw [endOfLine, if_pos (Nat.lt_of_le_of_lt h hlater)]
  exact offsetOfLine_mono text h

theorem length_lineContent_le (text : List Char) (line : ℕ) :
    (lineContent text line).length ≤ endOfLine text line - offsetOfLine text line := by
  unfold lineContent
  split
  · exact Nat.zero_le _
  · refine ((List.rdropWhile_prefix _ _).length_le.trans
      (List.rdropWhile_prefix _ _).length_le).trans ?_
    rw [List.length_take]
    exact Nat.min_le_left ..

theorem pairwise_collectLines (lineRanges : List (ℕ × ℕ)) :
    (collectLines lineRanges).Pairwise (· < ·) := by
  have hsorted : (collectLines lineRanges).Pairwise (· ≤ ·) := List.pairwise_insertionSort ..
  have hnodup : (collectLines lineRanges).Nodup :=
    (List.perm_insertionSort ..).nodup_iff.mpr (List.nodup_dedup _)
  exact (hsorted.and hnodup).imp fun h ↦ Nat.lt_of_le_of_ne h.1 h.2

/-! ## The delta -/

/-- The lines that are left begin after what was replaced. -/
theorem reindentLines_spec (hbuilder : builder.Inv) (hlen : builder.baseLen = text.length) :
    ∀ {lines : List ℕ} {changed : Bool}, lines.Pairwise (· < ·) →
      (∀ line ∈ lines, line < totalLines text → builder.lastOffset ≤ offsetOfLine text line) →
      ∃ builder' changed', reindentLines text indentStr levels lines builder changed =
        some (builder', changed') ∧ builder'.Inv ∧ builder'.baseLen = text.length := by
  intro lines
  induction lines generalizing builder with
  | nil => exact fun _ _ ↦ ⟨builder, _, rfl, hbuilder, hlen⟩
  | cons line lines ih =>
    intro changed hsorted hafter
    obtain ⟨hfirst, hsorted⟩ := List.pairwise_cons.mp hsorted
    have hrest : ∀ changed', ∃ builder'' changed'',
        reindentLines text indentStr levels lines builder changed' = some (builder'', changed'') ∧
          builder''.Inv ∧ builder''.baseLen = text.length := fun changed' ↦
      ih hbuilder hlen hsorted fun l hl ↦ hafter l (List.mem_cons_of_mem _ hl)
    simp only [reindentLines, reindentLine]
    split
    · exact hrest changed
    · rename_i hline
      split
      · exact hrest changed
      · have hline := Nat.not_le.mp hline
        have hws : offsetOfLine text line + ((lineContent text line).takeWhile isWhitespace).length
            ≤ endOfLine text line := by
          have htake := (List.takeWhile_prefix isWhitespace (l := lineContent text line)).length_le
          have hcontent := length_lineContent_le text line
          have hle := le_endOfLine text line
          omega
        obtain ⟨builder', heq, hinv, hlast, hbase⟩ := hbuilder.replace
          (hafter line List.mem_cons_self hline) (Nat.le_add_right _ _)
          ((hws.trans (endOfLine_le text line)).trans hlen.ge)
          (List.replicate (levels.getD line 0) indentStr).flatten
        rw [heq]
        refine ih hinv (hbase.trans hlen) hsorted fun l hl hl' ↦ ?_
        rw [hlast]
        exact hws.trans (endOfLine_le_offset (hfirst l hl) hl')

/-- Reindenting does not panic, and its delta is well-formed for the text that it was given. -/
theorem reindent_spec (levels : IndentationLevels) (request : ReindentRequest) :
    ∃ result, reindent levels request = some result ∧
      ∀ delta, result = some delta →
        delta.WellFormed ∧ delta.baseLen = request.text.length := by
  unfold reindent
  split
  · exact ⟨none, rfl, nofun⟩
  dsimp only
  split
  · exact ⟨none, rfl, nofun⟩
  rename_i levels _
  obtain ⟨builder, changed, heq, hinv, hbase⟩ := reindentLines_spec
    (DeltaBuilder.inv_new request.text.length) rfl (pairwise_collectLines request.lineRanges)
    (fun _ _ _ ↦ Nat.zero_le _)
  refine ⟨if changed then some builder.build else none, ?_, fun delta hdelta ↦ ?_⟩
  · rw [heq]
    rfl
  · split at hdelta
    · cases hdelta
      obtain ⟨hwf, hlen⟩ := hinv.build
      exact ⟨hwf, hlen.trans hbase⟩
    · cases hdelta

end EeEditor.Background
