import EeEditor.EditOps.Alignment
import EeEditor.Rope.LineEdits
import EeEditor.View.SelectionRuns

/-!
# Line comments

`do_toggle_line_comment` and `selected_line_ranges` of `xi-core-lib/src/event_context/editing.rs`,
and `toggle_comment` of `lang_features.rs`, over the characters of a text. The ranges of lines end
behind their last line, but are read as if they ended with it, so that the line after the selected
ones is toggled too.
-/

namespace EeEditor.EditOps

open Background (collectLines lineContent offsetOfLine)
open EventContext (lineOfOffset lineOfOffset_mono totalLines)
open Orchestrator (isWhitespace)

/-! ## The code -/

/-- The token of a `LineCommentStyle`. -/
structure CommentToken where
  text : List Char
  ne_nil : text ≠ []
  visible : ∀ c ∈ text, isWhitespace c = false

/-- `line_comment_token`, a table of languages. -/
abbrev LineCommentTokens := String → Option CommentToken

/-- The loop of `selected_line_ranges`. -/
structure LineRanges where
  prevRange : Option (ℕ × ℕ)
  lineRanges : List (ℕ × ℕ)

def LineRanges.region (text : List Char) (self : LineRanges) (region : SelRegion) : LineRanges :=
  let start := lineOfOffset text region.min
  let end_ := lineOfOffset text region.max + 1
  match self.prevRange with
  | none => { self with prevRange := some (start, end_) }
  | some prev =>
    if start ≤ prev.2 then { self with prevRange := some (min prev.1 start, max prev.2 end_) }
    else ⟨some (start, end_), self.lineRanges ++ [prev]⟩

def selectedLineRanges (text : List Char) (regions : List SelRegion) : List (ℕ × ℕ) :=
  let result := regions.foldl (LineRanges.region text) ⟨none, []⟩
  result.lineRanges ++ result.prevRange.toList

def isBlankOrCommented (token content : List Char) : Bool :=
  let trimmed := content.dropWhile isWhitespace
  trimmed.isEmpty || token.isPrefixOf trimmed

/-- One turn of the loop of `toggle_comment`. `none` is a panic of the builder. -/
def toggleLine (token text : List Char) (allCommented : Bool) (state : DeltaBuilder Char × Bool)
    (line : ℕ) : Option (DeltaBuilder Char × Bool) :=
  let (builder, changed) := state
  let content := lineContent text line
  let trimmed := content.dropWhile isWhitespace
  if trimmed.isEmpty then some (builder, changed)
  else
    let lineStart := offsetOfLine text line
    let wsLen := content.length - trimmed.length
    if allCommented then
      let wsEnd := lineStart + wsLen
      let afterToken := ((token ++ [' ']).isPrefixOf? trimmed).getD
        ((token.isPrefixOf? trimmed).getD trimmed)
      let removeEnd := wsEnd + (trimmed.length - afterToken.length)
      if wsEnd < removeEnd then (builder.delete wsEnd removeEnd).map (·, true)
      else some (builder, changed)
    else
      let insertOffset := lineStart + wsLen
      if token.isPrefixOf trimmed then some (builder, changed)
      else (builder.replace insertOffset insertOffset (token ++ [' '])).map (·, true)

/-- `toggle_comment`. The outer `Option` is a panic. -/
def toggleComment (lineCommentToken : LineCommentTokens) (text : List Char)
    (lineRanges : List (ℕ × ℕ)) (languageName : String) : Option (Option (Delta Char)) :=
  match lineCommentToken languageName with
  | none => some none
  | some token =>
    let lines := collectLines lineRanges
    if lines.isEmpty then some none
    else
      let allCommented := lines.all fun line ↦
        isBlankOrCommented token.text (lineContent text line)
      (lines.foldlM (toggleLine token.text text allCommented) (.new text.length, false)).map
        fun (builder, changed) ↦ if changed then some builder.build else none

/-- The delta of `do_toggle_line_comment`, in a document that line comments are available for. -/
def doToggleLineComment (lineCommentToken : LineCommentTokens) (languageName : String)
    (text : List Char) (selection : Selection) : Option (Option (Delta Char)) :=
  toggleComment lineCommentToken text (selectedLineRanges text selection.regions) languageName

/-- The text and the selection after a delta. `none` is a delta that does not fit. -/
def afterEdit (text : List Char) (selection : Selection) :
    Option (Delta Char) → Option (List Char × Selection)
  | none => some (text, selection)
  | some delta => do
    let text ← delta.apply text
    let selection ← selection.applyDelta delta true .default
    return (text, selection)

def toggled (lineCommentToken : LineCommentTokens) (languageName : String) (text : List Char)
    (selection : Selection) : Option (List Char × Selection) := do
  let delta ← doToggleLineComment lineCommentToken languageName text selection
  afterEdit text selection delta

/-! ## What toggling is for -/

/-- The line has a point of some region. -/
def OnSelection (text : List Char) (selection : Selection) (n : ℕ) : Prop :=
  ∃ offset, selection.Meets offset ∧ lineOfOffset text offset = n

def indentation (line : List Char) : List Char := line.takeWhile isWhitespace

def body (line : List Char) : List Char := line.dropWhile isWhitespace

def Commented (token line : List Char) : Prop := token <+: body line

/-- The line is not blank and lacks the token. -/
def Bare (token line : List Char) : Prop := body line ≠ [] ∧ ¬ Commented token line

instance (token line : List Char) : Decidable (Commented token line) :=
  inferInstanceAs (Decidable (_ <+: _))

instance (token line : List Char) : Decidable (Bare token line) :=
  inferInstanceAs (Decidable (_ ∧ _))

def comment (token line : List Char) : List Char := indentation line ++ (token ++ ' ' :: body line)

/-- How much of a commented line is its token and the space after it. -/
def tokenWidth (token line : List Char) : ℕ :=
  if token ++ [' '] <+: body line then token.length + 1 else token.length

def uncomment (token line : List Char) : List Char :=
  indentation line ++ (body line).drop (tokenWidth token line)

/-- The lines before and after a toggle of some of them. -/
structure TogglesLines (token : List Char) (selected : ℕ → Prop) (lines result : List (List Char)) :
    Prop where
  length : result.length = lines.length
  others : ∀ n, ¬ selected n → result[n]? = lines[n]?
  adds : (∃ n line, selected n ∧ lines[n]? = some line ∧ Bare token line) →
    ∀ n line, selected n → lines[n]? = some line →
      result[n]? = some (if Bare token line then comment token line else line)
  removes : (∀ n line, selected n → lines[n]? = some line → ¬ Bare token line) →
    ∀ n line, selected n → lines[n]? = some line →
      result[n]? = some (if Commented token line then uncomment token line else line)

/-- Toggling goes by the selected lines, and it can be undone by toggling where nothing was
commented. -/
def TogglesSelection (lineCommentToken : LineCommentTokens) (languageName : String)
    (token text : List Char) (selection : Selection) : Prop :=
  ∃ result carried, toggled lineCommentToken languageName text selection = some (result, carried) ∧
    TogglesLines token (OnSelection text selection) (text.splitOn '\n') (result.splitOn '\n') ∧
    ((∀ n line, OnSelection text selection n → (text.splitOn '\n')[n]? = some line →
        ¬ Commented token line) →
      ∃ carried', toggled lineCommentToken languageName result carried = some (text, carried'))

/-- The line is not selected, but the one before it is. -/
def Follows (text : List Char) (selection : Selection) (n : ℕ) : Prop :=
  ¬ OnSelection text selection n ∧ ∃ m, n = m + 1 ∧ OnSelection text selection m

/-- What follows the selected lines is blank, or it is commented and stays so: there is a selected
line to be commented, and one that is. -/
def FollowersStay (token text : List Char) (selection : Selection) : Prop :=
  (∀ n line, Follows text selection n → (text.splitOn '\n')[n]? = some line → body line = []) ∨
    (∀ n line, Follows text selection n → (text.splitOn '\n')[n]? = some line →
      ¬ Bare token line) ∧
    (∃ n line, OnSelection text selection n ∧ (text.splitOn '\n')[n]? = some line ∧
      Bare token line) ∧
    ∃ n line, OnSelection text selection n ∧ (text.splitOn '\n')[n]? = some line ∧
      Commented token line

/-! ## Single lines -/

section

variable {token line text : List Char} {n : ℕ}

theorem indentation_append_body (line : List Char) : indentation line ++ body line = line :=
  List.takeWhile_append_dropWhile

/-- What is replaced in a line. -/
def lineEdit (token : List Char) (allCommented : Bool) (line : List Char) : Option (Splice Char) :=
  let start := (indentation line).length
  if allCommented then
    if Commented token line then some ⟨start, start + tokenWidth token line, []⟩ else none
  else if Bare token line then some ⟨start, start, token ++ [' ']⟩
  else none

theorem take_indentation (line : List Char) :
    line.take (indentation line).length = indentation line :=
  (List.prefix_iff_eq_take.mp (List.takeWhile_prefix _)).symm

theorem drop_indentation (line : List Char) (k : ℕ) :
    line.drop ((indentation line).length + k) = (body line).drop k := by
  have hdrop : line.drop (indentation line).length = body line := by
    have hleft : (indentation line ++ body line).drop (indentation line).length = body line :=
      List.drop_left
    rwa [indentation_append_body] at hleft
  rw [← List.drop_drop, hdrop]

theorem length_indentation_le (line : List Char) : (indentation line).length ≤ line.length :=
  (List.takeWhile_prefix _).length_le

theorem editedLine_lineEdit (token : List Char) (allCommented : Bool) (line : List Char) :
    editedLine line (lineEdit token allCommented line) =
      if allCommented then if Commented token line then uncomment token line else line
      else if Bare token line then comment token line else line := by
  rw [lineEdit]
  split_ifs
  · rw [editedLine, take_indentation, drop_indentation, List.nil_append, uncomment]
  · rfl
  · have hdrop := drop_indentation line 0
    rw [Nat.add_zero, List.drop_zero] at hdrop
    rw [editedLine, take_indentation, hdrop, comment, List.append_assoc, List.singleton_append]
  · rfl

theorem Commented.tokenWidth_le (h : Commented token line) :
    tokenWidth token line ≤ (body line).length := by
  rw [tokenWidth]
  split_ifs with hspace
  · have hle := hspace.length_le
    rwa [List.length_append, List.length_singleton] at hle
  · exact List.IsPrefix.length_le h

theorem lineEdit_within (token : List Char) (allCommented : Bool) (line : List Char) :
    ∀ splice ∈ lineEdit token allCommented line,
      splice.start ≤ splice.end_ ∧ splice.end_ ≤ line.length := by
  intro splice hsplice
  rw [lineEdit] at hsplice
  split_ifs at hsplice with hall hcommented
  · obtain rfl := Option.some.inj hsplice
    refine ⟨Nat.le_add_right _ _, ?_⟩
    have hlength := congrArg List.length (indentation_append_body line)
    rw [List.length_append] at hlength
    have hwidth := hcommented.tokenWidth_le
    dsimp only
    omega
  · cases hsplice
  · obtain rfl := Option.some.inj hsplice
    exact ⟨Nat.le_refl _, length_indentation_le line⟩
  · cases hsplice

theorem ne_uncomment (hne : token ≠ []) (h : Commented token line) :
    uncomment token line ≠ line := by
  intro heq
  have hlength := congrArg List.length heq
  nth_rewrite 2 [← indentation_append_body line] at hlength
  rw [uncomment, List.length_append, List.length_append, List.length_drop] at hlength
  have hwidth := h.tokenWidth_le
  have hpos := List.length_pos_iff.mpr hne
  rw [tokenWidth] at hlength hwidth
  split_ifs at hlength hwidth <;> omega

theorem comment_ne (token line : List Char) : comment token line ≠ line := by
  intro heq
  have hlength := congrArg List.length heq
  nth_rewrite 2 [← indentation_append_body line] at hlength
  simp only [comment, List.length_append, List.length_cons] at hlength
  omega

theorem not_commented_of_body (hne : token ≠ []) (h : body line = []) : ¬ Commented token line := by
  rw [Commented, h, List.prefix_nil]
  exact hne

/-- What a comment is put before becomes its body again. -/
theorem body_comment (hne : token ≠ []) (hvisible : ∀ c ∈ token, isWhitespace c = false)
    (line : List Char) : indentation (comment token line) = indentation line ∧
      body (comment token line) = token ++ ' ' :: body line := by
  obtain ⟨c, rest, rfl⟩ := List.exists_cons_of_ne_nil hne
  have hindent : ∀ c ∈ indentation line, isWhitespace c = true :=
    fun c hc ↦ List.mem_takeWhile_imp hc
  have hc := hvisible c List.mem_cons_self
  constructor
  · rw [comment, indentation, List.takeWhile_append_of_pos hindent, List.cons_append,
      List.takeWhile_cons_of_neg (by simp [hc]), List.append_nil]
  · rw [comment, body, List.dropWhile_append_of_pos hindent, List.cons_append,
      List.dropWhile_cons_of_neg (by simp [hc])]

theorem commented_comment (hne : token ≠ []) (hvisible : ∀ c ∈ token, isWhitespace c = false)
    (line : List Char) : Commented token (comment token line) := by
  rw [Commented, (body_comment hne hvisible line).2]
  exact List.prefix_append token _

theorem uncomment_comment (hne : token ≠ []) (hvisible : ∀ c ∈ token, isWhitespace c = false)
    (line : List Char) : uncomment token (comment token line) = line := by
  obtain ⟨hindent, hbody⟩ := body_comment hne hvisible line
  have hwidth : tokenWidth token (comment token line) = (token ++ [' ']).length := by
    have hspace : token ++ [' '] <+: token ++ ' ' :: body line :=
      ⟨body line, by rw [List.append_assoc, List.singleton_append]⟩
    rw [tokenWidth, hbody, if_pos hspace, List.length_append, List.length_singleton]
  have hsplit : token ++ ' ' :: body line = (token ++ [' ']) ++ body line := by
    rw [List.append_assoc, List.singleton_append]
  rw [uncomment, hindent, hbody, hwidth, hsplit, List.drop_left, indentation_append_body]

/-! ### As the code reads them -/

theorem rdropWhile_of_notMem (hline : '\n' ∉ line) : line.rdropWhile (· = '\n') = line := by
  rw [List.rdropWhile_eq_self_iff]
  intro hne hlast
  exact hline (of_decide_eq_true hlast ▸ List.getLast_mem hne)

theorem lineContent_of_splitOn {before after : List (List Char)}
    (h : text.splitOn '\n' = before ++ line :: after) :
    lineContent text before.length = trimCr line := by
  have hline := (notMem_of_splitOn h).2 line List.mem_cons_self
  obtain ⟨segment, tail, htext, hstart, hend, hsegment⟩ :=
    exists_segment before [line] after h (List.cons_ne_nil _ _)
  have htotal : ¬ totalLines text ≤ before.length := by
    rw [totalLines, ← length_splitOn, h, List.length_append, List.length_cons]
    omega
  rw [List.length_singleton] at hend
  rw [lineContent, if_neg htotal, Background.endOfLine, hstart, hend]
  dsimp only
  rw [Nat.add_sub_cancel_left, htext, List.drop_left, List.take_left, Background.trimEndMatches,
    Background.trimEndMatches]
  obtain ⟨-, rfl, -⟩ | ⟨-, rfl, -⟩ := hsegment
  · rw [ended_cons, ended_nil, List.rdropWhile_concat_pos _ _ _ (by decide),
      rdropWhile_of_notMem hline, trimCr]
  · rw [List.intercalate_singleton, rdropWhile_of_notMem hline, trimCr]

theorem lineContent_eq (h : (text.splitOn '\n')[n]? = some line) :
    lineContent text n = trimCr line := by
  obtain ⟨hn, hget⟩ := List.getElem?_eq_some_iff.mp h
  have hsplit : text.splitOn '\n' =
      (text.splitOn '\n').take n ++ line :: (text.splitOn '\n').drop (n + 1) := by
    rw [← hget, List.getElem_cons_drop, List.take_append_drop]
  have hcontent := lineContent_of_splitOn hsplit
  rwa [List.length_take_of_le hn.le] at hcontent

theorem lineContent_past (h : (text.splitOn '\n')[n]? = none) : lineContent text n = [] := by
  rw [List.getElem?_eq_none_iff, length_splitOn] at h
  exact if_pos h

/-- The carriage returns that are cut off are blank. -/
theorem exists_trimCr (line : List Char) : ∃ crs : List Char, (∀ c ∈ crs, c = '\r') ∧
    line = trimCr line ++ crs := by
  refine ⟨line.rtakeWhile (· = '\r'), fun c hc ↦ ?_, List.rdropWhile_append_rtakeWhile.symm⟩
  have hcr := List.mem_rtakeWhile_imp hc
  exact of_decide_eq_true hcr

theorem body_trimCr_eq_nil_iff (line : List Char) : body (trimCr line) = [] ↔ body line = [] := by
  obtain ⟨crs, hcrs, heq⟩ := exists_trimCr line
  have hblank : ∀ c ∈ crs, isWhitespace c = true := fun c hc ↦ hcrs c hc ▸ by decide
  rw [body, body, List.dropWhile_eq_nil_iff, List.dropWhile_eq_nil_iff]
  constructor
  · intro h
    rw [heq]
    exact List.forall_mem_append.mpr ⟨h, hblank⟩
  · intro h c hc
    exact h c (by rw [heq]; exact List.mem_append_left crs hc)

theorem body_of_trimCr (h : body (trimCr line) ≠ []) : ∃ crs : List Char, (∀ c ∈ crs, c = '\r') ∧
    body line = body (trimCr line) ++ crs ∧ indentation line = indentation (trimCr line) := by
  obtain ⟨crs, hcrs, heq⟩ := exists_trimCr line
  refine ⟨crs, hcrs, ?_, ?_⟩
  · conv_lhs => rw [heq, body, List.dropWhile_append]
    rw [if_neg (by simpa [body] using h)]
    rfl
  · conv_lhs => rw [heq, indentation, List.takeWhile_append]
    rw [if_neg]
    · rfl
    · intro hlength
      apply h
      have hbody := congrArg List.length (indentation_append_body (trimCr line))
      rw [List.length_append] at hbody
      exact List.length_eq_zero_iff.mp (by rw [indentation] at hbody; omega)

/-- What is looked for in a body has no carriage return. -/
theorem prefix_body_iff {s crs b : List Char} (hs : '\r' ∉ s) (hcrs : ∀ c ∈ crs, c = '\r') :
    s <+: b ++ crs ↔ s <+: b := by
  refine ⟨fun h ↦ ?_, fun h ↦ h.trans (List.prefix_append b crs)⟩
  rcases List.prefix_or_prefix_of_prefix h (List.prefix_append b crs) with hpref | ⟨t, rfl⟩
  · exact hpref
  · cases t with
    | nil => rw [List.append_nil]
    | cons c t =>
      have hc := hcrs c (((List.prefix_append_right_inj b).mp h).subset List.mem_cons_self)
      exact absurd (List.mem_append_right b (hc ▸ List.mem_cons_self)) hs

theorem isBlankOrCommented_iff (hvisible : ∀ c ∈ token, isWhitespace c = false) (line : List Char) :
    isBlankOrCommented token (trimCr line) = true ↔ ¬ Bare token line := by
  have hcr : '\r' ∉ token := fun hmem ↦ absurd (hvisible '\r' hmem) (by decide)
  rw [isBlankOrCommented, Bool.or_eq_true, List.isEmpty_iff, List.isPrefixOf_iff_prefix,
    ← body.eq_1,
    body_trimCr_eq_nil_iff, Bare, not_and, not_not, Commented, or_iff_not_imp_left]
  by_cases hblank : body (trimCr line) = []
  · have hbody := (body_trimCr_eq_nil_iff line).mp hblank
    exact ⟨fun _ hne ↦ absurd hbody hne, fun _ hne ↦ absurd hbody hne⟩
  · obtain ⟨crs, hcrs, hbody, -⟩ := body_of_trimCr hblank
    rw [hbody, prefix_body_iff hcr hcrs]

theorem isPrefixOf?_of_not {s b : List Char} (h : ¬ s <+: b) : s.isPrefixOf? b = none := by
  rw [Option.eq_none_iff_forall_not_mem]
  intro t ht
  exact h ⟨t, List.isPrefixOf?_eq_some_iff_append_eq.mp ht⟩

/-- What is left of a body without its token. -/
theorem afterToken_eq {b : List Char} (h : token <+: b) :
    (((token ++ [' ']).isPrefixOf? b).getD ((token.isPrefixOf? b).getD b)).length =
      b.length - (if token ++ [' '] <+: b then token.length + 1 else token.length) := by
  split_ifs with hspace
  · obtain ⟨t, rfl⟩ := hspace
    have hsome : (token ++ [' ']).isPrefixOf? (token ++ [' '] ++ t) = some t :=
      List.isPrefixOf?_eq_some_iff_append_eq.mpr rfl
    rw [hsome, Option.getD_some, List.length_append, List.length_append, List.length_singleton]
    omega
  · obtain ⟨t, rfl⟩ := h
    have hsome : token.isPrefixOf? (token ++ t) = some t :=
      List.isPrefixOf?_eq_some_iff_append_eq.mpr rfl
    rw [isPrefixOf?_of_not hspace, Option.getD_none, hsome, Option.getD_some, List.length_append]
    omega

theorem map_fst_map (builder : Option (DeltaBuilder Char)) :
    (builder.map (·, true)).map Prod.fst = builder := by
  cases builder <;> rfl

/-- A turn of the loop replaces what it should in its line. -/
theorem toggleLine_eq (hne : token ≠ []) (hvisible : ∀ c ∈ token, isWhitespace c = false)
    (allCommented : Bool) (builder : DeltaBuilder Char) (changed : Bool)
    (h : (text.splitOn '\n')[n]? = some line) :
    (toggleLine token text allCommented (builder, changed) n).map Prod.fst =
      replaceInLine builder (offsetOfLine text n) (lineEdit token allCommented line) := by
  have hcr : '\r' ∉ token := fun hmem ↦ absurd (hvisible '\r' hmem) (by decide)
  have hcr' : '\r' ∉ token ++ [' '] := by simp [hcr]
  rw [toggleLine, lineContent_eq h, lineEdit]
  dsimp only
  by_cases hblank : body (trimCr line) = []
  · have hbody := (body_trimCr_eq_nil_iff line).mp hblank
    have hbare : ¬ Bare token line := fun hbare ↦ hbare.1 hbody
    rw [if_pos (by rw [← body.eq_1, hblank]; rfl), if_neg (not_commented_of_body hne hbody),
      if_neg hbare, ite_self]
    rfl
  · obtain ⟨crs, hcrs, hbody, hindent⟩ := body_of_trimCr hblank
    have hcommented : Commented token line ↔ token <+: body (trimCr line) := by
      rw [Commented, hbody, prefix_body_iff hcr hcrs]
    have hbare : Bare token line ↔ ¬ token <+: body (trimCr line) := by
      rw [Bare, hcommented, and_iff_right (mt (body_trimCr_eq_nil_iff line).mpr hblank)]
    have hwidth : tokenWidth token line =
        if token ++ [' '] <+: body (trimCr line) then token.length + 1 else token.length := by
      rw [tokenWidth, hbody]
      exact if_congr (prefix_body_iff hcr' hcrs) rfl rfl
    have hlength := congrArg List.length (indentation_append_body (trimCr line))
    rw [List.length_append] at hlength
    have hws : (trimCr line).length - (body (trimCr line)).length = (indentation line).length := by
      rw [hindent]
      omega
    rw [← body.eq_1, if_neg (by simpa using hblank), hws]
    cases allCommented with
    | true =>
      rw [if_pos rfl, if_pos rfl]
      by_cases hpref : token <+: body (trimCr line)
      · have hle := (hcommented.mpr hpref).tokenWidth_le
        have hpos := List.length_pos_iff.mpr hne
        have hafter := afterToken_eq hpref
        rw [← hwidth] at hafter
        have hwidth' : tokenWidth token line ≤ (body (trimCr line)).length := by
          rw [hwidth]
          split_ifs with hspace
          · have hspace := hspace.length_le
            rwa [List.length_append, List.length_singleton] at hspace
          · exact hpref.length_le
        have hremove : 0 < tokenWidth token line := by
          rw [hwidth]
          split_ifs <;> omega
        rw [hafter, Nat.sub_sub_self hwidth', if_pos (Nat.lt_add_of_pos_right hremove),
          if_pos (hcommented.mpr hpref), delete_eq_replace, replaceInLine, Nat.add_assoc,
          map_fst_map]
      · have hspace : ¬ token ++ [' '] <+: body (trimCr line) := fun h ↦
          hpref ((List.prefix_append token [' ']).trans h)
        rw [isPrefixOf?_of_not hspace, isPrefixOf?_of_not hpref, Option.getD_none, Option.getD_none,
          Nat.sub_self, Nat.add_zero, if_neg (Nat.lt_irrefl _), if_neg (mt hcommented.mp hpref)]
        rfl
    | false =>
      rw [if_neg Bool.false_ne_true, if_neg Bool.false_ne_true]
      by_cases hpref : token <+: body (trimCr line)
      · rw [if_pos (List.isPrefixOf_iff_prefix.mpr hpref),
          if_neg (mt hbare.mp (not_not_intro hpref))]
        rfl
      · rw [if_neg (mt List.isPrefixOf_iff_prefix.mp hpref), if_pos (hbare.mpr hpref), map_fst_map]
        rfl

/-- What is replaced does not depend on whether anything has changed. -/
theorem map_fst_toggleLine (token text : List Char) (allCommented : Bool)
    (builder : DeltaBuilder Char) (changed : Bool) (n : ℕ) :
    (toggleLine token text allCommented (builder, changed) n).map Prod.fst =
      (toggleLine token text allCommented (builder, false) n).map Prod.fst := by
  rw [toggleLine, toggleLine]
  dsimp only
  split_ifs <;> rfl

theorem eq_of_toggleLine {allCommented : Bool} {state state' : DeltaBuilder Char × Bool}
    (h : toggleLine token text allCommented state n = some state') (hunchanged : state'.2 = false) :
    state' = state := by
  have hmap : ∀ {builder : Option (DeltaBuilder Char)}, builder.map (·, true) = some state' →
      False := by
    intro builder hsome
    obtain ⟨builder, -, rfl⟩ := Option.map_eq_some_iff.mp hsome
    cases hunchanged
  rw [toggleLine] at h
  dsimp only at h
  split_ifs at h
  all_goals first
    | exact (Option.some.inj h).symm
    | exact (hmap h).elim

/-- The turns of the loop edit the lines that are collected. -/
theorem editsLines (hne : token ≠ []) (hvisible : ∀ c ∈ token, isWhitespace c = false)
    (text : List Char) (allCommented : Bool) (ns : List ℕ) :
    EditsLines '\n' text (· ∈ ns)
      (fun n line ↦ if n ∈ ns then lineEdit token allCommented line else none)
      (fun builder n ↦ (toggleLine token text allCommented (builder, false) n).map Prod.fst) where
  line := fun _ _ builder hn h ↦ by
    rw [if_pos hn, toggleLine_eq hne hvisible allCommented builder false h, offsetOfLine_eq]
  past := fun n builder _ h ↦ by
    rw [toggleLine, lineContent_past h]
    rfl
  within := fun _ line splice hsplice ↦ by
    split_ifs at hsplice
    · exact lineEdit_within token allCommented line splice hsplice
    · cases hsplice

end

/-! ## The lines that are collected -/

section

variable {text : List Char} {selection : Selection} {regions : List SelRegion} {region : SelRegion}
  {self : LineRanges} {n a b : ℕ}

/-- No line between two offsets is left out. -/
theorem exists_lineOfOffset (hle : a ≤ b) (ha : lineOfOffset text a ≤ n)
    (hb : n ≤ lineOfOffset text b) : ∃ offset, a ≤ offset ∧ offset ≤ b ∧
      lineOfOffset text offset = n := by
  induction b, hle using Nat.le_induction with
  | base => exact ⟨a, Nat.le_refl a, Nat.le_refl a, Nat.le_antisymm ha hb⟩
  | succ b hle ih =>
    by_cases hn : n ≤ lineOfOffset text b
    · obtain ⟨offset, hfrom, hto, heq⟩ := ih hn
      exact ⟨offset, hfrom, hto.trans (Nat.le_succ b), heq⟩
    · refine ⟨b + 1, hle.trans (Nat.le_succ b), Nat.le_refl _, ?_⟩
      have hnext : lineOfOffset text (b + 1) ≤ lineOfOffset text b + 1 := by
        rw [lineOfOffset_eq (Nat.le_succ b), Nat.succ_sub (Nat.le_refl b), Nat.sub_self]
        exact Nat.add_le_add_left (List.count_le_length.trans (List.length_take_le 1 _)) _
      omega

theorem exists_meets_iff (region : SelRegion) (n : ℕ) :
    (∃ offset, region.Meets offset ∧ lineOfOffset text offset = n) ↔
      lineOfOffset text region.min ≤ n ∧ n ≤ lineOfOffset text region.max := by
  constructor
  · rintro ⟨offset, ⟨hmin, hmax⟩, rfl⟩
    exact ⟨lineOfOffset_mono hmin, lineOfOffset_mono hmax⟩
  · rintro ⟨hmin, hmax⟩
    obtain ⟨offset, hfrom, hto, heq⟩ := exists_lineOfOffset region.min_le_max hmin hmax
    exact ⟨offset, ⟨hfrom, hto⟩, heq⟩

theorem onSelection_iff : OnSelection text selection n ↔ ∃ r ∈ selection.regions,
    lineOfOffset text r.min ≤ n ∧ n ≤ lineOfOffset text r.max := by
  simp only [← exists_meets_iff, OnSelection, Selection.Meets]
  constructor
  · rintro ⟨offset, ⟨r, hr, hmeets⟩, hline⟩
    exact ⟨r, hr, offset, hmeets, hline⟩
  · rintro ⟨r, hr, offset, hmeets, hline⟩
    exact ⟨offset, ⟨r, hr, hmeets⟩, hline⟩

theorem mem_collectLines {lineRanges : List (ℕ × ℕ)} :
    n ∈ collectLines lineRanges ↔ ∃ p ∈ lineRanges, p.1 ≤ n ∧ n ≤ p.2 := by
  rw [collectLines, List.mem_insertionSort, List.mem_dedup, List.mem_flatMap]
  refine exists_congr fun p ↦ and_congr_right fun _ ↦ ?_
  rw [List.mem_range'_1]
  omega

def LineRanges.Covers (self : LineRanges) (n : ℕ) : Prop :=
  ∃ p ∈ self.lineRanges ++ self.prevRange.toList, p.1 ≤ n ∧ n ≤ p.2

/-- A range ends behind the last line of its region. -/
theorem LineRanges.covers_region
    (hprev : ∀ prev ∈ self.prevRange, prev.1 ≤ lineOfOffset text region.min) :
    (self.region text region).Covers n ↔ self.Covers n ∨
      lineOfOffset text region.min ≤ n ∧ n ≤ lineOfOffset text region.max + 1 := by
  obtain ⟨prevRange, lineRanges⟩ := self
  cases prevRange with
  | none => simp [LineRanges.region, LineRanges.Covers]
  | some prev =>
    have hprev := hprev prev rfl
    have hle : lineOfOffset text region.min ≤ lineOfOffset text region.max :=
      lineOfOffset_mono region.min_le_max
    rw [LineRanges.region]
    dsimp only
    split_ifs with htouch
    · have hmerge : min prev.1 (lineOfOffset text region.min) ≤ n ∧
          n ≤ max prev.2 (lineOfOffset text region.max + 1) ↔
            prev.1 ≤ n ∧ n ≤ prev.2 ∨
              lineOfOffset text region.min ≤ n ∧ n ≤ lineOfOffset text region.max + 1 := by
        omega
      simp only [LineRanges.Covers, Option.toList_some, List.mem_append, List.mem_singleton,
        or_and_right, exists_or, exists_eq_left, hmerge, or_assoc]
    · simp only [LineRanges.Covers, Option.toList_some, List.mem_append, List.mem_singleton,
        or_and_right, exists_or, exists_eq_left]

theorem LineRanges.covers_foldl (self : LineRanges)
    (hsorted : regions.Pairwise fun r r' ↦ lineOfOffset text r.min ≤ lineOfOffset text r'.min)
    (hprev : ∀ prev ∈ self.prevRange, ∀ r ∈ regions, prev.1 ≤ lineOfOffset text r.min) :
    (regions.foldl (LineRanges.region text) self).Covers n ↔ self.Covers n ∨ ∃ r ∈ regions,
      lineOfOffset text r.min ≤ n ∧ n ≤ lineOfOffset text r.max + 1 := by
  induction regions generalizing self with
  | nil => simp
  | cons r regions ih =>
    obtain ⟨hr, hsorted⟩ := List.pairwise_cons.mp hsorted
    have hnext : ∀ prev ∈ (self.region text r).prevRange, ∀ r' ∈ regions,
        prev.1 ≤ lineOfOffset text r'.min := by
      intro prev hmem r' hr'
      refine Nat.le_trans ?_ (hr r' hr')
      rw [LineRanges.region] at hmem
      cases hprevRange : self.prevRange with
      | none =>
        rw [hprevRange] at hmem
        obtain rfl := Option.some.inj hmem
        exact Nat.le_refl _
      | some prev' =>
        rw [hprevRange] at hmem
        dsimp only at hmem
        split_ifs at hmem
        all_goals obtain rfl := Option.some.inj hmem
        · exact Nat.min_le_right _ _
        · exact Nat.le_refl _
    rw [List.foldl_cons, ih _ hsorted hnext,
      covers_region fun prev hmem ↦ hprev prev hmem r List.mem_cons_self, or_assoc]
    simp

variable (text) in
/-- The lines that are collected are those of the selection and those that follow them. -/
theorem mem_collectLines_selectedLineRanges (hsorted : selection.Sorted) :
    n ∈ collectLines (selectedLineRanges text selection.regions) ↔
      OnSelection text selection n ∨ Follows text selection n := by
  have hpairwise : selection.regions.Pairwise fun r r' ↦
      lineOfOffset text r.min ≤ lineOfOffset text r'.min :=
    (Selection.sorted_iff.mp hsorted).imp fun {r r'} hbefore ↦
      lineOfOffset_mono (r.min_le_max.trans hbefore.1)
  have hcovers := LineRanges.covers_foldl ⟨none, []⟩ hpairwise nofun (n := n)
  rw [mem_collectLines, selectedLineRanges]
  refine hcovers.trans ?_
  have hnone : ¬ (⟨none, []⟩ : LineRanges).Covers n := by simp [LineRanges.Covers]
  rw [or_iff_right hnone]
  constructor
  · rintro ⟨r, hr, hmin, hmax⟩
    by_cases hn : OnSelection text selection n
    · exact .inl hn
    · have hlast : ¬ n ≤ lineOfOffset text r.max := fun hle ↦
        hn (onSelection_iff.mpr ⟨r, hr, hmin, hle⟩)
      exact .inr ⟨hn, lineOfOffset text r.max, by omega, onSelection_iff.mpr
        ⟨r, hr, lineOfOffset_mono r.min_le_max, Nat.le_refl _⟩⟩
  · rintro (hn | ⟨-, m, rfl, hm⟩)
    · obtain ⟨r, hr, hmin, hmax⟩ := onSelection_iff.mp hn
      exact ⟨r, hr, hmin, hmax.trans (Nat.le_succ _)⟩
    · obtain ⟨r, hr, hmin, hmax⟩ := onSelection_iff.mp hm
      exact ⟨r, hr, hmin.trans (Nat.le_succ m), Nat.succ_le_succ hmax⟩

/-! ## The selection that is carried along -/

/-- **An offset is carried to the line that it was on.** -/
theorem lineOfOffset_transformFresh {els : List (DeltaElement Char)}
    (h : KeepsAll (fun new ↦ '\n' ∉ new) 0 els text.length) {offset : ℕ}
    (hoffset : offset ≤ text.length) :
    lineOfOffset (produced text els)
    ((⟨els, text.length⟩ : Delta Char).transformFresh offset true) =
      lineOfOffset text offset := by
  rw [Transformer.transformFresh_eq, if_neg (by simp), lineOfOffset,
    h.count_take (Nat.zero_le _) hoffset, List.drop_zero, Nat.sub_zero, lineOfOffset]

variable (regions) in
theorem applyDeltaFrom_meets {d : Delta Char} {t : Transformer Char}
    (ht : Transformer.Caches d t) {result : Selection} (hresult : result.Sorted) :
    ∃ carried, Selection.applyDeltaFrom true .default regions t result = some carried ∧
      carried.Sorted ∧ ∀ offset, carried.Meets offset ↔ result.Meets offset ∨
        ∃ r ∈ regions, (SelRegion.new (d.transformFresh r.start true)
          (d.transformFresh r.end_ true)).Meets offset := by
  induction regions generalizing t result with
  | nil => exact ⟨result, rfl, hresult, by simp⟩
  | cons r regions ih =>
    obtain ⟨hstart, ht'⟩ := ht.transform r.start true
    obtain ⟨hend, ht''⟩ := ht'.transform r.end_ true
    obtain ⟨next, hadd, hadds⟩ := hresult.addRegion
      ((SelRegion.new (d.transformFresh r.start true) (d.transformFresh r.end_ true)).withAffinity
        r.affinity)
    obtain ⟨carried, hrun, hsorted, hmeets⟩ := ih ht'' hadds.sorted
    refine ⟨carried, ?_, hsorted, fun offset ↦ ?_⟩
    · have hsides : Selection.sides r true .default = (true, true) := by simp [Selection.sides]
      rw [Selection.applyDeltaFrom, hsides]
      dsimp only
      rw [hstart, hend, hadd]
      exact hrun
    · rw [hmeets, hadds.meets, List.exists_mem_cons_iff, or_assoc, or_left_comm]
      rfl

/-- Where offsets are carried to the lines that they were on, so is the selection. -/
theorem applyDelta_onSelection {d : Delta Char} {result : List Char}
    (hlines : ∀ r ∈ selection.regions, ∀ offset ∈ [r.start, r.end_],
      lineOfOffset result (d.transformFresh offset true) = lineOfOffset text offset) :
    ∃ carried, selection.applyDelta d true .default = some carried ∧ carried.Sorted ∧
      ∀ n, OnSelection result carried n ↔ OnSelection text selection n := by
  obtain ⟨carried, hrun, hsorted, hmeets⟩ := applyDeltaFrom_meets selection.regions
    (Transformer.caches_new d) Selection.sorted_new
  refine ⟨carried, hrun, hsorted, fun n ↦ ?_⟩
  have hmono (base : List Char) : Monotone (lineOfOffset base) := fun _ _ ↦ lineOfOffset_mono
  have hregion : ∀ r ∈ selection.regions, ((∃ offset, (SelRegion.new (d.transformFresh r.start true)
      (d.transformFresh r.end_ true)).Meets offset ∧ lineOfOffset result offset = n) ↔
        lineOfOffset text r.min ≤ n ∧ n ≤ lineOfOffset text r.max) := by
    intro r hr
    rw [exists_meets_iff, SelRegion.min_new, SelRegion.max_new, (hmono result).map_min,
      (hmono result).map_max, hlines r hr r.start (by simp), hlines r hr r.end_ (by simp),
      ← (hmono text).map_min, ← (hmono text).map_max]
    rfl
  refine Iff.trans ?_ onSelection_iff.symm
  have hnew : ¬ ∃ offset, Selection.new.Meets offset := by simp [Selection.Meets, Selection.new]
  constructor
  · rintro ⟨offset, hoffset, hn⟩
    obtain hnone | ⟨r, hr, hmeets⟩ := (hmeets offset).mp hoffset
    · exact absurd ⟨offset, hnone⟩ hnew
    · exact ⟨r, hr, (hregion r hr).mp ⟨offset, hmeets, hn⟩⟩
  · rintro ⟨r, hr, hn⟩
    obtain ⟨offset, hoffset, hline⟩ := (hregion r hr).mpr hn
    exact ⟨offset, (hmeets offset).mpr (.inr ⟨r, hr, hoffset⟩), hline⟩

end

/-! ## Toggling -/

section

variable {lineCommentToken : LineCommentTokens} {languageName : String} {token : CommentToken}
  {text result : List Char} {selection carried : Selection} {allCommented : Bool}

/-- A line that is reached by a toggle. -/
def toggledLine (token : List Char) (allCommented : Bool) (line : List Char) : List Char :=
  if allCommented then if Commented token line then uncomment token line else line
  else if Bare token line then comment token line else line

/-- What a toggle makes of the lines that it reaches. -/
structure Reaching (token text : List Char) (selection : Selection) (allCommented : Bool)
    (result : List Char) : Prop where
  all_iff : allCommented = true ↔ ∀ n line, OnSelection text selection n ∨
    Follows text selection n →
    (text.splitOn '\n')[n]? = some line → ¬ Bare token line
  length : (result.splitOn '\n').length = (text.splitOn '\n').length
  others : ∀ n, ¬ (OnSelection text selection n ∨ Follows text selection n) →
    (result.splitOn '\n')[n]? = (text.splitOn '\n')[n]?
  reached : ∀ n line, OnSelection text selection n ∨ Follows text selection n →
    (text.splitOn '\n')[n]? = some line →
      (result.splitOn '\n')[n]? = some (toggledLine token allCommented line)

theorem CommentToken.newline_notMem (token : CommentToken) : '\n' ∉ token.text := fun hmem ↦
  absurd (token.visible '\n' hmem) (by decide)

theorem notMem_toggledLine (token : CommentToken) (allCommented : Bool) {line : List Char}
    (hline : '\n' ∉ line) : '\n' ∉ toggledLine token.text allCommented line := by
  have hparts := hline
  rw [← indentation_append_body line, List.mem_append, not_or] at hparts
  have hcomment : '\n' ∉ comment token.text line := by
    simp [comment, hparts.1, hparts.2, token.newline_notMem]
  have huncomment : '\n' ∉ uncomment token.text line := by
    rw [uncomment, List.mem_append, not_or]
    exact ⟨hparts.1, fun hmem ↦ hparts.2 (List.mem_of_mem_drop hmem)⟩
  rw [toggledLine]
  split_ifs <;> assumption

variable (text token) in
theorem all_collected_iff (hsorted : selection.Sorted) :
    ((collectLines (selectedLineRanges text selection.regions)).all fun line ↦
      isBlankOrCommented token.text (lineContent text line)) = true ↔
        ∀ n line, OnSelection text selection n ∨ Follows text selection n →
          (text.splitOn '\n')[n]? = some line → ¬ Bare token.text line := by
  rw [List.all_eq_true]
  constructor
  · intro h n line hn hline
    have hcollected := h n ((mem_collectLines_selectedLineRanges text hsorted).mpr hn)
    rwa [lineContent_eq hline, isBlankOrCommented_iff token.visible] at hcollected
  · intro h n hn
    have hn := (mem_collectLines_selectedLineRanges text hsorted).mp hn
    cases hline : (text.splitOn '\n')[n]? with
    | none =>
      rw [lineContent_past hline]
      rfl
    | some line =>
      rw [lineContent_eq hline, isBlankOrCommented_iff token.visible]
      exact h n line hn hline

variable (text) in
/-- The delta of a toggle, by the lines that it reaches. -/
theorem exists_delta (htoken : lineCommentToken languageName = some token)
    (hsorted : selection.Sorted) : ∃ builder changed allCommented result,
      doToggleLineComment lineCommentToken languageName text selection =
        some (if changed then some builder.build else none) ∧
      (changed = false → builder = .new text.length) ∧
      Reaches text builder text.length result ∧
      Reaching token.text text selection allCommented result ∧
      ((∀ n line, OnSelection text selection n ∨ Follows text selection n →
        (text.splitOn '\n')[n]? = some line →
          allCommented = true → ¬ Commented token.text line) →
        KeepsAll (fun new ↦ '\n' ∉ new) 0 builder.els builder.lastOffset) := by
  have hmem (n : ℕ) := mem_collectLines_selectedLineRanges text hsorted (n := n)
  have hall := all_collected_iff token text hsorted
  rw [doToggleLineComment, toggleComment, htoken]
  dsimp only
  obtain ⟨ns, hns⟩ : ∃ ns, collectLines (selectedLineRanges text selection.regions) = ns := ⟨_, rfl⟩
  have hascending := Background.pairwise_collectLines (selectedLineRanges text selection.regions)
  rw [hns] at hall hascending ⊢
  simp only [hns] at hmem
  obtain ⟨allCommented, hcommented⟩ : ∃ allCommented, (ns.all fun line ↦
      isBlankOrCommented token.text (lineContent text line)) = allCommented := ⟨_, rfl⟩
  rw [hcommented] at hall ⊢
  have hedits := editsLines token.ne_nil token.visible text allCommented ns
  obtain ⟨builder, hrun, hreaches⟩ := foldlM_lines hedits hascending (fun _ ↦ id)
    fun n line hn ↦ if_neg hn
  obtain ⟨changed, hflagged, hchanged⟩ : ∃ changed,
      ns.foldlM (toggleLine token.text text allCommented) (.new text.length, false) =
        some (builder, changed) ∧ (changed = false → builder = .new text.length) := by
    rw [← map_fst_foldlM (map_fst_toggleLine token.text text allCommented) false] at hrun
    obtain ⟨⟨builder', changed⟩, hflagged, rfl⟩ := Option.map_eq_some_iff.mp hrun
    refine ⟨changed, hflagged, fun hc ↦ congrArg Prod.fst
      (eq_of_unchanged (fun _ _ _ ↦ eq_of_toggleLine) hflagged hc)⟩
  -- the lines of the result
  have hedited : (text.splitOn '\n').mapIdx (fun n line ↦ editedLine line
      (if n ∈ ns then lineEdit token.text allCommented line else none)) =
      (text.splitOn '\n').mapIdx fun n line ↦
        if n ∈ ns then toggledLine token.text allCommented line else line := by
    congr 1
    funext n line
    split_ifs
    · exact editedLine_lineEdit token.text allCommented line
    · rfl
  rw [hedited] at hreaches
  have hsplit := splitOn_mapIdx (f := fun n line ↦
    if n ∈ ns then toggledLine token.text allCommented line else line) (fun n line hline ↦ by
      split_ifs
      · exact notMem_toggledLine token allCommented hline
      · exact hline) text
  refine ⟨builder, changed, allCommented, _, ?_, hchanged, hreaches,
    ⟨hall, by rw [hsplit, List.length_mapIdx], fun n hn ↦ ?_, fun n line hn hline ↦ ?_⟩,
    fun hinserts ↦ ?_⟩
  · rw [hflagged]
    cases ns with
    | nil =>
      cases hflagged
      rfl
    | cons n ns => rfl
  · rw [hsplit, List.getElem?_mapIdx]
    cases (text.splitOn '\n')[n]? with
    | none => rfl
    | some line => rw [Option.map_some, if_neg (mt (hmem n).mp hn)]
  · rw [hsplit, List.getElem?_mapIdx, hline, Option.map_some, if_pos ((hmem n).mpr hn)]
  · have hnew : KeepsAll (fun new ↦ '\n' ∉ new) 0 (.new text.length : DeltaBuilder Char).els
        (.new text.length : DeltaBuilder Char).lastOffset := rfl
    refine hedits.keepsAll (fun _ ↦ id) (fun n line hn hline splice hsplice ↦ ?_) hnew hrun
    rw [if_pos hn, lineEdit] at hsplice
    split_ifs at hsplice with hcomm hline' hbare
    · exact absurd hline' (hinserts n line ((hmem n).mp hn) hline hcomm)
    · cases hsplice
    · obtain rfl := Option.some.inj hsplice
      exact ⟨rfl, by simp [token.newline_notMem]⟩
    · cases hsplice

variable (text) in
/-- A toggle reaches the selected lines and those that follow them. -/
theorem exists_toggled (htoken : lineCommentToken languageName = some token)
    (hsorted : selection.Sorted) : ∃ result carried allCommented,
      toggled lineCommentToken languageName text selection = some (result, carried) ∧
        carried.Sorted ∧ Reaching token.text text selection allCommented result ∧
        ((∀ r ∈ selection.regions, r.max ≤ text.length) →
          (∀ n line, OnSelection text selection n ∨ Follows text selection n →
            (text.splitOn '\n')[n]? = some line →
              allCommented = true → ¬ Commented token.text line) →
          ∀ n, OnSelection result carried n ↔ OnSelection text selection n) := by
  obtain ⟨builder, changed, allCommented, result, hdelta, hchanged, hreaches, hreaching, hcopies⟩ :=
    exists_delta text htoken hsorted
  have happly := hreaches.build
  rw [toggled, hdelta, Option.bind_eq_bind, Option.bind_some]
  cases changed with
  | false =>
    rw [hchanged rfl] at happly
    obtain rfl := Option.some.inj ((identityDelta_apply text).symm.trans happly)
    exact ⟨text, selection, allCommented, rfl, hsorted, hreaching, fun _ _ n ↦ Iff.rfl⟩
  | true =>
    obtain ⟨carried, hcarried, hcarriedSorted, -⟩ := applyDeltaFrom_meets
      selection.regions (Transformer.caches_new builder.build) Selection.sorted_new
    have hcarry : selection.applyDelta builder.build true .default = some carried := hcarried
    refine ⟨result, carried, allCommented, ?_, hcarriedSorted, hreaching, fun hle hinserts ↦ ?_⟩
    · rw [if_pos rfl, afterEdit, happly, Option.bind_eq_bind, Option.bind_some, hcarry]
      rfl
    · obtain ⟨content, hholds, -⟩ := hreaches.holds
      have hall := (hcopies hinserts).build (hreaches.le.trans hholds.baseLen.ge)
      rw [hholds.baseLen] at hall
      have hbuild : builder.build = ⟨builder.build.els, text.length⟩ := by
        rw [← hholds.baseLen]
        rfl
      rw [hbuild, hall.apply_eq] at happly
      obtain rfl := Option.some.inj happly
      have hlines : ∀ r ∈ selection.regions, ∀ offset ∈ [r.start, r.end_],
          lineOfOffset (produced text builder.build.els)
            (builder.build.transformFresh offset true) =
            lineOfOffset text offset := by
        intro r hr offset hoffset
        rw [hbuild]
        refine lineOfOffset_transformFresh hall (Nat.le_trans ?_ (hle r hr))
        rcases List.mem_pair.mp hoffset with rfl | rfl
        · exact Nat.le_max_left _ _
        · exact Nat.le_max_right _ _
      obtain ⟨carried', hcarried', -, hlines⟩ := applyDelta_onSelection hlines
      obtain rfl := Option.some.inj (hcarry.symm.trans hcarried')
      exact hlines

theorem toggledLine_eq_self {token line : List Char} (hbare : ¬ Bare token line)
    (hcommented : allCommented = true → ¬ Commented token line) :
    toggledLine token allCommented line = line := by
  rw [toggledLine]
  split_ifs with hall hline
  · exact absurd hline (hcommented hall)
  · rfl
  · rfl

/-- A toggle goes by the selected lines when the others stay. -/
theorem Reaching.togglesLines_iff (h : Reaching token.text text selection allCommented result) :
    TogglesLines token.text (OnSelection text selection) (text.splitOn '\n') (result.splitOn '\n') ↔
      ∀ n line, Follows text selection n → (text.splitOn '\n')[n]? = some line →
        toggledLine token.text allCommented line = line := by
  constructor
  · intro htoggles n line hn hline
    have hsame := htoggles.others n hn.1
    rw [h.reached n line (.inr hn) hline, hline] at hsame
    exact Option.some.inj hsame
  · intro hstay
    refine ⟨h.length, fun n hn ↦ ?_, fun ⟨m, bare, hm, hbare, hmbare⟩ n line hn hline ↦ ?_,
      fun hnone n line hn hline ↦ ?_⟩
    · by_cases hfollows : Follows text selection n
      · cases hline : (text.splitOn '\n')[n]? with
        | none =>
          rw [List.getElem?_eq_none_iff] at hline ⊢
          rwa [h.length]
        | some line => rw [h.reached n line (.inr hfollows) hline, hstay n line hfollows hline]
      · exact h.others n (not_or.mpr ⟨hn, hfollows⟩)
    · have hall : ¬ allCommented = true := fun hall ↦
        h.all_iff.mp hall m bare (.inl hm) hbare hmbare
      rw [h.reached n line (.inl hn) hline, toggledLine, if_neg hall]
    · have hall : allCommented = true := by
        by_contra hall
        refine hall (h.all_iff.mpr fun m line hm hline hbare ↦ ?_)
        rcases hm with hm | hm
        · exact hnone m line hm hline hbare
        · have hsame := hstay m line hm hline
          rw [toggledLine, if_neg hall, if_pos hbare] at hsame
          exact comment_ne _ _ hsame
      rw [h.reached n line (.inl hn) hline, toggledLine, if_pos hall]

/-- No line that is reached lacks the token afterwards. -/
theorem not_bare_toggledLine (token : CommentToken) {line : List Char}
    (hall : allCommented = true → ¬ Bare token.text line ∧ ¬ Commented token.text line) :
    ¬ Bare token.text (toggledLine token.text allCommented line) := by
  rw [toggledLine]
  split_ifs with hall' hcommented hbare
  · exact absurd hcommented (hall hall').2
  · exact (hall hall').1
  · exact fun hnot ↦ hnot.2 (commented_comment token.ne_nil token.visible line)
  · exact hbare

/-- The token that was put before a line is taken away. -/
theorem toggledLine_toggledLine (token : CommentToken) {line : List Char}
    (hall : allCommented = true → ¬ Bare token.text line)
    (hcommented : ¬ Commented token.text line) :
    toggledLine token.text true (toggledLine token.text allCommented line) = line := by
  by_cases hbare : Bare token.text line
  · have hfalse : allCommented = false := Bool.eq_false_iff.mpr fun h ↦ hall h hbare
    rw [hfalse, toggledLine, toggledLine, if_pos rfl, if_neg Bool.false_ne_true, if_pos hbare,
      if_pos (commented_comment token.ne_nil token.visible line),
      uncomment_comment token.ne_nil token.visible]
  · rw [toggledLine_eq_self hbare fun _ ↦ hcommented, toggledLine_eq_self hbare fun _ ↦ hcommented]

theorem Reaching.stays (h : Reaching token.text text selection allCommented result)
    (hstay : ∀ n line, Follows text selection n → (text.splitOn '\n')[n]? = some line →
      toggledLine token.text allCommented line = line) {n : ℕ} {line : List Char}
    (hn : Follows text selection n) (hline : (text.splitOn '\n')[n]? = some line)
    (hvisible : body line ≠ []) : allCommented = false ∧ Commented token.text line := by
  have hsame := hstay n line hn hline
  have hcommented : Commented token.text line := by
    by_contra hnot
    have hall : ¬ allCommented = true := fun hall ↦
      h.all_iff.mp hall n line (.inr hn) hline ⟨hvisible, hnot⟩
    rw [toggledLine, if_neg hall, if_pos ⟨hvisible, hnot⟩] at hsame
    exact comment_ne _ _ hsame
  refine ⟨Bool.eq_false_iff.mpr fun hall ↦ ?_, hcommented⟩
  rw [toggledLine, if_pos hall, if_pos hcommented] at hsame
  exact ne_uncomment token.ne_nil hcommented hsame

/-- The lines that the second toggle reaches. -/
theorem Reaching.again {twice : List Char} {again : Bool}
    (h : Reaching token.text text selection allCommented result)
    (h' : Reaching token.text result carried again twice)
    (hon : ∀ n, OnSelection result carried n ↔ OnSelection text selection n)
    (hbare : ∀ n line, OnSelection text selection n ∨ Follows text selection n →
      (text.splitOn '\n')[n]? = some line →
        ¬ Bare token.text (toggledLine token.text allCommented line)) :
    ∀ n line, OnSelection text selection n ∨ Follows text selection n →
      (text.splitOn '\n')[n]? = some line → (twice.splitOn '\n')[n]? =
        some (toggledLine token.text true (toggledLine token.text allCommented line)) := by
  have hreached (n : ℕ) : OnSelection result carried n ∨ Follows result carried n ↔
      OnSelection text selection n ∨ Follows text selection n := by
    simp only [Follows, hon]
  have hagain : again = true := by
    refine h'.all_iff.mpr fun n line hn hline ↦ ?_
    have hn := (hreached n).mp hn
    have hlt : n < (text.splitOn '\n').length := by
      rw [← h.length]
      exact (List.getElem?_eq_some_iff.mp hline).1
    have hbefore := List.getElem?_eq_getElem hlt
    rw [h.reached n _ hn hbefore] at hline
    exact Option.some.inj hline ▸ hbare n _ hn hbefore
  intro n line hn hline
  rw [h'.reached n _ ((hreached n).mpr hn) (h.reached n line hn hline), hagain]

/-- **Toggling line comments goes by the selected lines exactly when what follows them stays.** -/
theorem togglesSelection_iff (htoken : lineCommentToken languageName = some token)
    (hsorted : selection.Sorted) (hle : ∀ r ∈ selection.regions, r.max ≤ text.length) :
    TogglesSelection lineCommentToken languageName token.text text selection ↔
      FollowersStay token.text text selection := by
  obtain ⟨result, carried, allCommented, hrun, hcarried, hreaching, hcarry⟩ :=
    exists_toggled text htoken hsorted
  constructor
  · rintro ⟨result', carried', hrun', htoggles, hrestores⟩
    obtain ⟨rfl, rfl⟩ := Prod.mk.inj (Option.some.inj (hrun.symm.trans hrun'))
    have hstay := hreaching.togglesLines_iff.mp htoggles
    refine or_iff_not_imp_left.mpr fun hvisible ↦ ?_
    push Not at hvisible
    obtain ⟨e, line, he, hline, hbody⟩ := hvisible
    obtain ⟨rfl, hcommented⟩ := hreaching.stays hstay he hline hbody
    have hbare : ∀ n line, Follows text selection n → (text.splitOn '\n')[n]? = some line →
        ¬ Bare token.text line := by
      intro n line hn hline hbare
      exact hbare.2 (hreaching.stays hstay hn hline hbare.1).2
    refine ⟨hbare, ?_, ?_⟩
    · by_contra hnone
      push Not at hnone
      refine Bool.false_ne_true (hreaching.all_iff.mpr fun n line hn hline ↦ ?_)
      rcases hn with hn | hn
      · exact hnone n line hn hline
      · exact hbare n line hn hline
    · by_contra hnone
      push Not at hnone
      obtain ⟨carried', hrun'⟩ := hrestores hnone
      obtain ⟨twice, carried'', again, hrun'', -, hagain, -⟩ :=
        exists_toggled result htoken hcarried
      obtain ⟨rfl, -⟩ := Prod.mk.inj (Option.some.inj (hrun'.symm.trans hrun''))
      have htwice := hreaching.again hagain (hcarry hle fun _ _ _ _ ↦ nofun)
        (fun n line _ _ ↦ not_bare_toggledLine token nofun) e line (.inr he) hline
      rw [hline, hstay e line he hline, toggledLine, if_pos rfl, if_pos hcommented] at htwice
      exact ne_uncomment token.ne_nil hcommented (Option.some.inj htwice).symm
  · rintro (hblank | ⟨hbare, ⟨m, bare, hm, hmline, hmbare⟩, k, done, hk, hkline, hdone⟩)
    · have hfollower : ∀ n line, Follows text selection n → (text.splitOn '\n')[n]? = some line →
          ¬ Bare token.text line ∧ ¬ Commented token.text line := fun n line hn hline ↦
        ⟨fun hbare ↦ hbare.1 (hblank n line hn hline),
          not_commented_of_body token.ne_nil (hblank n line hn hline)⟩
      refine ⟨result, carried, hrun, hreaching.togglesLines_iff.mpr fun n line hn hline ↦
        toggledLine_eq_self (hfollower n line hn hline).1 fun _ ↦ (hfollower n line hn hline).2,
        fun hnone ↦ ?_⟩
      obtain ⟨twice, carried', again, hrun', -, hagain, -⟩ :=
        exists_toggled result htoken hcarried
      have hcommented : ∀ n line, OnSelection text selection n ∨ Follows text selection n →
          (text.splitOn '\n')[n]? = some line → ¬ Commented token.text line :=
        fun n line hn hline ↦ hn.elim (hnone n line · hline) fun hn ↦ (hfollower n line hn hline).2
      have hon := hcarry hle fun n line hn hline _ ↦ hcommented n line hn hline
      have htwice := hreaching.again hagain hon fun n line hn hline ↦
        not_bare_toggledLine token fun hall ↦
          ⟨hreaching.all_iff.mp hall n line hn hline, hcommented n line hn hline⟩
      have hlines : twice.splitOn '\n' = text.splitOn '\n' := by
        refine List.ext_getElem? fun n ↦ ?_
        by_cases hn : OnSelection text selection n ∨ Follows text selection n
        · cases hline : (text.splitOn '\n')[n]? with
          | none =>
            rw [List.getElem?_eq_none_iff] at hline ⊢
            rwa [hagain.length, hreaching.length]
          | some line =>
            rw [htwice n line hn hline, toggledLine_toggledLine token
              (fun hall ↦ hreaching.all_iff.mp hall n line hn hline) (hcommented n line hn hline)]
        · have hn' : ¬ (OnSelection result carried n ∨ Follows result carried n) := by
            simpa only [Follows, hon] using hn
          rw [hagain.others n hn', hreaching.others n hn]
      obtain rfl : twice = text := by
        have hjoin (base : List Char) : ['\n'].intercalate (base.splitOn '\n') = base :=
          List.intercalate_splitOn '\n'
        rw [← hjoin twice, hlines, hjoin]
      exact ⟨carried', hrun'⟩
    · have hall : ¬ allCommented = true := fun hall ↦
        hreaching.all_iff.mp hall m bare (.inl hm) hmline hmbare
      exact ⟨result, carried, hrun, hreaching.togglesLines_iff.mpr fun n line hn hline ↦
        toggledLine_eq_self (hbare n line hn hline) (absurd · hall),
        fun hnone ↦ absurd hdone (hnone k done hk hkline)⟩

end

def slashes : CommentToken := ⟨['/', '/'], by decide, by simp [isWhitespace]⟩

theorem toggles_above_blank : TogglesSelection (fun _ ↦ some slashes) "Rust" slashes.text
    "a\n\nb".toList ⟨[.new 0 0]⟩ := by
  refine (togglesSelection_iff rfl (List.isChain_singleton _) (by decide)).mpr (.inl ?_)
  rintro n line ⟨-, m, rfl, hm⟩ hline
  obtain ⟨r, hr, -, hmax⟩ := onSelection_iff.mp hm
  obtain rfl := List.mem_singleton.mp hr
  obtain rfl : m = 0 := Nat.le_zero.mp hmax
  have hlines : ("a\n\nb".toList.splitOn '\n')[0 + 1]? = some [] := by decide
  rw [hlines] at hline
  obtain rfl := Option.some.inj hline
  rfl

/-- The second line is commented, although the only caret is on the first one. -/
theorem line_below_commented : ¬ TogglesSelection (fun _ ↦ some slashes) "Rust" slashes.text
    "a\nb".toList ⟨[.new 0 0]⟩ := by
  rintro ⟨result, carried, hrun, htoggles, -⟩
  have heval : (toggled (fun _ ↦ some slashes) "Rust" "a\nb".toList ⟨[.new 0 0]⟩).map Prod.fst =
      some "// a\n// b".toList := by decide +kernel
  rw [hrun] at heval
  obtain rfl := Option.some.inj heval
  have hother : ¬ OnSelection "a\nb".toList ⟨[.new 0 0]⟩ 1 := by
    rw [onSelection_iff]
    decide
  exact absurd (htoggles.others 1 hother) (by decide)

end EeEditor.EditOps
