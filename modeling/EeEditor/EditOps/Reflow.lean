import Mathlib.Data.List.Chain
import Mathlib.Data.List.Forall2
import EeEditor.EditOps.DisplayColumns
import EeEditor.Orchestrator.Text
import EeEditor.Sequence.Filling
import EeEditor.Sequence.Lines

/-!
# Reflowed paragraphs

`hard_wrap_lines` and `flush_wrapped_paragraph` of `xi-core-lib/src/edit_ops/align.rs`. The words of
a paragraph are filled into lines greedily. Whether a line holds a word already is told from its
width, so that a word is put right after one that takes no columns at the beginning of a line.
-/

namespace EeEditor.EditOps

open Orchestrator (isWhitespace)

/-! ## Words -/

/-- `split_whitespace`. -/
def splitWhitespace (text : List Char) : List (List Char) :=
  (text.splitOnP isWhitespace).filter (· ≠ [])

/-- `line.trim().is_empty()`. -/
def isBlankLine (line : List Char) : Bool := line.all isWhitespace

def IsWord (word : List Char) : Prop := word ≠ [] ∧ ∀ c ∈ word, isWhitespace c = false

variable {s t word line : List Char}

theorem isWord_of_mem (h : word ∈ splitWhitespace s) : IsWord word := by
  rw [splitWhitespace, List.mem_filter, decide_eq_true_eq] at h
  exact ⟨h.2, forall_mem_of_mem_splitOnP h.1⟩

theorem isWord_of_mem_flatMap (lines : List (List Char)) :
    ∀ word ∈ lines.flatMap splitWhitespace, IsWord word := by
  intro word hword
  obtain ⟨line, -, hmem⟩ := List.mem_flatMap.mp hword
  exact isWord_of_mem hmem

theorem splitWhitespace_append_cons {c : Char} (hc : isWhitespace c = true) (s t : List Char) :
    splitWhitespace (s ++ c :: t) = splitWhitespace s ++ splitWhitespace t := by
  rw [splitWhitespace, List.splitOnP_append_cons s t hc, List.filter_append, splitWhitespace,
    splitWhitespace]

theorem IsWord.splitWhitespace_eq (h : IsWord word) : splitWhitespace word = [word] := by
  rw [splitWhitespace, List.splitOnP_eq_singleton h.2, List.filter_singleton]
  simp [h.1]

theorem IsWord.append (hword : IsWord word) (ht : ∀ c ∈ t, isWhitespace c = false) :
    IsWord (word ++ t) :=
  ⟨List.append_ne_nil_of_left_ne_nil hword.1 t, List.forall_mem_append.mpr ⟨hword.2, ht⟩⟩

theorem IsWord.notMem_tab (h : IsWord word) : '\t' ∉ word := fun hmem ↦ nomatch h.2 '\t' hmem

theorem isBlankLine_eq_true : isBlankLine line = true ↔ ∀ c ∈ line, isWhitespace c = true :=
  List.all_eq_true

/-- Blanks before a text belong to no word. -/
theorem splitWhitespace_indent (hs : isBlankLine s = true) (t : List Char) :
    splitWhitespace (s ++ t) = splitWhitespace t := by
  rw [isBlankLine_eq_true] at hs
  induction s with
  | nil => rfl
  | cons c s ih =>
    obtain ⟨hc, hs⟩ := List.forall_mem_cons.mp hs
    rw [List.cons_append, ← List.nil_append (c :: _), splitWhitespace_append_cons hc, ih hs]
    rfl

theorem splitWhitespace_eq_nil : splitWhitespace line = [] ↔ isBlankLine line = true := by
  induction line using segments_induction isWhitespace with
  | last line hline =>
    rcases eq_or_ne line [] with rfl | hne
    · exact ⟨fun _ ↦ rfl, fun _ ↦ rfl⟩
    · rw [IsWord.splitWhitespace_eq ⟨hne, hline⟩, isBlankLine_eq_true]
      obtain ⟨c, hc⟩ := List.exists_mem_of_ne_nil line hne
      constructor
      · exact fun h ↦ absurd h (List.cons_ne_nil line [])
      · exact fun h ↦ absurd ((hline c hc).symm.trans (h c hc)) Bool.false_ne_true
  | cons segment c rest hsegment hc ih =>
    rw [splitWhitespace_append_cons hc, List.append_eq_nil_iff, ih, isBlankLine_eq_true,
      isBlankLine_eq_true, List.forall_mem_append, List.forall_mem_cons]
    rcases eq_or_ne segment [] with rfl | hne
    · exact ⟨fun h ↦ ⟨List.forall_mem_nil _, hc, h.2⟩, fun h ↦ ⟨rfl, h.2.2⟩⟩
    · rw [IsWord.splitWhitespace_eq ⟨hne, hsegment⟩]
      obtain ⟨d, hd⟩ := List.exists_mem_of_ne_nil segment hne
      constructor
      · exact fun h ↦ absurd h.1 (List.cons_ne_nil segment [])
      · exact fun h ↦ absurd ((hsegment d hd).symm.trans (h.1 d hd)) Bool.false_ne_true

/-- A word at the end of a text adds one word at most. -/
theorem length_splitWhitespace_append_word (hword : IsWord word) (s : List Char) :
    (splitWhitespace (s ++ word)).length ≤ (splitWhitespace s).length + 1 := by
  induction s using segments_induction isWhitespace with
  | last s hs =>
    rcases eq_or_ne s [] with rfl | hne
    · rw [List.nil_append, hword.splitWhitespace_eq, List.length_singleton]
      exact Nat.le_add_left 1 _
    · rw [IsWord.splitWhitespace_eq (IsWord.append ⟨hne, hs⟩ hword.2), List.length_singleton]
      exact Nat.le_add_left 1 _
  | cons segment c rest hsegment hc ih =>
    rw [List.append_assoc, List.cons_append, splitWhitespace_append_cons hc,
      splitWhitespace_append_cons hc, List.length_append, List.length_append]
    omega

/-! ## The code -/

/-- The loop over the words of a paragraph. -/
structure Flush where
  wrapped : List (List Char)
  current : List Char
  currentWidth : ℕ

/-- `hard_wrap_lines` between two lines. -/
structure HardWrap where
  wrapped : List (List Char)
  paragraphWords : List (List Char)
  paragraphIndent : List Char

section

variable (charWidth : CharWidth) (tabSize width : ℕ)

def Flush.addWord (indentText : List Char) (f : Flush) (word : List Char) : Flush :=
  let indentWidth := displayColForStr charWidth tabSize indentText
  let wordWidth := displayColForStr charWidth tabSize word
  let separatorWidth := if f.currentWidth > indentWidth then 1 else 0
  if f.currentWidth > indentWidth ∧ f.currentWidth + separatorWidth + wordWidth > width then
    ⟨f.wrapped ++ [f.current], indentText ++ word, indentWidth + wordWidth⟩
  else if f.currentWidth > indentWidth then
    ⟨f.wrapped, f.current ++ [' '] ++ word, f.currentWidth + 1 + wordWidth⟩
  else ⟨f.wrapped, f.current ++ word, f.currentWidth + wordWidth⟩

/-- `flush_wrapped_paragraph`. -/
def HardWrap.flush (h : HardWrap) : HardWrap :=
  if h.paragraphWords = [] then ⟨h.wrapped, [], []⟩
  else
    let indentText := expandTabs charWidth tabSize h.paragraphIndent
    let indentWidth := displayColForStr charWidth tabSize indentText
    let f := h.paragraphWords.foldl (Flush.addWord charWidth tabSize width indentText)
      ⟨h.wrapped, indentText, indentWidth⟩
    ⟨f.wrapped ++ [f.current], [], []⟩

def HardWrap.addLine (h : HardWrap) (line : List Char) : HardWrap :=
  if isBlankLine line then
    let h := h.flush charWidth tabSize width
    { h with wrapped := h.wrapped ++ [[]] }
  else
    let paragraphIndent :=
      if h.paragraphWords = [] then line.takeWhile isWhitespace else h.paragraphIndent
    ⟨h.wrapped, h.paragraphWords ++ splitWhitespace line, paragraphIndent⟩

def hardWrapLines (lines : List (List Char)) : List (List Char) :=
  let width := max width 1
  ((lines.foldl (HardWrap.addLine charWidth tabSize width) ⟨[], [], []⟩).flush charWidth tabSize
    width).wrapped

end

/-! ## What reflowing is for -/

/-- The indent of a paragraph. -/
def indentOf (paragraph : List (List Char)) : List Char :=
  (paragraph.headD []).takeWhile isWhitespace

def expandedIndent (charWidth : CharWidth) (tabSize : ℕ) (paragraph : List (List Char)) :
    List Char :=
  expandTabs charWidth tabSize (indentOf paragraph)

structure WrapsParagraph (charWidth : CharWidth) (tabSize width : ℕ)
    (paragraph wrapped : List (List Char)) : Prop where
  words : wrapped.flatMap splitWhitespace = paragraph.flatMap splitWhitespace
  indented : ∀ line ∈ wrapped, expandedIndent charWidth tabSize paragraph <+: line
  narrow : ∀ line ∈ wrapped, 1 < (splitWhitespace line).length →
    displayColForStr charWidth tabSize line ≤ width
  full : wrapped.IsChain fun line next ↦ ∀ word, (splitWhitespace next).head? = some word →
    width < displayColForStr charWidth tabSize line + 1 + displayColForStr charWidth tabSize word

/-- Paragraphs are what lies between blank lines. -/
structure Reflows (charWidth : CharWidth) (tabSize width : ℕ) (lines : List (List Char)) :
    Prop where
  paragraphs : List.Forall₂ (WrapsParagraph charWidth tabSize width) (lines.splitOnP isBlankLine)
    ((hardWrapLines charWidth tabSize width lines).splitOnP isBlankLine)
  again : hardWrapLines charWidth tabSize width (hardWrapLines charWidth tabSize width lines) =
    hardWrapLines charWidth tabSize width lines

/-! ## One paragraph -/

def lineText (indentText : List Char) (words : List (List Char)) : List Char :=
  indentText ++ [' '].intercalate words

/-- The words take no more columns than there are. -/
def FitsWidth (charWidth : CharWidth) (tabSize width : ℕ) (indentText : List Char)
    (words : List (List Char)) : Prop :=
  displayColForStr charWidth tabSize (lineText indentText words) ≤ width

instance (charWidth : CharWidth) (tabSize width : ℕ) (indentText : List Char) :
    DecidablePred (FitsWidth charWidth tabSize width indentText) :=
  fun _ ↦ inferInstanceAs (Decidable (_ ≤ _))

section

variable {charWidth : CharWidth} {tabSize width : ℕ} {indentText : List Char} {f : Flush}
  {words line' : List (List Char)}

theorem lineText_singleton (indentText word : List Char) :
    lineText indentText [word] = indentText ++ word := by
  rw [lineText, List.intercalate_singleton]

theorem lineText_append (hne : words ≠ []) (word : List Char) :
    lineText indentText (words ++ [word]) = lineText indentText words ++ [' '] ++ word := by
  obtain ⟨init, last, rfl⟩ := List.eq_nil_or_concat' words |>.resolve_left hne
  rw [lineText, intercalate_concat, ended_append, ended_cons, ended_nil, lineText,
    intercalate_concat]
  simp

theorem splitWhitespace_lineText (hindent : isBlankLine indentText = true)
    (hwords : ∀ word ∈ words, IsWord word) :
    splitWhitespace (lineText indentText words) = words := by
  induction words using List.reverseRecOn with
  | nil =>
    rw [lineText, List.intercalate_nil, splitWhitespace_indent hindent]
    rfl
  | append_singleton init word ih =>
    rw [List.forall_mem_append, List.forall_mem_singleton] at hwords
    rcases eq_or_ne init [] with rfl | hne
    · rw [List.nil_append, lineText_singleton, splitWhitespace_indent hindent,
        hwords.2.splitWhitespace_eq]
    · rw [lineText_append hne, List.append_assoc, List.singleton_append,
        splitWhitespace_append_cons rfl, ih hwords.1, hwords.2.splitWhitespace_eq]

theorem takeWhile_lineText (hindent : isBlankLine indentText = true) (hword : IsWord word)
    (words : List (List Char)) :
    (lineText indentText (word :: words)).takeWhile isWhitespace = indentText := by
  obtain ⟨c, tail, htail⟩ : ∃ c tail, [' '].intercalate (word :: words) = c :: tail ∧
      isWhitespace c = false := by
    obtain ⟨hne, hall⟩ := hword
    obtain ⟨c, word, rfl⟩ := List.exists_cons_of_ne_nil hne
    have hc := hall c List.mem_cons_self
    rcases eq_or_ne words [] with rfl | hwords
    · exact ⟨c, word, List.intercalate_singleton, hc⟩
    · exact ⟨c, _, List.intercalate_cons_of_ne_nil hwords, hc⟩
  rw [lineText, List.takeWhile_append_of_pos (isBlankLine_eq_true.mp hindent), htail.1,
    List.takeWhile_cons, if_neg (Bool.eq_false_iff.mp htail.2), List.append_nil]

theorem displayColForStr_separated (hspace : charWidth ' ' = some 1) (hword : IsWord word)
    (s : List Char) : displayColForStr charWidth tabSize (s ++ [' '] ++ word) =
      displayColForStr charWidth tabSize s + 1 + displayColForStr charWidth tabSize word := by
  have hcol : displayColForStr charWidth tabSize [' '] = 1 := by
    rw [displayColForStr, displayColFrom, if_neg (by decide), hspace]
    rfl
  rw [displayColForStr_append hword.notMem_tab, displayColForStr_append (by decide), hcol]

/-! ### Steps -/

namespace Flush

/-- What is written if no word follows. -/
def lines (f : Flush) : List (List Char) := f.wrapped ++ [f.current]

theorem addWord_eq (f : Flush) (word : List Char) :
    f.addWord charWidth tabSize width indentText word =
      if displayColForStr charWidth tabSize indentText < f.currentWidth then
        if width < f.currentWidth + 1 + displayColForStr charWidth tabSize word then
          ⟨f.wrapped ++ [f.current], indentText ++ word,
            displayColForStr charWidth tabSize indentText + displayColForStr charWidth tabSize word⟩
        else ⟨f.wrapped, f.current ++ [' '] ++ word,
          f.currentWidth + 1 + displayColForStr charWidth tabSize word⟩
      else ⟨f.wrapped, f.current ++ word,
        f.currentWidth + displayColForStr charWidth tabSize word⟩ := by
  rw [addWord]
  by_cases hwidth : displayColForStr charWidth tabSize indentText < f.currentWidth <;> simp [hwidth]

theorem addWord_wraps (hwidth : displayColForStr charWidth tabSize indentText < f.currentWidth)
    (hfull : width < f.currentWidth + 1 + displayColForStr charWidth tabSize word) :
    f.addWord charWidth tabSize width indentText word = ⟨f.wrapped ++ [f.current],
      indentText ++ word,
      displayColForStr charWidth tabSize indentText + displayColForStr charWidth tabSize word⟩ := by
  rw [addWord_eq, if_pos hwidth, if_pos hfull]

theorem addWord_takes (hwidth : displayColForStr charWidth tabSize indentText < f.currentWidth)
    (hfits : f.currentWidth + 1 + displayColForStr charWidth tabSize word ≤ width) :
    f.addWord charWidth tabSize width indentText word = ⟨f.wrapped, f.current ++ [' '] ++ word,
      f.currentWidth + 1 + displayColForStr charWidth tabSize word⟩ := by
  rw [addWord_eq, if_pos hwidth, if_neg (Nat.not_lt.mpr hfits)]

/-- No separator. -/
theorem addWord_glues (hwidth : f.currentWidth ≤ displayColForStr charWidth tabSize indentText) :
    f.addWord charWidth tabSize width indentText word = ⟨f.wrapped, f.current ++ word,
      f.currentWidth + displayColForStr charWidth tabSize word⟩ := by
  rw [addWord_eq, if_neg (Nat.not_lt.mpr hwidth)]

/-- A line with words, the first of which has none after it if it takes no columns. -/
structure Holds (charWidth : CharWidth) (tabSize : ℕ) (indentText : List Char) (f : Flush)
    (first : List Char) (rest : List (List Char)) : Prop where
  isWord : ∀ word ∈ first :: rest, IsWord word
  current : f.current = lineText indentText (first :: rest)
  currentWidth : f.currentWidth = displayColForStr charWidth tabSize f.current
  wide : displayColForStr charWidth tabSize indentText + displayColForStr charWidth tabSize first ≤
    f.currentWidth
  alone : displayColForStr charWidth tabSize first = 0 → rest = []

variable {first : List Char} {rest : List (List Char)}

theorem holds_first (hfirst : IsWord first) (wrapped : List (List Char)) :
    Holds charWidth tabSize indentText ⟨wrapped, indentText ++ first,
      displayColForStr charWidth tabSize indentText + displayColForStr charWidth tabSize first⟩
      first [] where
  isWord := List.forall_mem_singleton.mpr hfirst
  current := (lineText_singleton indentText first).symm
  currentWidth := (displayColForStr_append hfirst.notMem_tab indentText).symm
  wide := Nat.le_refl _
  alone := fun _ ↦ rfl

namespace Holds

theorem takes (h : Holds charWidth tabSize indentText f first rest)
    (hspace : charWidth ' ' = some 1) (hword : IsWord word)
    (hfirst : displayColForStr charWidth tabSize first ≠ 0) :
    Holds charWidth tabSize indentText ⟨f.wrapped, f.current ++ [' '] ++ word,
      f.currentWidth + 1 + displayColForStr charWidth tabSize word⟩ first (rest ++ [word]) where
  isWord := by
    rw [← List.cons_append, List.forall_mem_append, List.forall_mem_singleton]
    exact ⟨h.isWord, hword⟩
  current := by
    rw [← List.cons_append, lineText_append (List.cons_ne_nil first rest), ← h.current]
  currentWidth := by rw [displayColForStr_separated hspace hword, ← h.currentWidth]
  wide := h.wide.trans (Nat.le_add_right_of_le (Nat.le_add_right f.currentWidth 1))
  alone := fun hzero ↦ absurd hzero hfirst

theorem fitsWidth_iff (h : Holds charWidth tabSize indentText f first rest)
    (hspace : charWidth ' ' = some 1) (hword : IsWord word) :
    FitsWidth charWidth tabSize width indentText (first :: rest ++ [word]) ↔
      f.currentWidth + 1 + displayColForStr charWidth tabSize word ≤ width := by
  rw [FitsWidth, lineText_append (List.cons_ne_nil first rest), ← h.current,
    displayColForStr_separated hspace hword, ← h.currentWidth]

theorem lt_currentWidth (h : Holds charWidth tabSize indentText f first rest)
    (hfirst : displayColForStr charWidth tabSize first ≠ 0) :
    displayColForStr charWidth tabSize indentText < f.currentWidth := by
  have hwide := h.wide
  omega

/-- The words are filled into lines greedily. -/
theorem foldl_of_alone (h : Holds charWidth tabSize indentText f first rest)
    (hspace : charWidth ' ' = some 1) (hwords : ∀ word ∈ words, IsWord word)
    (halone : Alone (displayColForStr charWidth tabSize · = 0)
      (greedyFrom (FitsWidth charWidth tabSize width indentText) (first :: rest) words)) :
    (words.foldl (addWord charWidth tabSize width indentText) f).lines =
      f.wrapped ++ (greedyFrom (FitsWidth charWidth tabSize width indentText) (first :: rest)
        words).map (lineText indentText) := by
  induction words generalizing f first rest with
  | nil => rw [List.foldl_nil, greedyFrom, List.map_singleton, lines, h.current]
  | cons word words ih =>
    obtain ⟨hword, hwords⟩ := List.forall_mem_cons.mp hwords
    have hfirst : displayColForStr charWidth tabSize first ≠ 0 := fun hzero ↦ by
      have hnil := halone _ List.suffix_rfl first (rest ++ word :: words)
        (flatten_greedyFrom _ _) hzero
      simp at hnil
    have hwidth := h.lt_currentWidth hfirst
    rw [greedyFrom] at halone ⊢
    rw [List.foldl_cons]
    split_ifs at halone ⊢ with hfits
    · rw [addWord_takes hwidth ((h.fitsWidth_iff hspace hword).mp hfits)]
      exact ih (h.takes hspace hword hfirst) hwords halone
    · have hfull := mt (h.fitsWidth_iff hspace hword).mpr hfits
      rw [addWord_wraps hwidth (Nat.not_le.mp hfull),
        ih (holds_first hword _) hwords (alone_cons.mp halone).2, h.current, List.map_cons,
        List.append_assoc, List.singleton_append]

end Holds

/-! ### Glued words -/

/-- The words written so far. -/
def writtenWords (f : Flush) : List (List Char) := f.lines.flatMap splitWhitespace

theorem writtenWords_eq (wrapped : List (List Char)) (current : List Char) (currentWidth : ℕ) :
    (mk wrapped current currentWidth).writtenWords =
      wrapped.flatMap splitWhitespace ++ splitWhitespace current := by
  rw [writtenWords, lines, List.flatMap_append, List.flatMap_singleton]

variable (charWidth tabSize width) in
theorem length_writtenWords_addWord_le (hindent : isBlankLine indentText = true)
    (hword : IsWord word) (f : Flush) :
    (f.addWord charWidth tabSize width indentText word).writtenWords.length ≤
      f.writtenWords.length + 1 := by
  obtain ⟨wrapped, current, currentWidth⟩ := f
  rw [addWord_eq]
  split_ifs <;> rw [writtenWords_eq, writtenWords_eq]
  · rw [splitWhitespace_indent hindent, hword.splitWhitespace_eq, List.flatMap_append,
      List.flatMap_singleton, List.length_append, List.length_singleton]
  · rw [List.append_assoc, List.singleton_append, splitWhitespace_append_cons rfl,
      hword.splitWhitespace_eq, ← List.append_assoc, List.length_append, List.length_singleton]
  · rw [List.length_append, List.length_append, Nat.add_assoc]
    exact Nat.add_le_add_left (length_splitWhitespace_append_word hword current) _

variable (charWidth tabSize width) in
theorem length_writtenWords_foldl_le (hindent : isBlankLine indentText = true)
    (hwords : ∀ word ∈ words, IsWord word) (f : Flush) :
    (words.foldl (addWord charWidth tabSize width indentText) f).writtenWords.length ≤
      f.writtenWords.length + words.length := by
  induction words generalizing f with
  | nil => exact Nat.le_refl _
  | cons word words ih =>
    obtain ⟨hword, hwords⟩ := List.forall_mem_cons.mp hwords
    have hstep := length_writtenWords_addWord_le charWidth tabSize width hindent hword f
    have hrest := ih hwords (f.addWord charWidth tabSize width indentText word)
    rw [List.foldl_cons, List.length_cons]
    omega

variable (width) in
/-- A word after one that takes no columns is not a word of its own. -/
theorem Holds.length_writtenWords_addWord
    (h : Holds charWidth tabSize indentText f first rest)
    (hindent : isBlankLine indentText = true) (hword : IsWord word)
    (hzero : displayColForStr charWidth tabSize first = 0) :
    (f.addWord charWidth tabSize width indentText word).writtenWords.length =
      f.writtenWords.length := by
  obtain rfl := h.alone hzero
  have hfirst := h.isWord first List.mem_cons_self
  have hcurrent := h.current
  rw [lineText_singleton] at hcurrent
  have hwidth : f.currentWidth = displayColForStr charWidth tabSize indentText := by
    rw [h.currentWidth, hcurrent, displayColForStr_append hfirst.notMem_tab, hzero, Nat.add_zero]
  rw [addWord_glues hwidth.le, writtenWords_eq, hcurrent, List.append_assoc,
    splitWhitespace_indent hindent, (hfirst.append hword.2).splitWhitespace_eq, writtenWords, lines,
    hcurrent, List.flatMap_append, List.flatMap_singleton, splitWhitespace_indent hindent,
    hfirst.splitWhitespace_eq, List.length_append, List.length_append, List.length_singleton,
    List.length_singleton]

/-- If no word is lost, no line begins with a word that takes no columns. -/
theorem Holds.alone_of_length (h : Holds charWidth tabSize indentText f first rest)
    (hspace : charWidth ' ' = some 1) (hindent : isBlankLine indentText = true)
    (hwords : ∀ word ∈ words, IsWord word)
    (hlength : f.writtenWords.length + words.length ≤
      (words.foldl (addWord charWidth tabSize width indentText) f).writtenWords.length) :
    Alone (displayColForStr charWidth tabSize · = 0)
      (greedyFrom (FitsWidth charWidth tabSize width indentText) (first :: rest) words) := by
  induction words generalizing f first rest with
  | nil =>
    rw [greedyFrom, alone_cons]
    refine ⟨fun word words heq hzero ↦ ?_, alone_nil⟩
    rw [List.flatten_nil, List.append_nil] at heq
    obtain ⟨rfl, rfl⟩ := List.cons.inj heq
    exact h.alone hzero
  | cons word words ih =>
    obtain ⟨hword, hwords⟩ := List.forall_mem_cons.mp hwords
    rw [List.foldl_cons, List.length_cons] at hlength
    have hrest := length_writtenWords_foldl_le charWidth tabSize width hindent hwords
      (f.addWord charWidth tabSize width indentText word)
    have hstep := length_writtenWords_addWord_le charWidth tabSize width hindent hword f
    have hfirst : displayColForStr charWidth tabSize first ≠ 0 := fun hzero ↦ by
      have hglued := h.length_writtenWords_addWord width hindent hword hzero
      omega
    have hwidth := h.lt_currentWidth hfirst
    have hkept : (f.addWord charWidth tabSize width indentText word).writtenWords.length +
        words.length ≤ (words.foldl (addWord charWidth tabSize width indentText)
          (f.addWord charWidth tabSize width indentText word)).writtenWords.length := by omega
    rw [greedyFrom]
    split_ifs with hfits
    · rw [addWord_takes hwidth ((h.fitsWidth_iff hspace hword).mp hfits)] at hkept
      exact ih (h.takes hspace hword hfirst) hwords hkept
    · have hfull := mt (h.fitsWidth_iff hspace hword).mpr hfits
      rw [addWord_wraps hwidth (Nat.not_le.mp hfull)] at hkept
      refine alone_cons.mpr ⟨fun word' words' heq hzero ↦ ?_, ih (holds_first hword _) hwords
        hkept⟩
      rw [List.cons_append] at heq
      rw [← (List.cons.inj heq).1] at hzero
      exact absurd hzero hfirst

/-! ### Lines already written -/

/-- Other lines are written before. -/
def after (out : List (List Char)) (f : Flush) : Flush :=
  ⟨out ++ f.wrapped, f.current, f.currentWidth⟩

theorem addWord_after (out : List (List Char)) (f : Flush) (word : List Char) :
    (f.after out).addWord charWidth tabSize width indentText word =
      (f.addWord charWidth tabSize width indentText word).after out := by
  rcases Nat.lt_or_ge (displayColForStr charWidth tabSize indentText) f.currentWidth with hlt | hle
  · rcases Nat.lt_or_ge width (f.currentWidth + 1 + displayColForStr charWidth tabSize word) with
      hfull | hfits
    · rw [addWord_wraps (f := f.after out) hlt hfull, addWord_wraps hlt hfull, after, after,
        List.append_assoc]
    · rw [addWord_takes (f := f.after out) hlt hfits, addWord_takes hlt hfits]
      rfl
  · rw [addWord_glues (f := f.after out) hle, addWord_glues hle]
    rfl

variable (charWidth tabSize width indentText) in
theorem lines_foldl_after (out words : List (List Char)) (f : Flush) :
    (words.foldl (addWord charWidth tabSize width indentText) (f.after out)).lines =
      out ++ (words.foldl (addWord charWidth tabSize width indentText) f).lines := by
  rw [List.foldl_hom (after out) (addWord_after out), lines, after, List.append_assoc, lines]

/-- The last line ends with the word. -/
theorem exists_lines_addWord (f : Flush) (word : List Char) :
    ∃ before s, (f.addWord charWidth tabSize width indentText word).lines = before ++ [s ++ word] ∧
      ∀ line ∈ before, line ∈ f.lines := by
  rw [addWord_eq]
  split_ifs
  · exact ⟨f.lines, indentText, rfl, fun _ h ↦ h⟩
  · exact ⟨f.wrapped, f.current ++ [' '], rfl, fun _ h ↦ List.mem_append_left _ h⟩
  · exact ⟨f.wrapped, f.current, rfl, fun _ h ↦ List.mem_append_left _ h⟩

theorem isBlankLine_append_word (hword : IsWord word) (s : List Char) :
    isBlankLine (s ++ word) = false := by
  obtain ⟨c, hc⟩ := List.exists_mem_of_ne_nil word hword.1
  have hall : word.all isWhitespace = false :=
    List.all_eq_false.mpr ⟨c, hc, Bool.not_eq_true _ ▸ hword.2 c hc⟩
  rw [isBlankLine, List.all_append, hall, Bool.and_false]

theorem isBlankLine_lines_foldl (hwords : ∀ word ∈ words, IsWord word)
    (hf : ∀ line ∈ f.lines, isBlankLine line = false) :
    ∀ line ∈ (words.foldl (addWord charWidth tabSize width indentText) f).lines,
      isBlankLine line = false := by
  induction words generalizing f with
  | nil => exact hf
  | cons word words ih =>
    obtain ⟨hword, hwords⟩ := List.forall_mem_cons.mp hwords
    obtain ⟨before, s, hlines, hbefore⟩ := f.exists_lines_addWord word
    refine ih hwords ?_
    rw [hlines, List.forall_mem_append, List.forall_mem_singleton]
    exact ⟨fun line hline ↦ hf line (hbefore line hline), isBlankLine_append_word hword s⟩

end Flush

/-! ## Paragraphs -/

variable {paragraph other lines : List (List Char)}

/-- What is written for a paragraph. -/
def wrapParagraph (charWidth : CharWidth) (tabSize width : ℕ) (paragraph : List (List Char)) :
    List (List Char) :=
  (HardWrap.flush charWidth tabSize width
    ⟨[], paragraph.flatMap splitWhitespace, indentOf paragraph⟩).wrapped

theorem HardWrap.flush_eq (out words : List (List Char)) (indent : List Char) :
    HardWrap.flush charWidth tabSize width ⟨out, words, indent⟩ =
      ⟨out ++ (HardWrap.flush charWidth tabSize width ⟨[], words, indent⟩).wrapped, [], []⟩ := by
  rw [HardWrap.flush, HardWrap.flush]
  dsimp only
  split_ifs
  · rw [List.append_nil]
  · have hlines := Flush.lines_foldl_after charWidth tabSize width
      (expandTabs charWidth tabSize indent) out words ⟨[], expandTabs charWidth tabSize indent,
      displayColForStr charWidth tabSize (expandTabs charWidth tabSize indent)⟩
    rw [Flush.lines, Flush.after, List.append_nil, Flush.lines] at hlines
    rw [hlines]

theorem foldl_addLine_words (h : ∀ line ∈ paragraph, isBlankLine line = false) (hne : words ≠ [])
    (out : List (List Char)) (indent : List Char) :
    paragraph.foldl (HardWrap.addLine charWidth tabSize width) ⟨out, words, indent⟩ =
      ⟨out, words ++ paragraph.flatMap splitWhitespace, indent⟩ := by
  induction paragraph generalizing words with
  | nil => rw [List.foldl_nil, List.flatMap_nil, List.append_nil]
  | cons line paragraph ih =>
    obtain ⟨hline, hparagraph⟩ := List.forall_mem_cons.mp h
    rw [List.foldl_cons, HardWrap.addLine, hline, if_neg Bool.false_ne_true]
    dsimp only
    rw [if_neg hne, ih hparagraph (List.append_ne_nil_of_left_ne_nil hne _), List.flatMap_cons,
      List.append_assoc]

/-- The words of a paragraph are gathered under the indent of its first line. -/
theorem foldl_addLine (h : ∀ line ∈ paragraph, isBlankLine line = false) (out : List (List Char)) :
    paragraph.foldl (HardWrap.addLine charWidth tabSize width) ⟨out, [], []⟩ =
      ⟨out, paragraph.flatMap splitWhitespace, indentOf paragraph⟩ := by
  cases paragraph with
  | nil => rfl
  | cons line paragraph =>
    obtain ⟨hline, hparagraph⟩ := List.forall_mem_cons.mp h
    have hne : splitWhitespace line ≠ [] :=
      mt splitWhitespace_eq_nil.mp (Bool.eq_false_iff.mp hline)
    rw [List.foldl_cons, HardWrap.addLine, hline, if_neg Bool.false_ne_true]
    dsimp only
    rw [if_pos rfl, List.nil_append, foldl_addLine_words hparagraph hne, List.flatMap_cons]
    rfl

theorem wrapped_foldl_addLine (lines out : List (List Char)) :
    ((lines.foldl (HardWrap.addLine charWidth tabSize width) ⟨out, [], []⟩).flush charWidth tabSize
      width).wrapped =
      out ++ [[]].intercalate
        ((lines.splitOnP isBlankLine).map (wrapParagraph charWidth tabSize width)) := by
  induction lines using segments_induction isBlankLine generalizing out with
  | last paragraph hparagraph =>
    rw [foldl_addLine hparagraph, HardWrap.flush_eq, List.splitOnP_eq_singleton hparagraph,
      List.map_singleton, List.intercalate_singleton, wrapParagraph]
  | cons paragraph blank rest hparagraph hblank ih =>
    have hstep : HardWrap.addLine charWidth tabSize width
        ⟨out, paragraph.flatMap splitWhitespace, indentOf paragraph⟩ blank =
          ⟨out ++ wrapParagraph charWidth tabSize width paragraph ++ [[]], [], []⟩ := by
      rw [HardWrap.addLine, if_pos hblank, HardWrap.flush_eq, wrapParagraph]
    have hne : (rest.splitOnP isBlankLine).map (wrapParagraph charWidth tabSize width) ≠ [] :=
      mt List.map_eq_nil_iff.mp (List.splitOnP_ne_nil _ _)
    rw [List.foldl_append, foldl_addLine hparagraph, List.foldl_cons, hstep, ih,
      List.splitOnP_append_cons_of_forall_mem hparagraph blank hblank, List.map_cons,
      List.intercalate_cons_of_ne_nil hne]
    simp only [List.append_assoc]

/-- Paragraphs are wrapped one by one, and blank lines are emptied. -/
theorem hardWrapLines_eq (lines : List (List Char)) :
    hardWrapLines charWidth tabSize width lines = [[]].intercalate
      ((lines.splitOnP isBlankLine).map (wrapParagraph charWidth tabSize (max width 1))) := by
  rw [hardWrapLines, wrapped_foldl_addLine, List.nil_append]

theorem wrapParagraph_congr
    (hwords : paragraph.flatMap splitWhitespace = other.flatMap splitWhitespace)
    (hindent : expandedIndent charWidth tabSize paragraph =
      expandedIndent charWidth tabSize other) :
    wrapParagraph charWidth tabSize width paragraph =
      wrapParagraph charWidth tabSize width other := by
  rw [wrapParagraph, wrapParagraph, HardWrap.flush, HardWrap.flush]
  dsimp only
  rw [expandedIndent, expandedIndent] at hindent
  rw [hwords, hindent]

/-- The first word is put right after the indent. -/
theorem wrapParagraph_of_words {first : List Char}
    (h : paragraph.flatMap splitWhitespace = first :: words)
    (hindent : expandedIndent charWidth tabSize paragraph = indentText) :
    wrapParagraph charWidth tabSize width paragraph =
      (words.foldl (Flush.addWord charWidth tabSize width indentText) ⟨[], indentText ++ first,
        displayColForStr charWidth tabSize indentText +
          displayColForStr charWidth tabSize first⟩).lines := by
  rw [wrapParagraph, HardWrap.flush]
  dsimp only
  rw [expandedIndent] at hindent
  rw [h, hindent, if_neg (List.cons_ne_nil first words), List.foldl_cons,
    Flush.addWord_glues (Nat.le_refl _), Flush.lines]

variable (charWidth tabSize) in
theorem isBlankLine_indent (paragraph : List (List Char)) :
    isBlankLine (expandedIndent charWidth tabSize paragraph) = true := by
  rw [isBlankLine_eq_true]
  intro c hc
  rcases mem_expandTabsFrom hc with rfl | ⟨hmem, -⟩
  · rfl
  · exact List.mem_takeWhile_imp hmem

theorem isBlankLine_wrapParagraph :
    ∀ line ∈ wrapParagraph charWidth tabSize width paragraph, isBlankLine line = false := by
  cases hwords : paragraph.flatMap splitWhitespace with
  | nil =>
    rw [wrapParagraph, hwords]
    exact List.forall_mem_nil _
  | cons first words =>
    have hall := isWord_of_mem_flatMap paragraph
    rw [hwords, List.forall_mem_cons] at hall
    rw [wrapParagraph_of_words hwords rfl]
    refine Flush.isBlankLine_lines_foldl hall.2 ?_
    exact List.forall_mem_singleton.mpr (Flush.isBlankLine_append_word hall.1 _)

/-! ### Greedily filled paragraphs -/

/-- The words of a paragraph, filled into lines. -/
def filledLines (charWidth : CharWidth) (tabSize width : ℕ) (paragraph : List (List Char)) :
    List (List (List Char)) :=
  greedy (FitsWidth charWidth tabSize width (expandedIndent charWidth tabSize paragraph))
    (paragraph.flatMap splitWhitespace)

/-- From the beginning of a line on, a word that takes no columns has no word after it. -/
def StartsVisibly (charWidth : CharWidth) (tabSize width : ℕ) (paragraph : List (List Char)) :
    Prop :=
  Alone (displayColForStr charWidth tabSize · = 0) (filledLines charWidth tabSize width paragraph)

theorem startsVisibly_of_visible
    (h : ∀ word ∈ paragraph.flatMap splitWhitespace, displayColForStr charWidth tabSize word ≠ 0) :
    StartsVisibly charWidth tabSize width paragraph := by
  refine alone_of_forall_mem fun word hword ↦ h word ?_
  rwa [filledLines, flatten_greedy] at hword

theorem wrapParagraph_eq (hspace : charWidth ' ' = some 1)
    (h : StartsVisibly charWidth tabSize width paragraph) :
    wrapParagraph charWidth tabSize width paragraph =
      (filledLines charWidth tabSize width paragraph).map
        (lineText (expandedIndent charWidth tabSize paragraph)) := by
  rw [StartsVisibly, filledLines] at h
  rw [filledLines]
  have hall := isWord_of_mem_flatMap paragraph
  cases hwords : paragraph.flatMap splitWhitespace with
  | nil =>
    rw [wrapParagraph, hwords]
    rfl
  | cons first words =>
    rw [hwords] at h hall
    rw [List.forall_mem_cons] at hall
    rw [wrapParagraph_of_words hwords rfl,
      (Flush.holds_first hall.1 []).foldl_of_alone hspace hall.2 h, List.nil_append, greedy]

theorem isWord_of_mem_filledLines {group : List (List Char)}
    (h : group ∈ filledLines charWidth tabSize width paragraph) : ∀ word ∈ group, IsWord word := by
  intro word hword
  have hmem : word ∈ (filledLines charWidth tabSize width paragraph).flatten :=
    List.mem_flatten.mpr ⟨group, h, hword⟩
  rw [filledLines, flatten_greedy] at hmem
  exact isWord_of_mem_flatMap paragraph word hmem

theorem splitWhitespace_filledLine {group : List (List Char)}
    (h : group ∈ filledLines charWidth tabSize width paragraph) :
    splitWhitespace (lineText (expandedIndent charWidth tabSize paragraph) group) = group :=
  splitWhitespace_lineText (isBlankLine_indent charWidth tabSize paragraph)
    (isWord_of_mem_filledLines h)

theorem flatMap_filledLines :
    ((filledLines charWidth tabSize width paragraph).map
      (lineText (expandedIndent charWidth tabSize paragraph))).flatMap splitWhitespace =
        paragraph.flatMap splitWhitespace := by
  rw [List.flatMap_map, List.flatMap_def, List.map_congr_left fun group hgroup ↦
    splitWhitespace_filledLine hgroup, List.map_id', filledLines, flatten_greedy]

theorem wrapsParagraph_of_startsVisibly (hspace : charWidth ' ' = some 1)
    (h : StartsVisibly charWidth tabSize width paragraph) :
    WrapsParagraph charWidth tabSize width paragraph
      (wrapParagraph charWidth tabSize width paragraph) := by
  rw [wrapParagraph_eq hspace h]
  constructor
  case words => exact flatMap_filledLines
  case indented =>
    rw [List.forall_mem_map]
    exact fun group _ ↦ List.prefix_append _ _
  case narrow =>
    rw [List.forall_mem_map]
    intro group hgroup hlength
    rw [splitWhitespace_filledLine hgroup] at hlength
    exact fits_of_mem_greedy group hgroup hlength
  case full =>
    rw [List.isChain_map]
    refine (isChain_greedy _).imp_of_mem_imp fun group next hgroup hnext hfull word hhead ↦ ?_
    rw [splitWhitespace_filledLine hnext] at hhead
    have hword := isWord_of_mem_filledLines hnext word (List.mem_of_mem_head? hhead)
    have hwide := hfull word hhead
    rwa [FitsWidth, lineText_append (ne_nil_of_mem_greedy group hgroup),
      displayColForStr_separated hspace hword, Nat.not_le] at hwide

theorem startsVisibly_of_words (hspace : charWidth ' ' = some 1)
    (h : (wrapParagraph charWidth tabSize width paragraph).flatMap splitWhitespace =
      paragraph.flatMap splitWhitespace) :
    StartsVisibly charWidth tabSize width paragraph := by
  rw [StartsVisibly, filledLines]
  have hall := isWord_of_mem_flatMap paragraph
  cases hwords : paragraph.flatMap splitWhitespace with
  | nil => exact alone_nil
  | cons first words =>
    rw [hwords, List.forall_mem_cons] at hall
    rw [hwords, wrapParagraph_of_words hwords rfl] at h
    have hindent := isBlankLine_indent charWidth tabSize paragraph
    refine (Flush.holds_first hall.1 []).alone_of_length hspace hindent hall.2 ?_
    rw [Flush.writtenWords_eq, Flush.writtenWords, h, splitWhitespace_indent hindent,
      hall.1.splitWhitespace_eq, List.length_cons]
    exact (Nat.add_comm 1 _).le

/-- The lines of a paragraph are filled in the same way again. -/
theorem wrapParagraph_again (hspace : charWidth ' ' = some 1)
    (h : StartsVisibly charWidth tabSize width paragraph) :
    wrapParagraph charWidth tabSize width (wrapParagraph charWidth tabSize width paragraph) =
      wrapParagraph charWidth tabSize width paragraph := by
  have hwords := (wrapsParagraph_of_startsVisibly hspace h).words
  cases hlines : filledLines charWidth tabSize width paragraph with
  | nil =>
    rw [wrapParagraph_eq hspace h, hlines, List.map_nil]
    rfl
  | cons group groups =>
    refine wrapParagraph_congr hwords ?_
    have hgroup : group ∈ filledLines charWidth tabSize width paragraph :=
      hlines ▸ List.mem_cons_self
    have hindent := isBlankLine_indent charWidth tabSize paragraph
    obtain ⟨first, rest, rfl⟩ := List.exists_cons_of_ne_nil (ne_nil_of_mem_greedy group hgroup)
    have hfirst := isWord_of_mem_filledLines hgroup first List.mem_cons_self
    have hsame : indentOf (wrapParagraph charWidth tabSize width paragraph) =
        expandedIndent charWidth tabSize paragraph := by
      rw [wrapParagraph_eq hspace h, hlines, List.map_cons, indentOf, List.headD_cons,
        takeWhile_lineText hindent hfirst]
    rw [expandedIndent, hsame, expandTabs]
    exact expandTabsFrom_of_notMem (tab_notMem_expandTabs charWidth tabSize _) 0

end

variable {charWidth : CharWidth} {tabSize width : ℕ}

/-- Blank lines stay where they are. -/
theorem splitOnP_hardWrapLines (hwidth : 1 ≤ width) (lines : List (List Char)) :
    (hardWrapLines charWidth tabSize width lines).splitOnP isBlankLine =
      (lines.splitOnP isBlankLine).map (wrapParagraph charWidth tabSize width) := by
  rw [hardWrapLines_eq, Nat.max_eq_left hwidth]
  refine splitOnP_intercalate (mt List.map_eq_nil_iff.mp (List.splitOnP_ne_nil _ _)) ?_ rfl
  rw [List.forall_mem_map]
  exact fun paragraph _ ↦ isBlankLine_wrapParagraph

/-- Paragraphs keep their words and are filled exactly when no line of one begins with a word that
takes no columns, except for the last word of the paragraph. -/
theorem reflows_iff (hspace : charWidth ' ' = some 1) (hwidth : 1 ≤ width) (tabSize : ℕ)
    (lines : List (List Char)) :
    Reflows charWidth tabSize width lines ↔
      ∀ paragraph ∈ lines.splitOnP isBlankLine,
        StartsVisibly charWidth tabSize width paragraph := by
  constructor
  · intro h paragraph hparagraph
    have hwraps := h.paragraphs
    rw [splitOnP_hardWrapLines hwidth, List.forall₂_map_right_iff, List.forall₂_same] at hwraps
    exact startsVisibly_of_words hspace (hwraps paragraph hparagraph).words
  · intro h
    constructor
    case paragraphs =>
      rw [splitOnP_hardWrapLines hwidth, List.forall₂_map_right_iff, List.forall₂_same]
      exact fun paragraph hparagraph ↦
        wrapsParagraph_of_startsVisibly hspace (h paragraph hparagraph)
    case again =>
      have hagain : ((lines.splitOnP isBlankLine).map (wrapParagraph charWidth tabSize width)).map
          (wrapParagraph charWidth tabSize width) =
            (lines.splitOnP isBlankLine).map (wrapParagraph charWidth tabSize width) := by
        rw [List.map_map]
        exact List.map_congr_left fun paragraph hparagraph ↦
          wrapParagraph_again hspace (h paragraph hparagraph)
      rw [hardWrapLines_eq, splitOnP_hardWrapLines hwidth, Nat.max_eq_left hwidth, hagain,
        hardWrapLines_eq, Nat.max_eq_left hwidth]

/-- One column for every character but the zero width space. -/
def plainWidth : CharWidth := fun ch ↦ some (if ch = '\u200b' then 0 else 1)

theorem reflows_indented :
    Reflows plainWidth 2 6 [['\t', 'a', ' ', 'b', 'b'], [' ', 'c', 'c'], [], ['d']] := by
  refine (reflows_iff rfl (by decide) 2 _).mpr fun paragraph hparagraph ↦ ?_
  refine startsVisibly_of_visible ?_
  revert paragraph
  decide

/-- The two words are one afterwards. -/
theorem zero_width_glued : ¬ Reflows plainWidth 4 80 [['\u200b', ' ', 'a']] := by
  intro h
  have hwraps := h.paragraphs
  have hlines : [['\u200b', ' ', 'a']].splitOnP isBlankLine = [[['\u200b', ' ', 'a']]] := by
    decide
  have hwrapped : (hardWrapLines plainWidth 4 80 [['\u200b', ' ', 'a']]).splitOnP isBlankLine =
      [[['\u200b', 'a']]] := rfl
  rw [hlines, hwrapped, List.forall₂_cons] at hwraps
  have hwords := hwraps.1.words
  revert hwords
  decide

end EeEditor.EditOps
