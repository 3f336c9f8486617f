import EeEditor.Sequence.Lines

/-!
# The text of a line

`line_text`, `line_content_interval` and `line_with_ending_interval` of `event_context/helpers.rs`,
over the characters of a text. What is cut out as the content of a line and where it is put back
agree.
-/

namespace EeEditor.EventContext

/-! ## The code -/

def totalLines (text : List Char) : ℕ := text.count '\n' + 1

/-- `line_of_offset`. -/
def lineOfOffset (text : List Char) (offset : ℕ) : ℕ := (text.take offset).count '\n'

def sliceToCow (text : List Char) (interval : ℕ × ℕ) : List Char :=
  (text.drop interval.1).take (interval.2 - interval.1)

def lineWithEndingInterval (text : List Char) (line : ℕ) : ℕ × ℕ :=
  let line := min line (totalLines text - 1)
  (startOfLine '\n' text line,
    if line + 1 < totalLines text then startOfLine '\n' text (line + 1) else text.length)

def lineText (text : List Char) (line : ℕ) : List Char :=
  let lineText := sliceToCow text (lineWithEndingInterval text line)
  if ['\n'] <:+ lineText then
    let lineText := lineText.dropLast
    if ['\r'] <:+ lineText then lineText.dropLast else lineText
  else lineText

def lineContentInterval (text : List Char) (line : ℕ) : ℕ × ℕ :=
  let interval := lineWithEndingInterval text line
  let lineText := sliceToCow text interval
  (interval.1,
    if ['\r', '\n'] <:+ lineText then interval.2 - 2
    else if ['\n'] <:+ lineText then interval.2 - 1
    else interval.2)

/-! ## Contents -/

/-- The line without its end, which is a carriage return if a line feed follows. -/
def content (terminated : Bool) (line : List Char) : List Char :=
  if terminated ∧ ['\r'] <:+ line then line.dropLast else line

def carriageReturn (terminated : Bool) (line : List Char) : List Char :=
  if terminated ∧ ['\r'] <:+ line then ['\r'] else []

variable {text line : List Char} {n : ℕ}

theorem lineOfOffset_mono {offset offset' : ℕ} (h : offset ≤ offset') :
    lineOfOffset text offset ≤ lineOfOffset text offset' :=
  (List.take_prefix_take_left h).sublist.count_le '\n'

theorem length_splitOn_eq (text : List Char) : (text.splitOn '\n').length = totalLines text :=
  length_splitOn '\n' text

theorem content_append (terminated : Bool) (line : List Char) :
    content terminated line ++ carriageReturn terminated line = line := by
  rw [content, carriageReturn]
  split_ifs with hcr
  · obtain ⟨init, rfl⟩ := hcr.2
    rw [List.dropLast_concat]
  · exact List.append_nil line

/-- What is cut out of the text for a line. -/
theorem sliceToCow_eq (h : (text.splitOn '\n')[n]? = some line) :
    sliceToCow text (lineWithEndingInterval text n) =
      (if n + 1 < totalLines text then line ++ ['\n'] else line) ∧
    lineWithEndingInterval text n = (startOfLine '\n' text n, startOfLine '\n' text n +
      (if n + 1 < totalLines text then line ++ ['\n'] else line).length) := by
  have hn := (List.getElem?_eq_some_iff.mp h).1
  rw [length_splitOn_eq] at hn
  rw [sliceToCow, lineWithEndingInterval]
  dsimp only
  rw [Nat.min_eq_left (by omega)]
  obtain ⟨hmore, ⟨rest, hdrop⟩, hnext⟩ | ⟨hlast, hdrop, -⟩ := drop_startOfLine_cases h
  · rw [length_splitOn_eq] at hmore
    have htake : (line ++ '\n' :: rest).take (line.length + 1) = line ++ ['\n'] := by
      rw [List.take_length_add_append]
      rfl
    rw [if_pos hmore, if_pos hmore, hnext, hdrop, Nat.add_assoc, Nat.add_sub_cancel_left, htake,
      List.length_append, List.length_singleton]
    exact ⟨rfl, rfl⟩
  · have hlength := congrArg List.length hdrop
    rw [List.length_drop] at hlength
    rw [length_splitOn_eq] at hlast
    have hle : startOfLine '\n' text n ≤ text.length := startOfLine_le text n
    rw [if_neg (by omega), if_neg (by omega), hlength, hdrop, List.take_length]
    exact ⟨rfl, Prod.ext rfl (by dsimp only; omega)⟩

theorem lineText_eq (h : (text.splitOn '\n')[n]? = some line) :
    lineText text n = content (n + 1 < totalLines text) line := by
  have hline := notMem_of_mem_splitOn (List.mem_of_getElem? h)
  rw [lineText, (sliceToCow_eq h).1, content]
  dsimp only
  by_cases hterminated : n + 1 < totalLines text
  · rw [if_pos hterminated, if_pos (List.suffix_append _ _), List.dropLast_concat]
    exact if_congr (by simp [hterminated]) rfl rfl
  · rw [if_neg hterminated, if_neg fun hsuffix ↦ hline (hsuffix.subset List.mem_cons_self),
      if_neg fun hcr ↦ hterminated (of_decide_eq_true hcr.1)]

/-- What is replaced on a line is the content that was read. -/
theorem lineContentInterval_eq (h : (text.splitOn '\n')[n]? = some line) :
    lineContentInterval text n = (startOfLine '\n' text n,
      startOfLine '\n' text n + (content (n + 1 < totalLines text) line).length) := by
  have hline := notMem_of_mem_splitOn (List.mem_of_getElem? h)
  rw [lineContentInterval, (sliceToCow_eq h).1, (sliceToCow_eq h).2, content]
  refine Prod.ext rfl ?_
  dsimp only
  by_cases hterminated : n + 1 < totalLines text
  · have hcrlf : ['\r', '\n'] <:+ line ++ ['\n'] ↔ ['\r'] <:+ line :=
      ⟨fun ⟨init, hinit⟩ ↦ ⟨init, List.append_cancel_right
        (by rw [List.append_assoc]; exact hinit)⟩,
        fun ⟨init, hinit⟩ ↦ ⟨init, by rw [← hinit, List.append_assoc]; rfl⟩⟩
    rw [if_pos hterminated, if_pos (List.suffix_append _ _), List.length_append,
      List.length_singleton, if_congr hcrlf rfl rfl]
    by_cases hcr : ['\r'] <:+ line
    · have hpos := hcr.length_le
      rw [if_pos hcr, if_pos ⟨decide_eq_true hterminated, hcr⟩, List.length_dropLast]
      rw [List.length_singleton] at hpos
      omega
    · rw [if_neg hcr, if_neg fun hboth ↦ hcr hboth.2]
      omega
  · have hnone (start : List Char) : ¬ start ++ ['\n'] <:+ line := fun hsuffix ↦
      hline (hsuffix.subset (List.mem_append_right _ List.mem_cons_self))
    rw [if_neg hterminated, if_neg (show ¬ ['\r', '\n'] <:+ line from hnone ['\r']),
      if_neg (show ¬ ['\n'] <:+ line from hnone []),
      if_neg fun hcr ↦ hterminated (of_decide_eq_true hcr.1)]

theorem content_length_le (terminated : Bool) (line : List Char) :
    (content terminated line).length ≤ line.length := by
  have happend := congrArg List.length (content_append terminated line)
  rw [List.length_append] at happend
  omega

theorem drop_content (terminated : Bool) (line : List Char) :
    line.drop (content terminated line).length = carriageReturn terminated line := by
  have hdrop : (content terminated line ++ carriageReturn terminated line).drop
      (content terminated line).length = carriageReturn terminated line := List.drop_left
  rwa [content_append] at hdrop

/-- The line of an offset, and where it begins. -/
theorem exists_line {offset : ℕ} (hle : offset ≤ text.length) :
    ∃ line col, (text.splitOn '\n')[lineOfOffset text offset]? = some line ∧
      offset = startOfLine '\n' text (lineOfOffset text offset) + col ∧ col ≤ line.length := by
  induction text using lines_induction '\n' generalizing offset with
  | last line hline =>
    have hzero : lineOfOffset line offset = 0 :=
      List.count_eq_zero.mpr fun hmem ↦ hline (List.mem_of_mem_take hmem)
    refine ⟨line, offset, ?_, ?_, hle⟩
    · rw [hzero, List.splitOn_eq_singleton hline]
      rfl
    · rw [hzero, startOfLine, Nat.zero_add]
  | cons line rest hline ih =>
    rcases Nat.lt_or_ge line.length offset with hlt | hge
    · obtain ⟨k, rfl⟩ := Nat.exists_eq_add_of_lt hlt
      have hnext : lineOfOffset (line ++ '\n' :: rest) (line.length + k + 1) =
          lineOfOffset rest k + 1 := by
        rw [lineOfOffset, Nat.add_assoc, List.take_length_add_append, List.take_succ_cons,
          List.count_append, List.count_cons_self, List.count_eq_zero.mpr hline, Nat.zero_add]
        rfl
      have hle' : k ≤ rest.length := by
        rw [List.length_append, List.length_cons] at hle
        omega
      obtain ⟨line', col, hline', heq, hcol⟩ := ih hle'
      refine ⟨line', col, ?_, ?_, hcol⟩
      · rw [hnext, List.splitOn_append_cons_self_of_not_mem hline, List.getElem?_cons_succ, hline']
      · rw [hnext, startOfLine_append_line hline]
        omega
    · have hzero : lineOfOffset (line ++ '\n' :: rest) offset = 0 := by
        rw [lineOfOffset, List.take_append_of_le_length hge]
        exact List.count_eq_zero.mpr fun hmem ↦ hline (List.mem_of_mem_take hmem)
      refine ⟨line, offset, ?_, ?_, hge⟩
      · rw [hzero, List.splitOn_append_cons_self_of_not_mem hline]
        rfl
      · rw [hzero, startOfLine, Nat.zero_add]

end EeEditor.EventContext
