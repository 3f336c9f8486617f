import EeEditor.Lsp.ContentChanges
import EeEditor.Sequence.Lines
import EeEditor.Tree.TextConvert

/-!
# Positions in a document

The conversions of `xi-lsp-lib/src/conversion_utils.rs` from positions to offsets, and the round
trips with the conversion of `utils.rs` from offsets to positions. The one counts the newlines
before an offset, and the others walk the lines: the empty line at the end of a text is a line for
the first only.
-/

namespace EeEditor.Lsp

open BTree (bytes bytes_cons bytes_append lenUtf16)

/-! ## The conversions -/

def utf16CuToByteIdxFrom (targetUtf16 : ℕ) : List Char → ℕ → ℕ → Option ℕ
  | [], utf16Seen, utf8Seen => if utf16Seen ≥ targetUtf16 then some utf8Seen else none
  | ch :: s, utf16Seen, utf8Seen =>
    if utf16Seen ≥ targetUtf16 then some utf8Seen
    else utf16CuToByteIdxFrom targetUtf16 s (utf16Seen + lenUtf16 ch) (utf8Seen + ch.utf8Size)

def utf16CuToByteIdx (s : List Char) (targetUtf16 : ℕ) : Option ℕ :=
  utf16CuToByteIdxFrom targetUtf16 s 0 0

inductive LanguageResponseError where
  | transport (message : String)
deriving DecidableEq

/-- The lines from the target on, with the offset of the first of them. -/
def skipLines : ℕ → List (List Char) → ℕ → Option (ℕ × List (List Char))
  | 0, lines, offset => some (offset, lines)
  | _ + 1, [], _ => none
  | targetLine + 1, lineText :: lines, offset =>
    skipLines targetLine lines (offset + (bytes lineText).length)

def stripNewline (lineText : List Char) : List Char :=
  if lineText.getLast? = some '\n' then lineText.dropLast else lineText

/-- The offset of a line and the line without its newline. -/
def lineInDocument (text : List Char) (targetLine : ℕ) : Option (ℕ × List Char) :=
  match skipLines targetLine (splitInclusive '\n' text) 0 with
  | some (offset, lineText :: _) => some (offset, stripNewline lineText)
  | _ => none

def offsetOfPositionInDocumentImpl (text : List Char) (position : Position) (clamp : Bool) :
    Except LanguageResponseError ℕ :=
  match lineInDocument text position.line with
  | none =>
    if clamp then .ok (bytes text).length
    else .error (.transport
      ("line " ++ toString position.line ++ " out of bounds for diagnostics document"))
  | some (offset, lineWithoutNewline) =>
    match utf16CuToByteIdx lineWithoutNewline position.character with
    | some withinLine => .ok (offset + withinLine)
    | none =>
      if clamp then .ok (offset + (bytes lineWithoutNewline).length)
      else .error (.transport ("character " ++ toString position.character
        ++ " out of bounds for diagnostics line " ++ toString position.line))

def offsetOfPositionInDocument (text : List Char) (position : Position) :
    Except LanguageResponseError ℕ :=
  offsetOfPositionInDocumentImpl text position false

def offsetOfPositionInDocumentClamped (text : List Char) (position : Position) :
    Except LanguageResponseError ℕ :=
  offsetOfPositionInDocumentImpl text position true

/-! ## Characters -/

variable {text before line rest s : List Char} {position : Position} {offset : ℕ}

def utf16Len (s : List Char) : ℕ := (s.map lenUtf16).sum

/-- The position of the end of a text, by its characters. -/
def endPosition (text : List Char) : Position :=
  ⟨text.count '\n', utf16Len (text.rtakeWhile (· ≠ '\n'))⟩

theorem lenUtf16_pos (ch : Char) : 0 < lenUtf16 ch := by
  rw [lenUtf16]
  split <;> decide

theorem lenUtf16_le (ch : Char) : lenUtf16 ch ≤ 2 := by
  rw [lenUtf16]
  split <;> decide

theorem length_bytes_cons (ch : Char) (s : List Char) :
    (bytes (ch :: s)).length = ch.utf8Size + (bytes s).length := by
  rw [bytes_cons, List.length_append, String.length_utf8EncodeChar]

theorem length_bytes_append_line (line rest : List Char) :
    (bytes (line ++ '\n' :: rest)).length = (bytes line).length + 1 + (bytes rest).length := by
  rw [bytes_append, List.length_append, length_bytes_cons, Nat.add_assoc]
  rfl

@[simp]
theorem utf16Len_append (s t : List Char) : utf16Len (s ++ t) = utf16Len s + utf16Len t := by
  rw [utf16Len, List.map_append, List.sum_append]
  rfl

theorem utf16Len_cons (ch : Char) (s : List Char) :
    utf16Len (ch :: s) = lenUtf16 ch + utf16Len s := rfl

/-- A character has as many UTF-16 code units as its bytes stand for. -/
theorem countUtf16CodeUnits_char (ch : Char) :
    countUtf16CodeUnits (String.utf8EncodeChar ch) = lenUtf16 ch := (BTree.count_char ch).2

theorem countUtf16CodeUnits_append (p q : List UInt8) :
    countUtf16CodeUnits (p ++ q) = countUtf16CodeUnits p + countUtf16CodeUnits q := by
  rw [countUtf16CodeUnits, List.map_append, List.sum_append]
  rfl

/-- The bytes of a character are not that of a newline. -/
theorem isNewline_of_mem {ch : Char} (hch : ch ≠ '\n') {b : UInt8}
    (hb : b ∈ String.utf8EncodeChar ch) : isNewline b = false := by
  rw [isNewline, beq_eq_false_iff_ne]
  rintro rfl
  rcases Nat.lt_or_ge ch.toNat 128 with hlt | hge
  · obtain ⟨b, henc, hnat⟩ := encode_ascii hlt
    rw [henc, List.mem_singleton] at hb
    rw [← hb] at hnat
    exact hch (Char.toNat_inj.mp hnat.symm)
  · exact absurd (ge_of_mem_encode hge hb) (by decide)

theorem lastLine_append {p q : List UInt8} (hq : ∀ b ∈ q, isNewline b = false) :
    lastLine (p ++ q) = lastLine p ++ q := by
  rw [lastLine, List.rtakeWhile, List.reverse_append, List.takeWhile_append_of_pos,
    List.reverse_append,
    List.reverse_reverse]
  · rfl
  · intro b hb
    rw [hq b (List.mem_reverse.mp hb), Bool.not_false]

/-- The position of the end of a text is the same by its bytes. -/
theorem endOf_bytes (text : List Char) : endOf (bytes text) = endPosition text := by
  induction text using List.reverseRecOn with
  | nil => rfl
  | append_singleton text ch ih =>
    have hbytes : bytes [ch] = String.utf8EncodeChar ch := List.append_nil _
    obtain ⟨hline, hcharacter⟩ := Position.mk.inj ih
    rw [endOf, endPosition, bytes_append, hbytes, List.countP_append, List.count_append, hline,
      List.rtakeWhile_concat]
    by_cases hch : ch = '\n'
    · subst hch
      have henc : String.utf8EncodeChar '\n' = [10] := by decide
      rw [if_neg (by decide), henc, lastLine, List.rtakeWhile_concat_neg _ _ _ (by decide)]
      rfl
    · have hnewline : ∀ b ∈ String.utf8EncodeChar ch, isNewline b = false :=
        fun b hb ↦ isNewline_of_mem hch hb
      have hnone : (String.utf8EncodeChar ch).countP isNewline = 0 :=
        List.countP_eq_zero.mpr fun b hb ↦ by rw [hnewline b hb]; exact Bool.false_ne_true
      have hcount : [ch].count '\n' = 0 := List.count_singleton.trans (if_neg (by simpa using hch))
      rw [hnone, hcount, if_pos (by simpa using hch), lastLine_append hnewline,
        countUtf16CodeUnits_append, utf16Len_append, hcharacter, countUtf16CodeUnits_char]
      rfl

/-! ## Columns -/

/-- A column is in a text, or past it. -/
theorem utf16CuToByteIdxFrom_eq_none {target seen start : ℕ} :
    utf16CuToByteIdxFrom target s seen start = none ↔ seen + utf16Len s < target := by
  induction s generalizing seen start with
  | nil => simp [utf16CuToByteIdxFrom, utf16Len]
  | cons ch s ih =>
    rw [utf16CuToByteIdxFrom, utf16Len_cons]
    split
    · exact iff_of_false (Option.some_ne_none _) (by omega)
    · rw [ih]
      omega

/-- The column is that of the end of a text, or in the surrogate pair that it ends with. -/
def EndsAt (part : List Char) (column : ℕ) : Prop :=
  utf16Len part = column ∨
    ∃ init ch, part = init ++ [ch] ∧ lenUtf16 ch = 2 ∧ utf16Len init + 1 = column

/-- At a column that has been seen the loop stops. -/
theorem utf16CuToByteIdxFrom_of_le {target seen : ℕ} (s : List Char) (start : ℕ)
    (h : target ≤ seen) : utf16CuToByteIdxFrom target s seen start = some start := by
  cases s with
  | nil => exact if_pos h
  | cons ch s => exact if_pos h

theorem EndsAt.utf16CuToByteIdxFrom {part : List Char} {column : ℕ} (h : EndsAt part column)
    (tail : List Char) (seen start : ℕ) :
    utf16CuToByteIdxFrom (seen + column) (part ++ tail) seen start =
      some (start + (bytes part).length) := by
  induction part generalizing column seen start with
  | nil =>
    obtain rfl | ⟨init, ch, heq, -⟩ := h
    · exact utf16CuToByteIdxFrom_of_le tail start (Nat.le_refl seen)
    · simp at heq
  | cons ch part ih =>
    have hpos := lenUtf16_pos ch
    rw [List.cons_append, length_bytes_cons]
    rcases h with rfl | ⟨init, last, heq, hlast, rfl⟩
    · rw [utf16Len_cons, Lsp.utf16CuToByteIdxFrom, if_neg (by omega), ← Nat.add_assoc,
        ih (.inl rfl), Nat.add_assoc]
    · cases init with
      | nil =>
        obtain ⟨rfl, rfl⟩ := List.cons.inj heq
        change Lsp.utf16CuToByteIdxFrom (seen + (0 + 1)) _ _ _ = some (start + (_ + 0))
        rw [Lsp.utf16CuToByteIdxFrom, if_neg (by omega), utf16CuToByteIdxFrom_of_le _ _ (by omega),
          Nat.add_zero]
      | cons first init =>
        obtain ⟨rfl, rfl⟩ := List.cons.inj heq
        have hsum : seen + (utf16Len (ch :: init) + 1) = seen + lenUtf16
          ch + (utf16Len init + 1) := by
          rw [utf16Len_cons]
          omega
        have hpair : EndsAt (init ++ [last]) (utf16Len init + 1) :=
          .inr ⟨init, last, rfl, hlast, rfl⟩
        rw [Lsp.utf16CuToByteIdxFrom, if_neg (by omega), hsum, ih hpair, Nat.add_assoc]

theorem utf16CuToByteIdxFrom_eq_some {target seen start idx : ℕ}
    (h : utf16CuToByteIdxFrom target s seen start = some idx) (hseen : seen ≤ target) :
    ∃ part tail, s = part ++ tail ∧ idx = start + (bytes part).length ∧
      EndsAt part (target - seen) := by
  induction s generalizing seen start with
  | nil =>
    rw [utf16CuToByteIdxFrom] at h
    obtain ⟨hge, h⟩ := Option.ite_none_right_eq_some.mp h
    exact ⟨[], [], rfl, (Option.some.inj h).symm, .inl (Nat.sub_eq_zero_of_le hge).symm⟩
  | cons ch s ih =>
    have hpos := lenUtf16_pos ch
    have hle := lenUtf16_le ch
    rw [utf16CuToByteIdxFrom] at h
    split at h
    · rename_i hge
      exact ⟨[], ch :: s, rfl, (Option.some.inj h).symm, .inl (Nat.sub_eq_zero_of_le hge).symm⟩
    · rcases Nat.lt_or_ge target (seen + lenUtf16 ch) with hlt | hge
      · -- the target splits the character, and the next round stops
        rw [utf16CuToByteIdxFrom_of_le s _ hlt.le] at h
        refine ⟨[ch], s, rfl, ?_, .inr ⟨[], ch, rfl, by omega, ?_⟩⟩
        · rw [length_bytes_cons, ← Option.some.inj h]
          rfl
        · change 0 + 1 = _
          omega
      · obtain ⟨part, tail, rfl, rfl, hends⟩ := ih h hge
        refine ⟨ch :: part, tail, rfl, by rw [length_bytes_cons, Nat.add_assoc], ?_⟩
        rcases hends with hends | ⟨init, last, rfl, hlast, hends⟩
        · exact .inl (by rw [utf16Len_cons]; omega)
        · exact .inr ⟨ch :: init, last, rfl, hlast, by rw [utf16Len_cons]; omega⟩

theorem utf16CuToByteIdx_eq_some {column idx : ℕ} : utf16CuToByteIdx s column = some idx ↔
    ∃ part tail, s = part ++ tail ∧ idx = (bytes part).length ∧ EndsAt part column := by
  constructor
  · intro h
    obtain ⟨part, tail, heq, hidx, hends⟩ := utf16CuToByteIdxFrom_eq_some h (Nat.zero_le column)
    exact ⟨part, tail, heq, hidx.trans (Nat.zero_add _), hends⟩
  · rintro ⟨part, tail, rfl, rfl, hends⟩
    have heq := hends.utf16CuToByteIdxFrom tail 0 0
    rwa [Nat.zero_add, Nat.zero_add] at heq

theorem utf16CuToByteIdx_eq_none {column : ℕ} :
    utf16CuToByteIdx s column = none ↔ utf16Len s < column := by
  rw [utf16CuToByteIdx, utf16CuToByteIdxFrom_eq_none, Nat.zero_add]

/-! ## Lines -/

/-- The last line is empty. -/
def EndsEmpty (text : List Char) : Prop := ∀ ch ∈ text.getLast?, ch = '\n'

instance (text : List Char) : Decidable (EndsEmpty text) :=
  decidable_of_iff (text.getLast?.all (· = '\n') = true) (by simp [EndsEmpty, Option.all_eq_true])

theorem endsEmpty_append_line (line rest : List Char) :
    EndsEmpty (line ++ '\n' :: rest) ↔ EndsEmpty rest := by
  rw [EndsEmpty, EndsEmpty, List.getLast?_append_cons]
  cases rest with
  | nil => simp
  | cons ch rest => rw [List.getLast?_cons_cons]

theorem endsEmpty_line (hline : '\n' ∉ line) : EndsEmpty line ↔ line = [] := by
  constructor
  · intro h
    rw [← List.getLast?_eq_none_iff, Option.eq_none_iff_forall_not_mem]
    intro ch hch
    exact hline (h ch hch ▸ List.mem_of_getLast? hch)
  · rintro rfl
    exact nofun

theorem endPosition_line (hline : '\n' ∉ line) : endPosition line = ⟨0, utf16Len line⟩ := by
  rw [endPosition, List.count_eq_zero.mpr hline, rtakeWhile_line hline]

theorem endPosition_append_line (hline : '\n' ∉ line) (rest : List Char) :
    endPosition (line ++ '\n' :: rest) =
      ⟨(endPosition rest).line + 1, (endPosition rest).character⟩ := by
  rw [endPosition, rtakeWhile_append_line, List.count_append, List.count_eq_zero.mpr hline,
    List.count_cons_self, Nat.zero_add]
  rfl

theorem skipLines_add (targetLine : ℕ) (lines : List (List Char)) (start d : ℕ) :
    skipLines targetLine lines (start + d) =
      (skipLines targetLine lines start).map (Prod.map (· + d) id) := by
  induction targetLine generalizing lines start with
  | zero => rfl
  | succ targetLine ih =>
    cases lines with
    | nil => rfl
    | cons lineText lines =>
      rw [skipLines, skipLines, Nat.add_right_comm, ih]

theorem lineInDocument_zero (hline : '\n' ∉ line) (rest : List Char) :
    lineInDocument (line ++ '\n' :: rest) 0 = some (0, line) := by
  have hstrip : stripNewline (line ++ ['\n']) = line := by
    rw [stripNewline, if_pos List.getLast?_concat, List.dropLast_concat]
  rw [lineInDocument, splitInclusive_append hline, skipLines]
  dsimp only
  rw [hstrip]

theorem lineInDocument_succ (hline : '\n' ∉ line) (rest : List Char) (targetLine : ℕ) :
    lineInDocument (line ++ '\n' :: rest) (targetLine + 1) =
      (lineInDocument rest targetLine).map (Prod.map (· + ((bytes line).length + 1)) id) := by
  have hlength : (bytes (line ++ ['\n'])).length = (bytes line).length + 1 :=
    length_bytes_append_line line []
  rw [lineInDocument, splitInclusive_append hline, skipLines, hlength, skipLines_add,
    lineInDocument]
  cases skipLines targetLine (splitInclusive '\n' rest) 0 with
  | none => rfl
  | some found =>
    obtain ⟨offset, lines⟩ := found
    cases lines <;> rfl

theorem lineInDocument_line_zero (hline : '\n' ∉ line) :
    lineInDocument line 0 = if line = [] then none else some (0, line) := by
  rw [lineInDocument, splitInclusive_line hline]
  split_ifs with hnil
  · rfl
  · have hstrip : stripNewline line = line :=
      if_neg fun h ↦ hline (List.mem_of_getLast? h)
    rw [skipLines]
    dsimp only
    rw [hstrip]

theorem lineInDocument_line_succ (hline : '\n' ∉ line) (targetLine : ℕ) :
    lineInDocument line (targetLine + 1) = none := by
  rw [lineInDocument, splitInclusive_line hline]
  split_ifs with hnil
  · rfl
  · cases targetLine <;> rfl

/-- The lines of a document, except an empty line at its end. -/
theorem map_lineInDocument (text : List Char) (targetLine : ℕ) :
    (lineInDocument text targetLine).map Prod.snd =
      if targetLine = text.count '\n' ∧ EndsEmpty text then none
      else (text.splitOn '\n')[targetLine]? := by
  induction text using lines_induction '\n' generalizing targetLine with
  | last line hline =>
    rw [List.count_eq_zero.mpr hline, List.splitOn_eq_singleton hline,
      if_congr (and_congr_right' (endsEmpty_line hline)) rfl rfl]
    cases targetLine with
    | zero =>
      rw [lineInDocument_line_zero hline]
      by_cases hnil : line = []
      · rw [if_pos hnil, if_pos ⟨rfl, hnil⟩]
        rfl
      · rw [if_neg hnil, if_neg fun h ↦ hnil h.2]
        rfl
    | succ targetLine =>
      rw [lineInDocument_line_succ hline, if_neg fun h ↦ Nat.succ_ne_zero _ h.1]
      rfl
  | cons line rest hline ih =>
    rw [List.count_append, List.count_eq_zero.mpr hline, List.count_cons_self, Nat.zero_add,
      List.splitOn_append_cons_self_of_not_mem hline,
      if_congr (and_congr_right' (endsEmpty_append_line line rest)) rfl rfl]
    cases targetLine with
    | zero =>
      rw [lineInDocument_zero hline, if_neg fun h ↦ Nat.succ_ne_zero _ h.1.symm]
      rfl
    | succ targetLine =>
      rw [lineInDocument_succ hline, Option.map_map, List.getElem?_cons_succ]
      simp only [Nat.add_right_cancel_iff]
      exact ih targetLine

/-- The line that a part of the text ends in, and how far into it. -/
theorem lineInDocument_endPosition (before after : List Char)
    (h : ¬(after = [] ∧ EndsEmpty before)) : ∃ start part tail rest,
      before = start ++ part ∧ after = tail ++ rest ∧ (∀ ch ∈ rest.head?, ch = '\n') ∧
      lineInDocument (before ++ after) (endPosition before).line =
        some ((bytes start).length, part ++ tail) ∧
      utf16Len part = (endPosition before).character := by
  induction before using lines_induction '\n' with
  | last line hline =>
    rw [endsEmpty_line hline] at h
    rw [endPosition_line hline]
    by_cases hafter : '\n' ∈ after
    · obtain ⟨tail, rest, rfl, htail⟩ := List.eq_append_cons_of_mem hafter
      refine ⟨[], line, tail, '\n' :: rest, rfl, rfl, by simp, ?_, rfl⟩
      rw [← List.append_assoc, lineInDocument_zero]
      · rfl
      · rw [List.mem_append, not_or]
        exact ⟨hline, htail⟩
    · refine ⟨[], line, after, [], rfl, (List.append_nil after).symm, nofun, ?_, rfl⟩
      rw [lineInDocument_line_zero, if_neg]
      · rfl
      · rwa [List.append_eq_nil_iff, and_comm]
      · rw [List.mem_append, not_or]
        exact ⟨hline, hafter⟩
  | cons line text hline ih =>
    rw [endsEmpty_append_line] at h
    obtain ⟨start, part, tail, rest, rfl, rfl, hrest, hfound, hcolumn⟩ := ih h
    refine ⟨line ++ '\n' :: start, part, tail, rest, by simp, rfl, hrest, ?_, ?_⟩
    · rw [endPosition_append_line hline, List.append_assoc, List.cons_append,
        lineInDocument_succ hline, hfound, length_bytes_append_line,
          Nat.add_comm _ (bytes start).length]
      rfl
    · rw [endPosition_append_line hline, hcolumn]

/-- A line is a part of the text. -/
theorem lineInDocument_eq_some {targetLine : ℕ}
    (h : lineInDocument text targetLine = some (offset, line)) :
    ∃ before after, text = before ++ (line ++ after) ∧ offset = (bytes before).length ∧
      ∀ part tail, line = part ++ tail →
        endPosition (before ++ part) = ⟨targetLine, utf16Len part⟩ ∧
        ¬(tail ++ after = [] ∧ EndsEmpty (before ++ part)) := by
  induction text using lines_induction '\n' generalizing targetLine offset with
  | last text htext =>
    cases targetLine with
    | zero =>
      rw [lineInDocument_line_zero htext] at h
      split_ifs at h with hnil
      obtain ⟨rfl, rfl⟩ := Prod.mk.inj (Option.some.inj h)
      refine ⟨[], [], (List.append_nil _).symm, rfl, ?_⟩
      rintro part tail rfl
      have hpart : '\n' ∉ part := fun h ↦ htext (List.mem_append_left _ h)
      refine ⟨endPosition_line hpart, ?_⟩
      rw [List.append_nil, List.nil_append, endsEmpty_line hpart]
      rintro ⟨rfl, rfl⟩
      exact hnil rfl
    | succ targetLine =>
      rw [lineInDocument_line_succ htext] at h
      cases h
  | cons first rest hfirst ih =>
    cases targetLine with
    | zero =>
      rw [lineInDocument_zero hfirst] at h
      obtain ⟨rfl, rfl⟩ := Prod.mk.inj (Option.some.inj h)
      refine ⟨[], '\n' :: rest, rfl, rfl, ?_⟩
      rintro part tail rfl
      have hpart : '\n' ∉ part := fun h ↦ hfirst (List.mem_append_left _ h)
      exact ⟨endPosition_line hpart, fun h ↦ by simp at h⟩
    | succ targetLine =>
      rw [lineInDocument_succ hfirst] at h
      obtain ⟨⟨offset', line'⟩, hfound, heq⟩ := Option.map_eq_some_iff.mp h
      obtain ⟨rfl, rfl⟩ := Prod.mk.inj heq
      obtain ⟨before, after, rfl, rfl, hparts⟩ := ih hfound
      refine ⟨first ++ '\n' :: before, after, by simp, ?_, fun part tail hline ↦ ?_⟩
      · rw [length_bytes_append_line]
        dsimp only
        omega
      · obtain ⟨hend, hlast⟩ := hparts part tail hline
        rw [List.append_assoc, List.cons_append, endPosition_append_line hfirst, hend,
          endsEmpty_append_line]
        exact ⟨rfl, hlast⟩

/-! ## Positions of offsets -/

/-- The position is that of the end of a text, or in the surrogate pair that it ends with. -/
def PointsTo (before : List Char) (position : Position) : Prop :=
  position = endPosition before ∨ ∃ init ch, before = init ++ [ch] ∧ lenUtf16 ch = 2 ∧
    position = ⟨(endPosition init).line, (endPosition init).character + 1⟩

theorem ne_newline_of_pair {ch : Char} (h : lenUtf16 ch = 2) : ch ≠ '\n' := by
  rintro rfl
  exact absurd h (by decide)

theorem offsetOfPositionInDocument_eq_ok : offsetOfPositionInDocument text position = .ok offset ↔
    ∃ before after, text = before ++ after ∧ offset = (bytes before).length ∧
      PointsTo before position ∧ ¬(after = [] ∧ EndsEmpty before) := by
  rw [offsetOfPositionInDocument, offsetOfPositionInDocumentImpl]
  constructor
  · intro h
    split at h
    · cases h
    · rename_i start line hline
      obtain ⟨before, after, rfl, rfl, hparts⟩ := lineInDocument_eq_some hline
      split at h
      · rename_i within hwithin
        obtain rfl := Except.ok.inj h
        obtain ⟨part, tail, rfl, rfl, hends⟩ := utf16CuToByteIdx_eq_some.mp hwithin
        obtain ⟨hend, hlast⟩ := hparts part tail rfl
        refine ⟨before ++ part, tail ++ after, by simp, by simp, ?_, hlast⟩
        rcases hends with hcolumn | ⟨init, ch, rfl, hpair, hcolumn⟩
        · exact .inl (by rw [hend, hcolumn])
        · obtain ⟨hinit, -⟩ := hparts init (ch :: tail) (by simp)
          exact .inr ⟨before ++ init, ch, by simp, hpair, by rw [hinit, hcolumn]⟩
      · cases h
  · rintro ⟨before, after, rfl, rfl, rfl | ⟨init, ch, rfl, hpair, rfl⟩, hlast⟩
    · obtain ⟨start, part, tail, rest, rfl, rfl, -, hline, hcolumn⟩ :=
        lineInDocument_endPosition before after hlast
      rw [hline]
      have hwithin : utf16CuToByteIdx (part ++ tail) (endPosition (start ++ part)).character =
          some (bytes part).length := utf16CuToByteIdx_eq_some.mpr
            ⟨part, tail, rfl, rfl, .inl hcolumn⟩
      dsimp only
      rw [hwithin]
      simp
    · obtain ⟨start, part, tail, rest, rfl, hafter, hrest, hline, hcolumn⟩ :=
        lineInDocument_endPosition init (ch :: after) (by simp)
      rw [List.append_assoc, List.singleton_append, hline]
      cases tail with
      | nil =>
        rw [List.nil_append] at hafter
        exact absurd (hrest ch (by rw [← hafter]; rfl)) (ne_newline_of_pair hpair)
      | cons first tail =>
        obtain ⟨rfl, rfl⟩ := List.cons.inj hafter
        have hwithin : utf16CuToByteIdx (part ++ ch :: tail)
            ((endPosition (start ++ part)).character + 1) = some (bytes (part ++ [ch])).length :=
          utf16CuToByteIdx_eq_some.mpr ⟨part ++ [ch], tail, by simp, rfl,
            .inr ⟨part, ch, rfl, hpair, by rw [hcolumn]⟩⟩
        dsimp only
        rw [hwithin]
        simp

/-- The text has no such line, or the line ends before the column. -/
def PastEnd (text : List Char) (position : Position) : Prop :=
  ∀ line ∈ (text.splitOn '\n')[position.line]?, utf16Len line < position.character

theorem splitOn_count (h : EndsEmpty text) : (text.splitOn '\n')[text.count '\n']? = some [] := by
  induction text using lines_induction '\n' with
  | last line hline =>
    obtain rfl := (endsEmpty_line hline).mp h
    rfl
  | cons line rest hline ih =>
    rw [List.count_append, List.count_eq_zero.mpr hline, List.count_cons_self, Nat.zero_add,
      List.splitOn_append_cons_self_of_not_mem hline, List.getElem?_cons_succ]
    exact ih ((endsEmpty_append_line line rest).mp h)

theorem endPosition_of_endsEmpty (h : EndsEmpty text) :
    endPosition text = ⟨text.count '\n', 0⟩ := by
  have hnil : text.rtakeWhile (· ≠ '\n') = [] := by
    rw [List.rtakeWhile_eq_nil_iff]
    intro hne
    rw [h _ (List.getLast?_eq_some_getLast hne)]
    decide
  rw [endPosition, hnil]
  rfl

/-- The strict conversion rejects the positions past an end, and that of an empty line at the
end. -/
theorem offsetOfPositionInDocument_eq_error :
    (∃ error, offsetOfPositionInDocument text position = .error error) ↔
      PastEnd text position ∨ EndsEmpty text ∧ position = endPosition text := by
  have hline := map_lineInDocument text position.line
  rw [offsetOfPositionInDocument, offsetOfPositionInDocumentImpl, PastEnd]
  by_cases hlast : position.line = text.count '\n' ∧ EndsEmpty text
  · obtain ⟨hcount, hempty⟩ := hlast
    rw [if_pos ⟨hcount, hempty⟩, Option.map_eq_none_iff] at hline
    rw [hline, hcount, splitOn_count hempty, endPosition_of_endsEmpty hempty]
    refine iff_of_true ⟨_, rfl⟩ ?_
    rcases Nat.eq_zero_or_pos position.character with hzero | hpos
    · exact .inr ⟨hempty, by rw [← hcount, ← hzero]⟩
    · refine .inl fun line hmem ↦ ?_
      obtain rfl := Option.some.inj hmem
      exact hpos
  · rw [if_neg hlast] at hline
    have hother : ¬(EndsEmpty text ∧ position = endPosition text) := by
      rintro ⟨hempty, rfl⟩
      exact hlast ⟨rfl, hempty⟩
    rw [← hline, or_iff_left hother]
    cases lineInDocument text position.line with
    | none => exact iff_of_true ⟨_, rfl⟩ nofun
    | some found =>
      obtain ⟨start, line⟩ := found
      rw [Option.map_some]
      simp only [Option.mem_def, Option.some.injEq, forall_eq', ← utf16CuToByteIdx_eq_none]
      cases utf16CuToByteIdx line position.character with
      | none => exact iff_of_true ⟨_, rfl⟩ rfl
      | some within => exact iff_of_false (fun ⟨_, h⟩ ↦ nomatch h) (Option.some_ne_none _)

/-- The clamped variant differs only where the strict conversion rejects a position. -/
theorem offsetOfPositionInDocumentClamped_of_ok
    (h : offsetOfPositionInDocument text position = .ok offset) :
    offsetOfPositionInDocumentClamped text position = .ok offset := by
  rw [offsetOfPositionInDocument, offsetOfPositionInDocumentImpl] at h
  rw [offsetOfPositionInDocumentClamped, offsetOfPositionInDocumentImpl]
  split at h
  · cases h
  · split at h
    · exact h
    · cases h

/-! ## Round trips -/

def Position.FitsU32 (self : Position) : Prop := self.line < 2 ^ 32 ∧ self.character < 2 ^ 32

instance (self : Position) : Decidable self.FitsU32 :=
  inferInstanceAs (Decidable (self.line < 2 ^ 32 ∧ self.character < 2 ^ 32))

def OffsetRoundTrips (text : List Char) (offset : ℕ) : Prop :=
  ∃ position, positionOfOffsetInDocument (bytes text) offset = some position ∧
    offsetOfPositionInDocument text position = .ok offset ∧
    offsetOfPositionInDocumentClamped text position = .ok offset

def InsideSurrogatePair (text : List Char) (position : Position) : Prop :=
  ∃ before ch after, text = before ++ ch :: after ∧ lenUtf16 ch = 2 ∧
    position = ⟨(endPosition before).line, (endPosition before).character + 1⟩

/-- An accepted position is mapped back to itself, and it is accepted unless it is past an end. -/
def PositionRoundTrips (text : List Char) (position : Position) : Prop :=
  (∀ offset, offsetOfPositionInDocument text position = .ok offset →
    ¬InsideSurrogatePair text position →
      positionOfOffsetInDocument (bytes text) offset = some position) ∧
  ((∃ error, offsetOfPositionInDocument text position = .error error) ↔ PastEnd text position)

theorem positionOfOffsetInDocument_bytes (before after : List Char)
    (hfits : (endPosition before).FitsU32) :
    positionOfOffsetInDocument (bytes (before ++ after)) (bytes before).length =
      some (endPosition before) := by
  have hboundary : isCharBoundary (bytes (before ++ after)) (bytes before).length = true := by
    rw [BTree.isCharBoundary_append, if_pos (Nat.le_refl _)]
    exact isCharBoundary_length
  rw [positionOfOffsetInDocument, hboundary, if_neg, bytes_append, List.take_left, endOf_bytes]
  · exact if_pos hfits
  · simp

/-- Offsets and positions round-trip except at an empty line at the end of the text. -/
theorem roundTrips_iff (text : List Char) (offset : ℕ) (position : Position)
    (hboundary : isCharBoundary (bytes text) offset = true)
    (hoffset : (endOf ((bytes text).take offset)).FitsU32) (hposition : position.FitsU32) :
    (OffsetRoundTrips text offset ↔ ¬(EndsEmpty text ∧ offset = (bytes text).length)) ∧
      (PositionRoundTrips text position ↔ ¬(EndsEmpty text ∧ position = endPosition text)) := by
  constructor
  · obtain ⟨before, after, rfl, rfl⟩ := BTree.exists_split hboundary
    rw [bytes_append, List.take_left, endOf_bytes] at hoffset
    have hback := positionOfOffsetInDocument_bytes before after hoffset
    constructor
    · rintro ⟨position, hposition, hstrict, -⟩ ⟨hempty, hlength⟩
      rw [hback] at hposition
      obtain rfl := Option.some.inj hposition
      obtain rfl : after = [] := by
        cases after with
        | nil => rfl
        | cons ch after =>
          have hpos := BTree.utf8Size_pos ch
          rw [bytes_append, bytes_cons, List.length_append, List.length_append] at hlength
          omega
      rw [List.append_nil] at hempty hstrict
      obtain ⟨error, herror⟩ := offsetOfPositionInDocument_eq_error.mpr (.inr ⟨hempty, rfl⟩)
      rw [hstrict] at herror
      cases herror
    · intro hlast
      have hstrict : offsetOfPositionInDocument (before ++ after) (endPosition before) =
          .ok (bytes before).length := by
        refine offsetOfPositionInDocument_eq_ok.mpr ⟨before, after, rfl, rfl, .inl rfl, ?_⟩
        rintro ⟨rfl, hempty⟩
        exact hlast ⟨by rwa [List.append_nil], by rw [List.append_nil]⟩
      exact ⟨endPosition before, hback, hstrict, offsetOfPositionInDocumentClamped_of_ok hstrict⟩
  · rw [PositionRoundTrips, offsetOfPositionInDocument_eq_error]
    constructor
    · rintro ⟨-, hreject⟩ ⟨hempty, rfl⟩
      have hpast := hreject.mp (.inr ⟨hempty, rfl⟩)
      rw [PastEnd, endPosition_of_endsEmpty hempty] at hpast
      exact Nat.not_lt_zero _ (hpast [] (splitOn_count hempty))
    · intro hlast
      refine ⟨fun offset hok houtside ↦ ?_, or_iff_left hlast⟩
      obtain ⟨before, after, rfl, rfl, rfl | ⟨init, ch, rfl, hpair, rfl⟩, -⟩ :=
        offsetOfPositionInDocument_eq_ok.mp hok
      · exact positionOfOffsetInDocument_bytes before after hposition
      · exact absurd ⟨init, ch, after, by simp, hpair, rfl⟩ houtside

theorem roundTrips_two_lines :
    OffsetRoundTrips ['a', '\n', 'b'] 3 ∧ PositionRoundTrips ['a', '\n', 'b'] ⟨1, 0⟩ := by
  obtain ⟨hoffset, hposition⟩ := roundTrips_iff ['a', '\n', 'b'] 3 ⟨1, 0⟩ (by decide) (by decide)
    (by decide)
  exact ⟨hoffset.mpr (by decide), hposition.mpr (by decide)⟩

/-- The end of a text that ends with a newline has a position, which is rejected. -/
theorem end_of_document_rejected : ¬ ∀ (text : List Char) (offset : ℕ),
    isCharBoundary (bytes text) offset = true → (endOf ((bytes text).take offset)).FitsU32 →
      OffsetRoundTrips text offset := by
  intro h
  obtain ⟨position, hposition, hstrict, -⟩ := h ['a', '\n'] 2 (by decide) (by decide)
  have hend : positionOfOffsetInDocument (bytes ['a', '\n']) 2 = some ⟨1, 0⟩ := by decide
  rw [hend] at hposition
  obtain rfl := Option.some.inj hposition
  exact absurd hstrict (by decide)

end EeEditor.Lsp
