import Mathlib.Data.List.DropRight
import EeEditor.Rope.Summary
import EeEditor.Sequence.Utf8

/-!
# Content changes for language servers

The model of `xi-lsp-lib/src/utils.rs` as far as it turns the update of a document into the content
changes that a language server is sent, and the meaning that the protocol gives to these changes.
The positions of a change are computed in the document after the update; the server looks them up in
its copy of the document before it.

In the protocol a line ends with `\n`, `\r\n` or `\r`, columns count UTF-16 code units, and a column
past the end of its line is the end of the line.
-/

namespace EeEditor.Lsp

structure Position where
  line : ℕ
  character : ℕ
deriving DecidableEq

structure Range where
  start : Position
  end_ : Position
deriving DecidableEq

structure TextDocumentContentChangeEvent where
  range : Option Range
  text : List UInt8
deriving DecidableEq

/-! ## What is sent -/

/-- The UTF-16 code units that a byte of UTF-8 stands for. -/
def utf16Units (b : UInt8) : ℕ := (if isContinuation b then 0 else 1) + if 0xf0 ≤ b then 1 else 0

def countUtf16CodeUnits (s : List UInt8) : ℕ := (s.map utf16Units).sum

/-- What follows the last newline. -/
def lastLine (s : List UInt8) : List UInt8 := s.rtakeWhile fun b ↦ !isNewline b

/-- The position of the end of a text, by its newlines. -/
def endOf (s : List UInt8) : Position := ⟨s.countP isNewline, countUtf16CodeUnits (lastLine s)⟩

/-- An error is `none`, also of a line or a column that is no `u32`. -/
def positionOfOffsetInDocument (text : List UInt8) (offset : ℕ) : Option Position :=
  if text.length < offset || !isCharBoundary text offset then none
  else
    let position := endOf (text.take offset)
    if position.line < 2 ^ 32 ∧ position.character < 2 ^ 32 then some position else none

def wholeDocument (documentText : List UInt8) : TextDocumentContentChangeEvent :=
  ⟨none, documentText⟩

/-- The end of a deletion. At the beginning of a line it is put behind the line before. -/
def endOfDeletion (documentText : List UInt8) (end_ : ℕ) : Option Position := do
  let endPosition ← positionOfOffsetInDocument documentText end_
  if endPosition.character = 0 then
    let ep ← positionOfOffsetInDocument documentText (end_ - 1)
    return { ep with character := (ep.character + 1) % 2 ^ 32 }
  else return endPosition

def documentContentChangesFromDelta (delta : Option (Delta UInt8)) (documentText : List UInt8) :
    Option (List TextDocumentContentChangeEvent) :=
  match delta with
  | none => some [wholeDocument documentText]
  | some delta =>
    let ((start, end_), _) := delta.summary
    match delta.asSimpleInsert with
    | some text => do
      let start ← positionOfOffsetInDocument documentText start
      let end_ ← positionOfOffsetInDocument documentText end_
      return [⟨some ⟨start, end_⟩, text⟩]
    | none =>
      if delta.isSimpleDelete then do
        let end_ ← endOfDeletion documentText end_
        let start ← positionOfOffsetInDocument documentText start
        return [⟨some ⟨start, end_⟩, []⟩]
      else some [wholeDocument documentText]

/-- The reads of the document may fail. -/
def getDocumentContentChanges (delta : Option (Delta UInt8)) (document : Option (List UInt8)) :
    Option (List TextDocumentContentChangeEvent) := do
  documentContentChangesFromDelta delta (← document)

inductive TextDocumentSyncKind where
  | none
  | full
  | incremental
deriving DecidableEq

/-- The document is read once, and again if the changes cannot be told. -/
def getChangeForSyncKind (syncKind : TextDocumentSyncKind) (document again : Option (List UInt8))
    (delta : Option (Delta UInt8)) : Option (List TextDocumentContentChangeEvent) :=
  match syncKind with
  | .none => none
  | .full => document.map fun text ↦ [wholeDocument text]
  | .incremental =>
    match getDocumentContentChanges delta document with
    | some result => some result
    | none => again.map fun text ↦ [wholeDocument text]

/-! ## What it means -/

/-- Where a line begins, or the end of the text if it has no such line. -/
def lineOffset : ℕ → List UInt8 → ℕ
  | 0, _ => 0
  | _ + 1, [] => 0
  | line + 1, 13 :: 10 :: text => 2 + lineOffset line text
  | line + 1, b :: text =>
    1 + if b = 10 ∨ b = 13 then lineOffset line text else lineOffset (line + 1) text

/-- Where a column of the first line is. A column inside of a surrogate pair is nowhere. -/
def columnOffset : ℕ → List UInt8 → Option ℕ
  | _, [] => some 0
  | column, b :: text =>
    if isContinuation b then (columnOffset column text).map (1 + ·)
    else if column = 0 ∨ b = 10 ∨ b = 13 then some 0
    else if utf16Units b ≤ column then (columnOffset (column - utf16Units b) text).map (1 + ·)
    else none

def offsetAt (text : List UInt8) (position : Position) : Option ℕ :=
  let start := lineOffset position.line text
  (columnOffset position.character (text.drop start)).map (start + ·)

def applyChange (text : List UInt8) (event : TextDocumentContentChangeEvent) :
    Option (List UInt8) :=
  match event.range with
  | none => some event.text
  | some range => do
    let start ← offsetAt text range.start
    let end_ ← offsetAt text range.end_
    if start ≤ end_ then return text.take start ++ event.text ++ text.drop end_ else none

def applyChanges (text : List UInt8) (events : List TextDocumentContentChangeEvent) :
    Option (List UInt8) := events.foldlM applyChange text

/-! ## Positions -/

/-- Every carriage return is followed by a newline. -/
def noBareCr : List UInt8 → Bool
  | [] => true
  | 13 :: 10 :: text => noBareCr text
  | b :: text => b ≠ 13 && noBareCr text

/-- The end of the text, or of a line. -/
def AtLineEnd (text : List UInt8) : Prop := ∀ b ∈ text.head?, b = 10 ∨ b = 13

/-- The position is the one of the offset, or past the line that ends there. -/
structure Denotes (text : List UInt8) (offset : ℕ) (position : Position) : Prop where
  wholeLineEnds : noBareCr (text.take offset)
  line : position.line = (endOf (text.take offset)).line
  character : position.character = (endOf (text.take offset)).character ∨
    (endOf (text.take offset)).character ≤ position.character ∧ AtLineEnd (text.drop offset)

instance (text : List UInt8) : Decidable (AtLineEnd text) :=
  inferInstanceAs (Decidable (∀ b ∈ text.head?, b = 10 ∨ b = 13))

instance (text : List UInt8) (offset : ℕ) (position : Position) :
    Decidable (Denotes text offset position) :=
  decidable_of_iff (noBareCr (text.take offset) ∧
    position.line = (endOf (text.take offset)).line ∧
    (position.character = (endOf (text.take offset)).character ∨
      (endOf (text.take offset)).character ≤ position.character ∧ AtLineEnd (text.drop offset)))
    ⟨fun h ↦ ⟨h.1, h.2.1, h.2.2⟩, fun h ↦ ⟨h.wholeLineEnds, h.line, h.character⟩⟩

variable {text p q : List UInt8} {position : Position} {offset : ℕ}

theorem utf16Units_of_continuation {b : UInt8} (h : isContinuation b = true) :
    utf16Units b = 0 := by
  have hlt : b < 192 := of_decide_eq_true (Bool.and_eq_true_iff.mp h).2
  rw [utf16Units, if_pos h, if_neg]
  rw [UInt8.not_le]
  exact UInt8.lt_trans hlt (by decide)

theorem utf16Units_pos {b : UInt8} (h : isContinuation b = false) : 0 < utf16Units b := by
  rw [utf16Units, h]
  exact Nat.lt_of_lt_of_le Nat.zero_lt_one (Nat.le_add_right _ _)

/-- The column at the end of a text without line ends, or past it if a line ends there. -/
theorem columnOffset_append {column : ℕ} (hp : ∀ b ∈ p, b ≠ 10 ∧ b ≠ 13)
    (hq : ∀ b ∈ q.head?, isContinuation b = false)
    (hcolumn : column = countUtf16CodeUnits p ∨ countUtf16CodeUnits p ≤ column ∧ AtLineEnd q) :
    columnOffset column (p ++ q) = some p.length := by
  induction p generalizing column with
  | nil =>
    cases q with
    | nil => rfl
    | cons c q =>
      have hc := hq c rfl
      have hstop : column = 0 ∨ c = 10 ∨ c = 13 := hcolumn.imp_right fun h ↦ h.2 c rfl
      rw [List.nil_append, columnOffset, hc, if_neg Bool.false_ne_true, if_pos hstop]
      rfl
  | cons b p ih =>
    have hb := hp b List.mem_cons_self
    have hp := fun c hc ↦ hp c (List.mem_cons_of_mem b hc)
    have hunits : countUtf16CodeUnits (b :: p) = utf16Units b + countUtf16CodeUnits p := rfl
    rw [hunits] at hcolumn
    rw [List.cons_append, columnOffset]
    split
    · rename_i hcont
      rw [utf16Units_of_continuation hcont, Nat.zero_add] at hcolumn
      rw [ih hp hcolumn]
      exact congrArg some (Nat.add_comm 1 _)
    · rename_i hcont
      have hpos := utf16Units_pos (Bool.not_eq_true _ ▸ hcont)
      have hle : utf16Units b ≤ column := by
        obtain h | h := hcolumn <;> omega
      have hrest : column - utf16Units b = countUtf16CodeUnits p ∨
          countUtf16CodeUnits p ≤ column - utf16Units b ∧ AtLineEnd q := by
        obtain h | h := hcolumn
        · exact .inl (by omega)
        · exact .inr ⟨by omega, h.2⟩
      rw [if_neg (by rintro (h | h | h); exacts [by omega, hb.1 h, hb.2 h]), if_pos hle,
        ih hp hrest]
      exact congrArg some (Nat.add_comm 1 _)

theorem getLast_of_cons {b : UInt8} (h : ∀ c ∈ (b :: p).getLast?, c = 10) :
    ∀ c ∈ p.getLast?, c = 10 := by
  intro c hc
  cases p with
  | nil => cases hc
  | cons d p => exact h c (by rwa [List.getLast?_cons_cons])

/-- The lines of a text that ends with a newline. -/
theorem lineOffset_append (q : List UInt8) (hp : noBareCr p)
    (hlast : ∀ b ∈ p.getLast?, b = 10) : lineOffset (p.countP isNewline) (p ++ q) = p.length := by
  fun_induction noBareCr p with
  | case1 => rw [List.countP_nil, lineOffset, List.length_nil]
  | case2 p ih =>
    have hcount : (13 :: 10 :: p).countP isNewline = p.countP isNewline + 1 := by
      rw [List.countP_cons_of_neg (by decide), List.countP_cons_of_pos (by decide)]
    rw [hcount, List.cons_append, List.cons_append, lineOffset,
      ih hp (getLast_of_cons (getLast_of_cons hlast)), List.length_cons, List.length_cons]
    omega
  | case3 b p hne ih =>
    obtain ⟨hb, hp⟩ := Bool.and_eq_true_iff.mp hp
    have hb := of_decide_eq_true hb
    have hrest := ih hp (getLast_of_cons hlast)
    have heq : ∀ line, lineOffset (line + 1) (b :: (p ++ q)) =
        1 + if b = 10 ∨ b = 13 then lineOffset line (p ++ q)
          else lineOffset (line + 1) (p ++ q) := by
      intro line
      rw [lineOffset]
      rintro text rfl
      exact absurd rfl hb
    rw [List.cons_append, List.length_cons]
    by_cases hb' : b = 10
    · rw [List.countP_cons_of_pos (by rw [hb']; rfl), heq, if_pos (.inl hb'), hrest]
      omega
    · have hpos : 0 < p.countP isNewline := by
        cases hp' : p.getLast? with
        | none =>
          obtain rfl := List.getLast?_eq_none_iff.mp hp'
          exact absurd (hlast b rfl) hb'
        | some c =>
          refine List.countP_pos_iff.mpr ⟨c, List.mem_of_getLast? hp', ?_⟩
          rw [getLast_of_cons hlast c hp']
          rfl
      obtain ⟨n, hn⟩ := Nat.exists_eq_succ_of_ne_zero hpos.ne'
      rw [List.countP_cons_of_neg (by simpa [isNewline] using hb'), hn, heq,
        if_neg (not_or.mpr ⟨hb', hb⟩), ← Nat.succ_eq_add_one, ← hn, hrest]
      omega

theorem noBareCr_cons {b : UInt8} (h : noBareCr (b :: p)) :
    b ≠ 13 ∧ noBareCr p ∨ b = 13 ∧ ∃ p', p = 10 :: p' ∧ noBareCr p' := by
  rw [noBareCr.eq_def] at h
  split at h
  · rename_i heq
    cases heq
  · rename_i heq
    cases heq
    exact .inr ⟨rfl, _, rfl, h⟩
  · rename_i heq
    cases heq
    obtain ⟨hb, h⟩ := Bool.and_eq_true_iff.mp h
    exact .inl ⟨of_decide_eq_true hb, h⟩

/-- A newline cannot be between a carriage return and what follows it. -/
theorem noBareCr_append (hlast : ∀ b ∈ p.getLast?, b = 10) (h : noBareCr (p ++ q)) :
    noBareCr p ∧ noBareCr q := by
  fun_induction noBareCr p with
  | case1 => exact ⟨rfl, h⟩
  | case2 p ih =>
    obtain ⟨hne, -⟩ | ⟨-, p', heq, h⟩ := noBareCr_cons h
    · exact absurd rfl hne
    · cases heq
      exact ih (getLast_of_cons (getLast_of_cons hlast)) h
  | case3 b p hne ih =>
    obtain ⟨hb, h⟩ | ⟨rfl, p', heq, -⟩ := noBareCr_cons h
    · obtain ⟨hp, hq⟩ := ih (getLast_of_cons hlast) h
      exact ⟨Bool.and_eq_true_iff.mpr ⟨decide_eq_true hb, hp⟩, hq⟩
    · cases p with
      | nil => exact absurd (hlast 13 rfl) (by decide)
      | cons c p =>
        cases heq
        exact absurd rfl (hne p rfl)

theorem not_mem_of_noBareCr (h : noBareCr p) (hp : ∀ b ∈ p, b ≠ 10) : 13 ∉ p := by
  induction p with
  | nil => exact List.not_mem_nil
  | cons b p ih =>
    obtain ⟨hb, h⟩ | ⟨-, p', rfl, -⟩ := noBareCr_cons h
    · rw [List.mem_cons, not_or]
      exact ⟨hb.symm, ih h fun c hc ↦ hp c (List.mem_cons_of_mem _ hc)⟩
    · exact absurd rfl (hp 10 (List.mem_cons_of_mem _ List.mem_cons_self))

/-- What precedes the last line ends with a newline. -/
theorem getLast_rdropWhile (p : List UInt8) :
    ∀ b ∈ (p.rdropWhile fun b ↦ !isNewline b).getLast?, b = 10 := by
  intro b hb
  have hne := List.ne_nil_of_mem (List.mem_of_getLast? hb)
  have hlast := List.rdropWhile_last_not _ _ hne
  rw [List.getLast?_eq_some_getLast hne] at hb
  cases hb
  simpa [isNewline] using hlast

/-- No line ends in the last line. -/
theorem noBareCr_split (hp : noBareCr p) :
    noBareCr (p.rdropWhile fun b ↦ !isNewline b) ∧ ∀ b ∈ lastLine p, b ≠ 10 ∧ b ≠ 13 := by
  rw [← List.rdropWhile_append_rtakeWhile (p := fun b ↦ !isNewline b) (l := p)] at hp
  obtain ⟨hfirst, hlast⟩ := noBareCr_append (getLast_rdropWhile p) hp
  have hnewline : ∀ b ∈ lastLine p, b ≠ 10 := by
    intro b hb
    have := List.mem_rtakeWhile_imp hb
    simpa [isNewline] using this
  refine ⟨hfirst, fun b hb ↦ ⟨hnewline b hb, ?_⟩⟩
  rintro rfl
  exact not_mem_of_noBareCr hlast hnewline hb

theorem offsetAt_append {rest : List UInt8} (hp : noBareCr p) (hend : ∀ b ∈ p.getLast?, b = 10)
    (hq : ∀ b ∈ q, b ≠ 10 ∧ b ≠ 13) (hrest : ∀ b ∈ rest.head?, isContinuation b = false)
    (hline : position.line = p.countP isNewline)
    (hcharacter : position.character = countUtf16CodeUnits q ∨
      countUtf16CodeUnits q ≤ position.character ∧ AtLineEnd rest) :
    offsetAt (p ++ (q ++ rest)) position = some (p.length + q.length) := by
  rw [offsetAt, hline, lineOffset_append _ hp hend, List.drop_left,
    columnOffset_append hq hrest hcharacter]
  rfl

/-- **A position that denotes an offset is found there.** -/
theorem Denotes.offsetAt_eq (h : Denotes text offset position) (hlen : offset ≤ text.length)
    (hboundary : ∀ b ∈ (text.drop offset).head?, isContinuation b = false) :
    offsetAt text position = some offset := by
  obtain ⟨hfirst, hlast⟩ := noBareCr_split h.wholeLineEnds
  have hsplit : (text.take offset).rdropWhile (fun b ↦ !isNewline b) ++ lastLine (text.take offset)
      = text.take offset := List.rdropWhile_append_rtakeWhile ..
  have hnone : (lastLine (text.take offset)).countP isNewline = 0 := by
    rw [List.countP_eq_zero]
    intro b hb
    simpa [isNewline] using (hlast b hb).1
  have hline : position.line
      = ((text.take offset).rdropWhile fun b ↦ !isNewline b).countP isNewline := by
    calc position.line = (text.take offset).countP isNewline := h.line
      _ = _ + (lastLine (text.take offset)).countP isNewline := by
        rw [← List.countP_append, hsplit]
      _ = _ := by rw [hnone, Nat.add_zero]
  have hfound := offsetAt_append hfirst (getLast_rdropWhile _) hlast hboundary hline h.character
  rwa [← List.append_assoc, ← List.length_append, hsplit, List.take_append_drop, List.length_take,
    Nat.min_eq_left hlen] at hfound

end EeEditor.Lsp
