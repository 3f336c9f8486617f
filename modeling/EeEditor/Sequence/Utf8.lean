import Mathlib.Data.List.Basic
import Mathlib.Tactic.Common
import EeEditor.Sequence.Select

/-!
# UTF-8 text as bytes

Strings are modelled by the bytes of their UTF-8 encoding. A position is a character boundary when
the byte there begins a character; a slice of a string panics off a boundary. In the encoding of a
sequence of characters an ASCII byte is a character of its own, so a boundary follows it.
-/

namespace EeEditor

/-- The line feed. -/
def isNewline (b : UInt8) : Bool := b == 10

def countNewlines (bs : List UInt8) : ℕ := bs.countP isNewline

/-- A byte that does not begin a character. -/
@[grind =] def isContinuation (b : UInt8) : Bool := 128 ≤ b && b < 192

/-- `count_chars`: how many bytes begin a character. -/
@[grind =] def countChars (bs : List UInt8) : ℕ := bs.countP fun b ↦ !isContinuation b

/-- `str::is_char_boundary`. -/
def isCharBoundary (s : List UInt8) (i : ℕ) : Bool :=
  match s[i]? with
  | some b => i == 0 || !isContinuation b
  | none => i == s.length

/-- The encoding of a sequence of characters. -/
def IsUtf8 (s : List UInt8) : Prop := ∃ cs : List Char, s = cs.flatMap String.utf8EncodeChar

/-- The encoding of a character: one byte that begins it, and continuation bytes if that is not
ASCII. -/
theorem utf8EncodeChar_eq_cons (c : Char) : ∃ b rest, String.utf8EncodeChar c = b :: rest ∧
    isContinuation b = false ∧ (∀ x ∈ rest, isContinuation x = true) ∧ (b < 128 → rest = []) := by
  fun_cases String.utf8EncodeChar c with
  | case1 v h =>
    refine ⟨_, _, rfl, ?_, by simp, fun _ ↦ rfl⟩
    simp [isContinuation, UInt8.le_iff_toNat_le, UInt8.lt_iff_toNat_lt]
    omega
  | case2 | case3 | case4 =>
    refine ⟨_, _, rfl, ?_, ?_, ?_⟩
    · simp [isContinuation, UInt8.le_iff_toNat_le, UInt8.lt_iff_toNat_lt]
      omega
    · simp [isContinuation, UInt8.le_iff_toNat_le, UInt8.lt_iff_toNat_lt]
      omega
    · simp [UInt8.lt_iff_toNat_lt]
      omega

theorem toNat_toLower (c : Char) :
    c.toLower.toNat = if 65 ≤ c.toNat ∧ c.toNat ≤ 90 then c.toNat + 32 else c.toNat := by
  delta Char.toLower
  split
  · rename_i hupper
    have hrange : 65 ≤ c.toNat ∧ c.toNat ≤ 90 := by simpa [UInt32.le_iff_toNat_le] using hupper
    rw [if_pos hrange]
    change (c.val + 32).toNat = _
    rw [UInt32.toNat_add]
    change (c.toNat + 32) % 2 ^ 32 = _
    omega
  · rename_i hupper
    rw [if_neg (by simpa [UInt32.le_iff_toNat_le] using hupper)]

/-- A character is a single byte just if it is ASCII. -/
theorem encode_ascii {ch : Char} (hch : ch.toNat < 128) :
    ∃ b, String.utf8EncodeChar ch = [b] ∧ b.toNat = ch.toNat := by
  have hval : ch.toNat = ch.val.toNat := rfl
  have hsize : ch.utf8Size = 1 := by
    rw [Char.utf8Size_eq_one_iff, UInt32.le_iff_toNat_le]
    change ch.val.toNat ≤ 127
    omega
  refine ⟨_, String.utf8EncodeChar_eq_singleton hsize, ?_⟩
  rw [UInt32.toNat_toUInt8]
  omega

theorem ascii_of_length {ch : Char} (hch : (String.utf8EncodeChar ch).length = 1) :
    ch.toNat < 128 := by
  rw [String.length_utf8EncodeChar, Char.utf8Size_eq_one_iff, UInt32.le_iff_toNat_le] at hch
  exact Nat.lt_succ_of_le hch

/-- No byte of another character is ASCII. -/
theorem ge_of_mem_encode {ch : Char} (hch : 128 ≤ ch.toNat) {b : UInt8}
    (hb : b ∈ String.utf8EncodeChar ch) : 128 ≤ b := by
  obtain ⟨first, rest, hcons, -, hrest, hascii⟩ := utf8EncodeChar_eq_cons ch
  rw [hcons] at hb
  rcases List.mem_cons.mp hb with rfl | hb
  · by_contra hlt
    have hnil := hascii (UInt8.not_le.mp hlt)
    have hlength : ch.toNat < 128 := ascii_of_length (by rw [hcons, hnil]; rfl)
    omega
  · have hcont := hrest b hb
    rw [isContinuation, Bool.and_eq_true, decide_eq_true_iff] at hcont
    exact hcont.1

namespace IsUtf8

variable {s : List UInt8}

/-- A text begins with a character. -/
theorem head (h : IsUtf8 s) {b : UInt8} (hb : s[0]? = some b) : isContinuation b = false := by
  obtain ⟨cs, rfl⟩ := h
  cases cs with
  | nil => simp at hb
  | cons c cs =>
    obtain ⟨b', rest, hc, hb', -, -⟩ := utf8EncodeChar_eq_cons c
    rw [List.flatMap_cons, hc] at hb
    simp only [List.cons_append, List.getElem?_cons_zero, Option.some_inj] at hb
    exact hb ▸ hb'

/-- A character begins after an ASCII byte. -/
theorem after_ascii (h : IsUtf8 s) {i : ℕ} {a b : UInt8} (ha : s[i]? = some a) (hlt : a < 128)
    (hb : s[i + 1]? = some b) : isContinuation b = false := by
  obtain ⟨cs, rfl⟩ := h
  induction cs generalizing i with
  | nil => simp at ha
  | cons c cs ih =>
    obtain ⟨b', rest, hc, hb', hrest, hascii⟩ := utf8EncodeChar_eq_cons c
    rw [List.flatMap_cons, hc] at ha hb
    cases i with
    | zero =>
      simp only [List.cons_append, List.getElem?_cons_zero, Option.some_inj] at ha
      rw [hascii (ha ▸ hlt)] at hb
      exact head ⟨cs, rfl⟩ (by simpa using hb)
    | succ i =>
      simp only [List.cons_append, List.getElem?_cons_succ] at ha hb
      rcases Nat.lt_or_ge i rest.length with hi | hi
      · -- the byte continues a character, so it is not ASCII
        rw [List.getElem?_append_left hi] at ha
        have hcont := hrest a (List.mem_of_getElem? ha)
        rw [isContinuation, Bool.and_eq_true, decide_eq_true_iff] at hcont
        exact absurd hlt (UInt8.not_lt.mpr hcont.1)
      · rw [List.getElem?_append_right hi] at ha
        rw [List.getElem?_append_right (by omega), Nat.sub_add_comm hi] at hb
        exact ih ha hb

end IsUtf8

/-! ## Boundaries -/

section

variable {s n t : List UInt8} {i q beg end_ : ℕ}

theorem isCharBoundary_iff : isCharBoundary s i = true ↔
    i = 0 ∨ i = s.length ∨ ∃ b, s[i]? = some b ∧ isContinuation b = false := by
  rw [isCharBoundary]
  cases hs : s[i]? with
  | none =>
    have := List.getElem?_eq_none_iff.mp hs
    simp
    omega
  | some b =>
    have hne : i ≠ s.length := (List.getElem?_eq_some_iff.mp hs).1.ne
    simp [hne]

theorem isCharBoundary_zero : isCharBoundary s 0 = true := isCharBoundary_iff.mpr (.inl rfl)

theorem isCharBoundary_length : isCharBoundary s s.length = true :=
  isCharBoundary_iff.mpr (.inr (.inl rfl))

/-- The boundaries of a text are boundaries of a slice. -/
theorem isCharBoundary_slice (hend : beg + end_ ≤ s.length) (hi : i ≤ end_)
    (h : isCharBoundary s (beg + i) = true) :
    isCharBoundary ((s.drop beg).take end_) i = true := by
  rcases Nat.lt_or_ge i end_ with hlt | hge
  · rw [isCharBoundary_iff] at h ⊢
    rw [List.getElem?_take_of_lt hlt, List.getElem?_drop]
    rcases h with h | h | h
    · exact .inl (by omega)
    · omega
    · exact .inr (.inr h)
  · obtain rfl : i = end_ := by omega
    refine isCharBoundary_iff.mpr (.inr (.inl ?_))
    rw [List.length_take, List.length_drop]
    omega

/-- Boundaries before a splice stay where they are. -/
theorem isCharBoundary_splice_of_le (hn : IsUtf8 n) (hle : beg ≤ end_) (hlen : end_ ≤ s.length)
    (hend : isCharBoundary s end_ = true) (hq : q ≤ beg) (h : isCharBoundary s q = true) :
    isCharBoundary (s.take beg ++ n ++ s.drop end_) q = true := by
  have htake : (s.take beg).length = beg := by rw [List.length_take]; omega
  rw [isCharBoundary_iff] at h ⊢
  rcases Nat.lt_or_ge q beg with hlt | hge
  · rcases h with h | h | h
    · exact .inl h
    · omega
    · right; right
      rwa [List.append_assoc, List.getElem?_append_left (by omega), List.getElem?_take_of_lt hlt]
  · obtain rfl : q = beg := by omega
    cases n with
    | nil =>
      rw [isCharBoundary_iff] at hend
      rcases hend with hend | hend | hend
      · exact .inl (by omega)
      · exact .inr (.inl (by simp [htake, hend]))
      · right; right
        rw [List.append_nil, List.getElem?_append_right (by omega), htake, Nat.sub_self,
          List.getElem?_drop, Nat.add_zero]
        exact hend
    | cons b n =>
      right; right
      refine ⟨b, ?_, hn.head rfl⟩
      rw [List.append_assoc, List.getElem?_append_right (by omega), htake, Nat.sub_self]
      rfl

/-- Boundaries after a splice move with the text. -/
theorem isCharBoundary_splice_of_ge (hs : IsUtf8 s) (n : List UInt8) (hle : beg ≤ end_)
    (hlen : end_ ≤ s.length) (hq : end_ ≤ q) (h : isCharBoundary s q = true) :
    isCharBoundary (s.take beg ++ n ++ s.drop end_) (beg + n.length + (q - end_)) = true := by
  have htake : (s.take beg ++ n).length = beg + n.length := by
    rw [List.length_append, List.length_take]
    omega
  rw [isCharBoundary_iff] at h ⊢
  have hget : (s.take beg ++ n ++ s.drop end_)[beg + n.length + (q - end_)]? = s[q]? := by
    rw [List.getElem?_append_right (by omega), htake, Nat.add_sub_cancel_left, List.getElem?_drop,
      Nat.add_sub_cancel' hq]
  rw [hget]
  cases hsq : s[q]? with
  | none =>
    have hge := List.getElem?_eq_none_iff.mp hsq
    have hq' : q = s.length := by
      rcases h with h | h | ⟨b, hb, -⟩
      · omega
      · exact h
      · rw [hsq] at hb
        cases hb
    right; left
    rw [List.length_append, htake, List.length_drop]
    omega
  | some c =>
    refine .inr (.inr ⟨c, rfl, ?_⟩)
    rcases h with rfl | h | ⟨b, hb, hcont⟩
    · exact hs.head hsq
    · rw [h, List.getElem?_eq_none le_rfl] at hsq
      cases hsq
    · rw [hsq, Option.some_inj] at hb
      exact hb ▸ hcont

/-- A line begins at a boundary, whatever ASCII bytes end lines. -/
theorem IsUtf8.isCharBoundary_select {p : UInt8 → Bool} (hs : IsUtf8 s)
    (hp : ∀ b, p b = true → b < 128) {k : ℕ} (h : select p s k = some i) :
    isCharBoundary s i = true := by
  cases i with
  | zero => exact isCharBoundary_zero
  | succ i =>
    obtain ⟨a, ha, hpa⟩ := match_of_select h
    rw [isCharBoundary_iff]
    rcases Nat.lt_or_ge (i + 1) s.length with hlt | hge
    · exact .inr (.inr ⟨_, List.getElem?_eq_getElem hlt,
        hs.after_ascii ha (hp a hpa) (List.getElem?_eq_getElem hlt)⟩)
    · exact .inr (.inl (le_antisymm (select_le_length h) hge))

theorem IsUtf8.nil : IsUtf8 [] := ⟨[], rfl⟩

theorem IsUtf8.append (hs : IsUtf8 s) (ht : IsUtf8 t) : IsUtf8 (s ++ t) := by
  obtain ⟨cs, rfl⟩ := hs
  obtain ⟨ds, rfl⟩ := ht
  exact ⟨cs ++ ds, List.flatMap_append.symm⟩

/-- A text is a text on both sides of a boundary. -/
theorem IsUtf8.split (h : IsUtf8 s) (hi : isCharBoundary s i = true) :
    IsUtf8 (s.take i) ∧ IsUtf8 (s.drop i) := by
  obtain ⟨cs, rfl⟩ := h
  induction cs generalizing i with
  | nil => simpa using IsUtf8.nil
  | cons c cs ih =>
    obtain ⟨b, rest, hc, -, hrest, -⟩ := utf8EncodeChar_eq_cons c
    have hchar : IsUtf8 (b :: rest) := ⟨[c], by simp [hc]⟩
    rw [List.flatMap_cons, hc] at hi ⊢
    rw [isCharBoundary_iff] at hi
    rcases Nat.lt_or_ge i (b :: rest).length with hlt | hge
    · cases i with
      | zero => exact ⟨.nil, hchar.append ⟨cs, rfl⟩⟩
      | succ i =>
        -- the byte continues the character
        rw [List.length_cons] at hlt
        obtain ⟨x, hx, hcont⟩ : ∃ x, ((b :: rest) ++ cs.flatMap String.utf8EncodeChar)[i + 1]?
            = some x ∧ isContinuation x = false := by
          rcases hi with hi | hi | hi
          · cases hi
          · simp only [List.length_append, List.length_cons] at hi
            omega
          · exact hi
        rw [List.cons_append, List.getElem?_cons_succ, List.getElem?_append_left (by omega)] at hx
        rw [hrest x (List.mem_of_getElem? hx)] at hcont
        cases hcont
    · obtain ⟨j, rfl⟩ := Nat.exists_eq_add_of_le hge
      rw [List.take_length_add_append, List.drop_length_add_append]
      obtain ⟨htake, hdrop⟩ := ih (i := j) <| isCharBoundary_iff.mpr <| by
        rcases hi with hi | hi | hi
        · rw [List.length_cons] at hi
          omega
        · rw [List.length_append] at hi
          exact .inr (.inl (by omega))
        · rw [List.getElem?_append_right (Nat.le_add_right _ _), Nat.add_sub_cancel_left] at hi
          exact .inr (.inr hi)
      exact ⟨hchar.append htake, hdrop⟩

/-- The check of the standard library. -/
theorem validateUTF8_iff : s.toByteArray.validateUTF8 = true ↔ IsUtf8 s := by
  rw [ByteArray.validateUTF8_eq_true_iff]
  constructor
  · rintro ⟨cs, hcs⟩
    exact ⟨cs, by simpa [List.utf8Encode] using hcs⟩
  · rintro ⟨cs, rfl⟩
    exact ⟨cs, rfl⟩
/-- `&s[beg..end_]`. -/
def sliceStr (s : List UInt8) (beg end_ : ℕ) : Option (List UInt8) :=
  if beg ≤ end_ ∧ end_ ≤ s.length ∧ isCharBoundary s beg ∧ isCharBoundary s end_ then
    some ((s.drop beg).take (end_ - beg))
  else none

theorem sliceStr_eq (hle : beg ≤ end_) (hlen : end_ ≤ s.length)
    (hbeg : isCharBoundary s beg = true) (hend : isCharBoundary s end_ = true) :
    sliceStr s beg end_ = some ((s.drop beg).take (end_ - beg)) := if_pos ⟨hle, hlen, hbeg, hend⟩

end

end EeEditor
