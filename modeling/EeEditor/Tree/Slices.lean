import EeEditor.Tree.Node
import EeEditor.Tree.TextConvert
import EeEditor.Tree.TextLaws

/-!
# Slices and decoded bytes

Slices of a text at byte positions, as by `&s[start..end]`, and texts from bytes, as by
`str::from_utf8`.
-/

namespace EeEditor.BTree

/-- The parts before and after a position, as by `split_off` and the slices at it: `none` off a
boundary. -/
def splitOff : Text → ℕ → Option (Text × Text)
  | s, 0 => some ([], s)
  | [], _ + 1 => none
  | c :: s, n + 1 =>
    if n + 1 < (String.utf8EncodeChar c).length then none
    else (splitOff s (n + 1 - (String.utf8EncodeChar c).length)).map fun (u, v) ↦ (c :: u, v)

/-- `&s[start..end]`. -/
def sliceText (s : Text) (start end_ : ℕ) : Option Text := do
  let (u, _) ← splitOff s end_
  let (_, v) ← splitOff u start
  return v

/-! ## Splits -/

variable {s t u : Text} {o j : ℕ}

theorem splitOff_append (u s : Text) : splitOff (u ++ s) (Leaf.len u) = some (u, s) := by
  induction u with
  | nil =>
    cases s with
    | nil => rfl
    | cons c s => rfl
  | cons c u ih =>
    obtain ⟨n, hn⟩ : ∃ n, Leaf.len (c :: u) = n + 1 :=
      Nat.exists_eq_succ_of_ne_zero (len_pos (List.cons_ne_nil c u)).ne'
    have hlen := len_cons c u
    rw [hn] at hlen ⊢
    rw [List.cons_append, splitOff, if_neg (by omega), hlen, Nat.add_sub_cancel_left, ih]
    rfl

/-- A boundary follows an ASCII byte, and stands before one. -/
theorem isCharBoundary_succ {b : UInt8} (hb : (bytes s)[o]? = some b) (hlt : b < 128) :
    isCharBoundary (bytes s) (o + 1) = true := by
  have ho := (List.getElem?_eq_some_iff.mp hb).1
  rw [isCharBoundary_iff]
  rcases Nat.lt_or_ge (o + 1) (bytes s).length with hlt' | hge
  · exact .inr (.inr ⟨_, List.getElem?_eq_getElem hlt',
      (isUtf8_bytes s).after_ascii hb hlt (List.getElem?_eq_getElem hlt')⟩)
  · exact .inr (.inl (by omega))

theorem isCharBoundary_of_ascii {b : UInt8} (hb : (bytes s)[o]? = some b) (hlt : b < 128) :
    isCharBoundary (bytes s) o = true := by
  refine isCharBoundary_iff.mpr (.inr (.inr ⟨b, hb, ?_⟩))
  rw [isContinuation, Bool.and_eq_false_iff]
  exact .inl (decide_eq_false (UInt8.not_le.mpr hlt))

theorem length_bytes_append (s t : Text) :
    (bytes (s ++ t)).length = (bytes s).length + (bytes t).length := len_append s t

theorem isCharBoundary_between (w s : Text) :
    isCharBoundary (bytes (w ++ s)) (bytes w).length = true := by
  rw [isCharBoundary_append, if_pos (Nat.le_refl _)]
  exact isCharBoundary_length

theorem isCharBoundary_within (w : Text) (x : Char) (s : Text) (hpos : 0 < j)
    (hj : j < (String.utf8EncodeChar x).length) :
    isCharBoundary (bytes (w ++ x :: s)) ((bytes w).length + j) = false := by
  rw [isCharBoundary_append, if_neg (by omega), Nat.add_sub_cancel_left]
  exact isCharBoundary_inside hpos hj

/-! ## Decoding -/

/-- `str::from_utf8`. -/
def fromUtf8 (bs : List UInt8) : Option Text := bs.toByteArray.utf8Decode?.map Array.toList

section

variable {bs rest : List UInt8} {s t : Text}

theorem fromUtf8_bytes (s : Text) : fromUtf8 (bytes s) = some s := by
  change (s.utf8Encode.utf8Decode?).map Array.toList = some s
  rw [List.utf8Decode?_utf8Encode]
  rfl

theorem isSome_fromUtf8 : (fromUtf8 bs).isSome = true ↔ ∃ s, bs = bytes s := by
  rw [fromUtf8, Option.isSome_map, ByteArray.isSome_utf8Decode?_eq_validateUTF8, validateUTF8_iff]
  rfl

/-- What follows a text in a text is a text. -/
theorem exists_rest (h : IsUtf8 (bytes s ++ rest)) : ∃ t, rest = bytes t := by
  obtain ⟨cs, hcs⟩ := h
  change _ = bytes cs at hcs
  obtain ⟨t, rfl⟩ := prefix_of_bytes ⟨rest, hcs⟩
  rw [bytes_append] at hcs
  exact ⟨t, List.append_cancel_left hcs⟩

end

end EeEditor.BTree
