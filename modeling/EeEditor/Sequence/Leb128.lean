import Mathlib.Data.List.Forall2
import Mathlib.Data.Nat.Bitwise
import Mathlib.Tactic.Common

/-!
# Variable-length numbers

`Leb128 bs n` says that the bytes `bs` encode the number `n` with seven bits a byte, the lowest
first, and the high bit on every byte but the last. Numbers have no bound here, and zeros at the end
of an encoding are allowed. What follows an encoding does not matter for it (`Leb128.unique`).
-/

namespace EeEditor

inductive Leb128 : List UInt8 → ℕ → Prop
  | last {b : UInt8} : b.toNat < 128 → Leb128 [b] b.toNat
  | more {b : UInt8} {bs : List UInt8} {n : ℕ} :
      128 ≤ b.toNat → Leb128 bs n → Leb128 (b :: bs) (b.toNat % 128 + 128 * n)

variable {bs bs' rest rest' : List UInt8} {n n' : ℕ} {es es' : List (List UInt8)} {ns ns' : List ℕ}

theorem Leb128.length_pos (h : Leb128 bs n) : 0 < bs.length := by
  cases h with
  | last _ => exact Nat.one_pos
  | more _ _ => exact Nat.succ_pos _

theorem Leb128.unique (h : Leb128 bs n) (h' : Leb128 bs' n') (heq : bs ++ rest = bs' ++ rest') :
    bs = bs' ∧ n = n' ∧ rest = rest' := by
  induction h generalizing bs' n' with
  | last hb =>
    cases h' with
    | last hb' =>
      obtain ⟨rfl, rfl⟩ := List.cons.inj heq
      exact ⟨rfl, rfl, rfl⟩
    | more hb' _ =>
      obtain ⟨rfl, -⟩ := List.cons.inj heq
      omega
  | more hb _ ih =>
    cases h' with
    | last hb' =>
      obtain ⟨rfl, -⟩ := List.cons.inj heq
      omega
    | more hb' hrest =>
      obtain ⟨rfl, htail⟩ := List.cons.inj heq
      obtain ⟨rfl, rfl, rfl⟩ := ih hrest htail
      exact ⟨rfl, rfl, rfl⟩

/-- As many encodings one after another are told apart. -/
theorem Leb128.forall₂_unique (h : List.Forall₂ Leb128 es ns) (h' : List.Forall₂ Leb128 es' ns')
    (hlen : es.length = es'.length) (heq : es.flatten ++ rest = es'.flatten ++ rest') :
    es = es' ∧ ns = ns' ∧ rest = rest' := by
  induction h generalizing es' ns' with
  | nil =>
    cases h' with
    | nil => exact ⟨rfl, rfl, heq⟩
    | cons _ _ => cases hlen
  | cons he _ ih =>
    cases h' with
    | nil => cases hlen
    | cons he' hes' =>
      rw [List.flatten_cons, List.flatten_cons, List.append_assoc, List.append_assoc] at heq
      obtain ⟨rfl, rfl, heq⟩ := he.unique he' heq
      obtain ⟨rfl, rfl, rfl⟩ := ih hes' (Nat.succ.inj hlen) heq
      exact ⟨rfl, rfl, rfl⟩

/-! ## Bits of a byte -/

theorem and_low_bits (b : UInt8) : (b &&& 0x7F).toNat = b.toNat % 128 := by
  rw [UInt8.toNat_and]
  exact Nat.and_two_pow_sub_one_eq_mod b.toNat 7

theorem and_high_bit (b : UInt8) : b &&& 0x80 = 0 ↔ b.toNat < 128 := by
  obtain ⟨b⟩ := b
  revert b
  decide +kernel

theorem or_high_bit (b : UInt8) (h : b.toNat < 128) : (b ||| 0x80).toNat = b.toNat + 128 := by
  rw [UInt8.toNat_or, Nat.or_comm, Nat.add_comm]
  exact (Nat.two_pow_add_eq_or_of_lt (i := 7) h 1).symm

/-- Bits put above those of a number of `w` bits, of which those past the end are lost. -/
theorem or_shiftLeft_mod {v s w : ℕ} (x : ℕ) (hv : v < 2 ^ s) (hs : s ≤ w) :
    v ||| ((x <<< s) % 2 ^ w) = (v + 2 ^ s * x) % 2 ^ w := by
  obtain ⟨t, rfl⟩ := Nat.exists_eq_add_of_le hs
  rw [Nat.shiftLeft_eq, Nat.mul_comm, Nat.pow_add, Nat.mul_mod_mul_left, Nat.or_comm,
    ← Nat.two_pow_add_eq_or_of_lt hv, Nat.mod_mul, Nat.add_mul_mod_self_left, Nat.mod_eq_of_lt hv,
    Nat.add_mul_div_left _ _ (Nat.two_pow_pos s), Nat.div_eq_of_lt hv, Nat.zero_add, Nat.add_comm]

end EeEditor
