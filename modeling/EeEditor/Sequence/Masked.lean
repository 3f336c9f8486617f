import Mathlib.Data.List.Basic
import Mathlib.Order.Basic
import Mathlib.Tactic.Common

/-!
# Sequences cut and filled through a mask

A mask is a sequence of multiplicities; its *zero positions* are the places a mask leaves alone.
`keepZero` cuts a sequence down to the zero positions of a mask, `fillZero` goes the other way and
spreads a sequence over them.

Both are best read on *labelled* sequences: when the sequence and the mask are two functions
`a`, `b` mapped over one list `u` of labels, cutting is filtering the labels
(`keepZero_map`) and filling is overriding the function (`fillZero_map`). A calculation with
positions is then a calculation with functions on labels.
-/

namespace EeEditor

variable {β κ : Type*}

/-- The number of zero positions. -/
@[grind =] def zeros (mask : List ℕ) : ℕ := mask.count 0

@[simp] theorem zeros_nil : zeros [] = 0 := rfl

@[simp] theorem zeros_zero_cons (mask : List ℕ) : zeros (0 :: mask) = zeros mask + 1 := by
  simp [zeros]

@[simp] theorem zeros_succ_cons (c : ℕ) (mask : List ℕ) :
    zeros ((c + 1) :: mask) = zeros mask := by
  simp [zeros]

@[simp] theorem zeros_append (m m' : List ℕ) : zeros (m ++ m') = zeros m + zeros m' :=
  List.count_append

@[simp] theorem zeros_replicate_zero (n : ℕ) : zeros (List.replicate n 0) = n := by simp [zeros]

@[simp] theorem zeros_replicate_succ (n c : ℕ) : zeros (List.replicate n (c + 1)) = 0 := by
  simp [zeros, List.count_replicate]

theorem zeros_map (u : List κ) (b : κ → ℕ) :
    zeros (u.map b) = (u.filter fun k ↦ b k = 0).length := by
  induction u with
  | nil => rfl
  | cons k u ih =>
    rw [List.map_cons, List.filter_cons]
    cases hb : b k with
    | zero => simp [ih]
    | succ c => simp [ih]

/-- The number of positions that are not zero. -/
@[grind =] def nonzeros (mask : List ℕ) : ℕ := mask.countP (· != 0)

@[simp] theorem nonzeros_nil : nonzeros [] = 0 := rfl

@[simp] theorem nonzeros_zero_cons (mask : List ℕ) : nonzeros (0 :: mask) = nonzeros mask := by
  simp [nonzeros]

@[simp] theorem nonzeros_succ_cons (c : ℕ) (mask : List ℕ) :
    nonzeros ((c + 1) :: mask) = nonzeros mask + 1 := by
  simp [nonzeros]

theorem zeros_add_nonzeros (mask : List ℕ) : zeros mask + nonzeros mask = mask.length := by
  induction mask with
  | nil => rfl
  | cons c mask ih =>
    cases c with
    | zero => simp; omega
    | succ c => simp; omega

theorem nonzeros_map (u : List κ) (b : κ → ℕ) :
    nonzeros (u.map b) = (u.filter fun k ↦ b k ≠ 0).length := by
  induction u with
  | nil => rfl
  | cons k u ih =>
    rw [List.map_cons, List.filter_cons]
    cases hb : b k with
    | zero => simp [ih]
    | succ c => simp [ih]

/-! ## Cutting -/

/-- The elements at the zero positions of the mask. -/
def keepZero : List β → List ℕ → List β
  | a :: as, 0 :: mask => a :: keepZero as mask
  | _ :: as, (_ + 1) :: mask => keepZero as mask
  | _, _ => []

@[simp] theorem keepZero_nil (as : List β) : keepZero as [] = [] := by
  cases as <;> rfl

@[simp] theorem nil_keepZero (mask : List ℕ) : keepZero ([] : List β) mask = [] := by
  cases mask <;> rfl

@[simp] theorem keepZero_cons_zero (a : β) (as : List β) (mask : List ℕ) :
    keepZero (a :: as) (0 :: mask) = a :: keepZero as mask := rfl

@[simp] theorem keepZero_cons_succ (a : β) (as : List β) (c : ℕ) (mask : List ℕ) :
    keepZero (a :: as) ((c + 1) :: mask) = keepZero as mask := rfl

/-- Cutting a labelled sequence is filtering the labels. -/
theorem keepZero_map (u : List κ) (a : κ → β) (b : κ → ℕ) :
    keepZero (u.map a) (u.map b) = (u.filter fun k ↦ b k = 0).map a := by
  induction u with
  | nil => rfl
  | cons k u ih =>
    rw [List.map_cons, List.map_cons, List.filter_cons]
    cases hb : b k with
    | zero => simp [ih]
    | succ c => simp [ih]

theorem length_keepZero {as : List β} {mask : List ℕ} (h : as.length = mask.length) :
    (keepZero as mask).length = zeros mask := by
  induction as generalizing mask with
  | nil =>
    obtain rfl : mask = [] := List.eq_nil_of_length_eq_zero h.symm
    rfl
  | cons a as ih =>
    cases mask with
    | nil => cases h
    | cons c mask =>
      have hlen : as.length = mask.length := by simpa using h
      cases c <;> simp [ih hlen]

theorem keepZero_append {as : List β} {mask : List ℕ} (h : as.length = mask.length)
    (as' : List β) (mask' : List ℕ) :
    keepZero (as ++ as') (mask ++ mask') = keepZero as mask ++ keepZero as' mask' := by
  induction as generalizing mask with
  | nil =>
    obtain rfl : mask = [] := List.eq_nil_of_length_eq_zero h.symm
    simp
  | cons a as ih =>
    cases mask with
    | nil => simp at h
    | cons c mask =>
      have hlen : as.length = mask.length := by simpa using h
      cases c <;> simp [ih hlen]

theorem keepZero_replicate (as : List β) (c : ℕ) :
    keepZero as (List.replicate as.length c) = if c = 0 then as else [] := by
  induction as with
  | nil => simp
  | cons a as ih =>
    rw [List.length_cons, List.replicate_succ]
    cases c <;> simp_all

/-! ## Filling -/

/-- Put `as` in order into the zero positions of the mask, and `f c` at a position of
multiplicity `c ≠ 0`. -/
@[grind =] def fillZero (f : ℕ → β) : List ℕ → List β → List β
  | 0 :: mask, a :: as => a :: fillZero f mask as
  | 0 :: _, [] => []
  | (c + 1) :: mask, as => f (c + 1) :: fillZero f mask as
  | [], _ => []

theorem fillZero_replicate_zero_append (f : ℕ → β) (mask : List ℕ) :
    ∀ (n : ℕ) (as : List β), n ≤ as.length →
      fillZero f (List.replicate n 0 ++ mask) as = as.take n ++ fillZero f mask (as.drop n) := by
  intro n
  induction n with
  | zero => intro as _; simp
  | succ n ih =>
    intro as h
    cases as with
    | nil => simp at h
    | cons a as =>
      rw [List.replicate_succ, List.cons_append, fillZero, ih as (by simpa using h)]
      simp

theorem fillZero_replicate_succ_append (f : ℕ → β) (mask : List ℕ) (c : ℕ) (as : List β) (n : ℕ) :
    fillZero f (List.replicate n (c + 1) ++ mask) as
      = List.replicate n (f (c + 1)) ++ fillZero f mask as := by
  induction n with
  | zero => simp
  | succ n ih =>
    rw [List.replicate_succ, List.cons_append, fillZero, ih, List.replicate_succ, List.cons_append]

theorem length_fillZero (f : ℕ → β) {mask : List ℕ} {as : List β}
    (h : as.length = zeros mask) : (fillZero f mask as).length = mask.length := by
  induction mask generalizing as with
  | nil => simp [fillZero]
  | cons c mask ih =>
    cases c with
    | zero =>
      cases as with
      | nil => simp at h
      | cons a as =>
        have hlen : as.length = zeros mask := by simpa using h
        simp [fillZero, ih hlen]
    | succ c =>
      have hlen : as.length = zeros mask := by simpa using h
      simp [fillZero, ih hlen]

/-- Filling a labelled sequence is overriding its function where the mask is positive. -/
theorem fillZero_map (f : ℕ → β) (u : List κ) (a : κ → β) (b : κ → ℕ) :
    fillZero f (u.map b) ((u.filter fun k ↦ b k = 0).map a)
      = u.map fun k ↦ if b k = 0 then a k else f (b k) := by
  induction u with
  | nil => rfl
  | cons k u ih =>
    rw [List.map_cons, List.map_cons, List.filter_cons]
    cases hb : b k with
    | zero => simp [fillZero, ih]
    | succ c => simp [fillZero, ih]

end EeEditor
