import Mathlib.Data.List.Basic
import Mathlib.Tactic.SplitIfs

/-!
# Binary search

The model of `slice::binary_search_by` of the standard library, with its loop. On a list that is
below, then perhaps once at, then above what is searched for, it gives the place in between.
-/

namespace EeEditor

variable {α : Type}

/-- The loop, with `size` elements left from `base` on. It halves `size`, so a fuel of `size`
suffices. -/
def binarySearchFrom (l : List α) (f : α → Ordering) : ℕ → ℕ → ℕ → ℕ
  | 0, base, _ => base
  | fuel + 1, base, size =>
    if size > 1 then
      let half := size / 2
      let mid := base + half
      binarySearchFrom l f fuel (if l[mid]?.map f = some .gt then base else mid) (size - half)
    else base

/-- `binary_search_by`: the place of an element that is equal, or else where one would be
inserted. -/
def binarySearchBy (l : List α) (f : α → Ordering) : Except ℕ ℕ :=
  if l.length = 0 then .error 0
  else
    let base := binarySearchFrom l f l.length 0 l.length
    match l[base]?.map f with
    | some .eq => .ok base
    | some .lt => .error (base + 1)
    | _ => .error base

/-- What is searched for lies between the two parts, or it is the first element of the second. -/
structure Separates (pre post : List α) (f : α → Ordering) : Prop where
  before : ∀ x ∈ pre, f x = .lt
  head : ∀ x ∈ post.head?, f x ≠ .lt
  after : ∀ x ∈ post.tail, f x = .gt

namespace Separates

variable {pre post : List α} {f : α → Ordering}

theorem getElem?_eq_lt (h : Separates pre post f) {i : ℕ} (hi : i < pre.length) :
    (pre ++ post)[i]?.map f = some .lt := by
  rw [List.getElem?_append_left hi, List.getElem?_eq_getElem hi, Option.map_some,
    h.before _ (List.getElem_mem hi)]

theorem getElem?_eq_gt (h : Separates pre post f) {i : ℕ} (hi : pre.length < i)
    (hlen : i < (pre ++ post).length) : (pre ++ post)[i]?.map f = some .gt := by
  obtain ⟨k, rfl⟩ := Nat.exists_eq_add_of_lt hi
  rw [List.getElem?_append_right (by omega), Nat.add_assoc, Nat.add_sub_cancel_left]
  cases post with
  | nil =>
    rw [List.append_nil] at hlen
    omega
  | cons x post =>
    have hk : k < post.length := by
      rw [List.length_append, List.length_cons] at hlen
      omega
    rw [List.getElem?_cons_succ, List.getElem?_eq_getElem hk, Option.map_some,
      h.after _ (List.getElem_mem hk)]

/-- What is above is followed by what is above. -/
theorem le_of_gt (h : Separates pre post f) {i : ℕ}
    (hi : (pre ++ post)[i]?.map f = some .gt) : pre.length ≤ i := by
  by_contra hlt
  rw [h.getElem?_eq_lt (Nat.not_le.mp hlt)] at hi
  cases hi

/-- The loop ends at the last place that is not above, or at the first place. -/
theorem binarySearchFrom_spec (h : Separates pre post f) (fuel base size : ℕ) (hsize : 0 < size)
    (hfuel : size ≤ fuel + 1) (hlen : base + size ≤ (pre ++ post).length)
    (habove : ∀ i, base + size ≤ i → i < (pre ++ post).length →
      (pre ++ post)[i]?.map f = some .gt)
    (hbase : base = 0 ∨ (pre ++ post)[base]?.map f ≠ some .gt) :
    let r := binarySearchFrom (pre ++ post) f fuel base size
    r < (pre ++ post).length ∧
      (∀ i, r < i → i < (pre ++ post).length → (pre ++ post)[i]?.map f = some .gt) ∧
      (r = 0 ∨ (pre ++ post)[r]?.map f ≠ some .gt) := by
  induction fuel generalizing base size with
  | zero => exact ⟨by rw [binarySearchFrom]; omega, fun i hi ↦ habove i (by
      rw [binarySearchFrom] at hi; omega), hbase⟩
  | succ fuel ih =>
    rw [binarySearchFrom]
    by_cases hone : size > 1
    · rw [if_pos hone]
      dsimp only
      by_cases hmid : (pre ++ post)[base + size / 2]?.map f = some .gt
      · rw [if_pos hmid]
        refine ih _ _ (by omega) (by omega) (by omega) (fun i hi hlt ↦ ?_) hbase
        have hfirst := h.le_of_gt hmid
        rcases Nat.lt_or_ge (base + size / 2) i with hlate | hearly
        · exact h.getElem?_eq_gt (by omega) hlt
        · rwa [show i = base + size / 2 by omega]
      · rw [if_neg hmid]
        exact ih _ _ (by omega) (by omega) (by omega)
          (fun i hi hlt ↦ habove i (by omega) hlt) (.inr hmid)
    · rw [if_neg hone]
      exact ⟨by omega, fun i hi ↦ habove i (by omega), hbase⟩

/-- The search gives the place between the parts. -/
theorem binarySearchBy_eq (h : Separates pre post f) : binarySearchBy (pre ++ post) f
    = if post.head?.map f = some .eq then .ok pre.length else .error pre.length := by
  rw [binarySearchBy]
  split
  · next hnil =>
    rw [List.length_eq_zero_iff, List.append_eq_nil_iff] at hnil
    rw [hnil.1, hnil.2]
    rfl
  · next hne =>
    obtain ⟨hr, habove, hstop⟩ := h.binarySearchFrom_spec (pre ++ post).length 0
      (pre ++ post).length (by omega) (by omega) (by omega) (fun i hi hlt ↦ by omega) (.inl rfl)
    generalize binarySearchFrom (pre ++ post) f (pre ++ post).length 0 (pre ++ post).length = r at *
    dsimp only at hr habove hstop ⊢
    have hhead : (pre ++ post)[pre.length]?.map f = post.head?.map f := by
      rw [List.getElem?_append_right (Nat.le_refl _), Nat.sub_self, List.head?_eq_getElem?]
    rcases Nat.lt_trichotomy r pre.length with hlt | rfl | hgt
    · -- the last element of the first part
      have hlast : r + 1 = pre.length := by
        by_contra hmore
        have hnext := habove (r + 1) (by omega) (by rw [List.length_append]; omega)
        rw [h.getElem?_eq_lt (by omega)] at hnext
        cases hnext
      have hnot : post.head?.map f ≠ some .eq := by
        intro heq
        rw [← hhead] at heq
        have hat : pre.length < (pre ++ post).length := by
          by_contra hout
          rw [List.getElem?_eq_none (by omega)] at heq
          cases heq
        rw [habove _ hlt hat] at heq
        cases heq
      rw [h.getElem?_eq_lt hlt, if_neg hnot, hlast]
    · rw [hhead] at hstop ⊢
      cases hpost : post.head?.map f with
      | none =>
        rw [Option.map_eq_none_iff, List.head?_eq_none_iff] at hpost
        rw [hpost, List.append_nil] at hr
        omega
      | some o =>
        cases o with
        | lt =>
          obtain ⟨x, hx, hlt⟩ := Option.map_eq_some_iff.mp hpost
          exact absurd hlt (h.head x hx)
        | eq => rfl
        | gt => rfl
    · rcases hstop with hzero | hstop
      · omega
      · exact absurd (h.getElem?_eq_gt hgt hr) hstop

end Separates

end EeEditor
