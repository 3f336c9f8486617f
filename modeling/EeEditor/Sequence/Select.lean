import Mathlib.Algebra.BigOperators.Group.List.Basic
import Mathlib.Algebra.GroupWithZero.Nat
import Mathlib.Algebra.Order.Group.Nat
import Mathlib.Data.List.Basic
import Mathlib.Tactic.Common

/-!
# Ranks and selections

`select p l n` is the position just after the `n`-th element of `l` that satisfies `p`, and the
beginning for `n = 0`. With line ends for `p`, ranks count the lines before a position and
selections are the starts of lines. Where it exists, a selection is the least position of its
rank (`select_eq_some_iff`), so that ranks and selections can be compared with each other
(`select_le_iff`).

## Ranks and sorted ranges

The *rank* of a position is the number of matching elements before it. When the matching elements
form a sorted list of ranges, ranks can be followed along a left-to-right scan: `RankInv R p x rs`
says that from position `p` on, `R` is `x` plus what the ranges `rs`, not passed yet, contribute.
Scans that skip ranges preserve it (`RankInv.skip`), and at the first range left it gives the rank
in closed form.
-/

namespace EeEditor

/-- A difference of unsigned integers, which must not be below zero. -/
def checkedSub (a b : ℕ) : Option ℕ := if b ≤ a then some (a - b) else none

variable {β : Type*}

/-! ## Ranks -/

/-- The number of elements before position `i` that satisfy `p`. -/
@[grind =] def rank (p : β → Bool) (l : List β) (i : ℕ) : ℕ := (l.take i).countP p

@[simp] theorem rank_zero (p : β → Bool) (l : List β) : rank p l 0 = 0 := by simp [rank]

theorem rank_add (p : β → Bool) (l : List β) (i n : ℕ) :
    rank p l (i + n) = rank p l i + ((l.drop i).take n).countP p := by
  rw [rank, List.take_add, List.countP_append, rank]

theorem rank_le_countP (p : β → Bool) (l : List β) (i : ℕ) : rank p l i ≤ l.countP p :=
  (List.take_sublist i l).countP_le

theorem rank_of_length_le {p : β → Bool} {l : List β} {i : ℕ} (h : l.length ≤ i) :
    rank p l i = l.countP p := by
  rw [rank, List.take_of_length_le h]

/-- A stretch over which the rank grows with the position consists of matching elements. -/
theorem all_of_rank_add {p : β → Bool} {l : List β} {i n : ℕ} (hn : i + n ≤ l.length)
    (h : rank p l (i + n) = rank p l i + n) : ∀ a ∈ (l.drop i).take n, p a = true := by
  rw [rank_add] at h
  have hlen : ((l.drop i).take n).length = n := by simp; omega
  exact List.countP_eq_length.mp (by omega)

/-- A stretch over which the rank stands still has no matching element. -/
theorem none_of_rank_eq {p : β → Bool} {l : List β} {i n : ℕ}
    (h : rank p l (i + n) = rank p l i) : ∀ a ∈ (l.drop i).take n, p a ≠ true := by
  rw [rank_add] at h
  exact List.countP_eq_zero.mp (by omega)

/-! ## Ranges -/

/-- The part of a range before position `i`. -/
@[grind =] def clip (i : ℕ) (r : ℕ × ℕ) : ℕ := min i r.2 - min i r.1

/-- From position `p` on, `R` is `x` plus the parts of the sorted ranges `rs` passed. -/
structure RankInv (R : ℕ → ℕ) (p x : ℕ) (rs : List (ℕ × ℕ)) : Prop where
  sorted : rs.Pairwise fun r s ↦ r.2 ≤ s.1
  le : ∀ r ∈ rs, r.1 ≤ r.2
  eq : ∀ i, p ≤ i → R i = x + (rs.map (clip i)).sum

namespace RankInv

variable {R : ℕ → ℕ} {p q x : ℕ} {r : ℕ × ℕ} {rs : List (ℕ × ℕ)}

theorem mono (h : RankInv R p x rs) (hpq : p ≤ q) : RankInv R q x rs :=
  ⟨h.sorted, h.le, fun i hi ↦ h.eq i (hpq.trans hi)⟩

/-- Passing a range adds its length. -/
theorem skip (h : RankInv R p x (r :: rs)) (hpq : p ≤ q) (hr : r.2 ≤ q) :
    RankInv R q (x + (r.2 - r.1)) rs := by
  refine ⟨(List.pairwise_cons.mp h.sorted).2, fun s hs ↦ h.le s (by simp [hs]), fun i hi ↦ ?_⟩
  have hle : r.1 ≤ r.2 := h.le r (by simp)
  have hclip : clip i r = r.2 - r.1 := by
    rw [clip, min_eq_right (by omega), min_eq_right (by omega)]
  rw [h.eq i (hpq.trans hi), List.map_cons, List.sum_cons, hclip, Nat.add_assoc]

private theorem sum_clip_eq_zero {i : ℕ} (h : ∀ s ∈ rs, i ≤ s.1 ∧ s.1 ≤ s.2) :
    (rs.map (clip i)).sum = 0 := by
  refine List.sum_eq_zero fun c hc ↦ ?_
  obtain ⟨s, hs, rfl⟩ := List.mem_map.mp hc
  obtain ⟨h1, h2⟩ := h s hs
  rw [clip, min_eq_left (by omega), min_eq_left h1, Nat.sub_self]

/-- Inside the first range left, the rank grows with the position. -/
theorem eq_inside (h : RankInv R p x (r :: rs)) {i : ℕ} (hp : p ≤ i) (h1 : r.1 ≤ i)
    (h2 : i ≤ r.2) : R i = x + (i - r.1) := by
  have hrest : (rs.map (clip i)).sum = 0 := by
    refine sum_clip_eq_zero fun s hs ↦ ⟨?_, h.le s (by simp [hs])⟩
    exact h2.trans ((List.pairwise_cons.mp h.sorted).1 s hs)
  rw [h.eq i hp, List.map_cons, List.sum_cons, hrest, clip, min_eq_left h2, min_eq_right h1,
    Nat.add_zero]

/-- Before the first range left, the rank stands still. -/
theorem eq_before (h : RankInv R p x (r :: rs)) {i : ℕ} (hp : p ≤ i) (h1 : i ≤ r.1) : R i = x := by
  have hall : ∀ s ∈ r :: rs, i ≤ s.1 ∧ s.1 ≤ s.2 := by
    intro s hs
    refine ⟨?_, h.le s hs⟩
    rcases List.mem_cons.mp hs with rfl | hs'
    · exact h1
    · have := (List.pairwise_cons.mp h.sorted).1 s hs'
      have := h.le r (by simp)
      omega
  rw [h.eq i hp, sum_clip_eq_zero hall, Nat.add_zero]

theorem eq_nil (h : RankInv R p x []) {i : ℕ} (hp : p ≤ i) : R i = x := by
  rw [h.eq i hp]
  simp

end RankInv

end EeEditor

namespace EeEditor

variable {β : Type*} {p : β → Bool} {l l' : List β} {i j n : ℕ}

/-! ## Ranks -/

theorem rank_mono (h : i ≤ j) : rank p l i ≤ rank p l j := by
  obtain ⟨m, rfl⟩ := Nat.exists_eq_add_of_le h
  rw [rank_add]
  exact Nat.le_add_right _ _

@[simp] theorem rank_length : rank p l l.length = l.countP p := rank_of_length_le le_rfl

@[simp] theorem rank_succ_cons (a : β) (i : ℕ) :
    rank p (a :: l) (i + 1) = (if p a then 1 else 0) + rank p l i := by
  rw [rank, List.take_succ_cons, List.countP_cons, rank, Nat.add_comm]

theorem rank_append_of_le (h : i ≤ l.length) : rank p (l ++ l') i = rank p l i := by
  rw [rank, rank, List.take_append_of_le_length h]

theorem rank_append_length_add (i : ℕ) :
    rank p (l ++ l') (l.length + i) = l.countP p + rank p l' i := by
  rw [rank, List.take_length_add_append, List.countP_append, rank]

/-- The matches of a slice. -/
theorem countP_take_drop (h : i ≤ j) :
    ((l.drop i).take (j - i)).countP p = rank p l j - rank p l i := by
  obtain ⟨m, rfl⟩ := Nat.exists_eq_add_of_le h
  rw [rank_add, Nat.add_sub_cancel_left, Nat.add_sub_cancel_left]

theorem countP_drop (i : ℕ) : (l.drop i).countP p = l.countP p - rank p l i := by
  have h := congrArg (List.countP p) (List.take_append_drop i l)
  rw [List.countP_append] at h
  rw [rank]
  omega

theorem rank_drop (i j : ℕ) : rank p (l.drop i) j = rank p l (i + j) - rank p l i := by
  rw [rank_add, Nat.add_sub_cancel_left, rank]

/-- Ranks in a slice. -/
theorem rank_slice {o m : ℕ} (hi : i ≤ m) :
    rank p ((l.drop o).take m) i = rank p l (o + i) - rank p l o := by
  rw [← rank_drop, rank, rank, List.take_take, min_eq_left hi]

/-- The rank stands still over a stretch exactly when nothing in it matches. -/
theorem rank_eq_rank_iff (h : i ≤ j) :
    rank p l i = rank p l j ↔ ∀ k a, i ≤ k → k < j → l[k]? = some a → p a = false := by
  obtain ⟨m, rfl⟩ := Nat.exists_eq_add_of_le h
  have hmem : ∀ a, a ∈ (l.drop i).take m ↔ ∃ k, i ≤ k ∧ k < i + m ∧ l[k]? = some a := by
    intro a
    rw [List.mem_iff_getElem?]
    constructor
    · rintro ⟨k, hk⟩
      rw [List.getElem?_take] at hk
      split at hk
      · exact ⟨i + k, Nat.le_add_right _ _, by omega, by rwa [List.getElem?_drop] at hk⟩
      · cases hk
    · rintro ⟨k, hik, hk, ha⟩
      refine ⟨k - i, ?_⟩
      rw [List.getElem?_take_of_lt (by omega), List.getElem?_drop, Nat.add_sub_cancel' hik]
      exact ha
  rw [rank_add, eq_comm, Nat.add_eq_left, List.countP_eq_zero]
  constructor
  · intro hnone k a hik hk ha
    simpa using hnone a ((hmem a).mpr ⟨k, hik, hk, ha⟩)
  · intro hnone a ha
    obtain ⟨k, hik, hk, ha⟩ := (hmem a).mp ha
    simpa using hnone k a hik hk ha

/-- Ranks in a common beginning. -/
theorem rank_congr_take {o : ℕ} (h : l.take o = l'.take o) (hi : i ≤ o) :
    rank p l i = rank p l' i := by
  rw [rank, rank, ← min_eq_left hi, ← List.take_take, h, List.take_take]

/-- Ranks after a replaced interval. -/
theorem rank_splice (n : List β) {beg end_ : ℕ} (hle : beg ≤ end_) (hend : end_ ≤ l.length)
    (j : ℕ) :
    rank p (l.take beg ++ n ++ l.drop end_) (beg + n.length + j) + rank p l end_
      = rank p l beg + n.countP p + rank p l (end_ + j) := by
  have hlen : (l.take beg ++ n).length = beg + n.length := by
    rw [List.length_append, List.length_take]
    omega
  have hmono : rank p l end_ ≤ rank p l (end_ + j) := rank_mono (Nat.le_add_right _ _)
  rw [← hlen, rank_append_length_add, rank_drop, List.countP_append, ← rank]
  omega

/-! ## Selections -/

/-- The position just after the `n`-th match. -/
@[grind =] def select (p : β → Bool) : List β → ℕ → Option ℕ
  | _, 0 => some 0
  | [], _ + 1 => none
  | a :: l, n + 1 => (select p l (if p a then n else n + 1)).map (· + 1)

@[simp] theorem select_zero : select p l 0 = some 0 := by cases l <;> rfl

@[simp] theorem select_nil_succ : select p [] (n + 1) = none := rfl

theorem select_cons_succ (a : β) :
    select p (a :: l) (n + 1) = (select p l (if p a then n else n + 1)).map (· + 1) := rfl

/-- A selection is the least position of its rank. -/
theorem select_eq_some_iff {s : ℕ} :
    select p l n = some s ↔ s ≤ l.length ∧ rank p l s = n ∧ ∀ j < s, rank p l j < n := by
  induction l generalizing n s with
  | nil =>
    cases n with
    | zero =>
      rw [select_zero, Option.some_inj]
      constructor
      · rintro rfl
        simp
      · rintro ⟨h, -⟩
        simpa [eq_comm] using h
    | succ n => simp [rank]
  | cons a l ih =>
    cases n with
    | zero =>
      rw [select_zero, Option.some_inj]
      constructor
      · rintro rfl
        simp
      · rintro ⟨-, -, h⟩
        by_contra hne
        exact absurd (h 0 (by omega)) (by simp)
    | succ n =>
      rw [select_cons_succ, Option.map_eq_some_iff]
      simp only [ih]
      constructor
      · rintro ⟨t, ⟨hlen, hrank, hlt⟩, rfl⟩
        refine ⟨by simpa using hlen, ?_, fun j hj ↦ ?_⟩
        · rw [rank_succ_cons, hrank]
          cases p a <;> simp [Nat.add_comm]
        · cases j with
          | zero => simp
          | succ j =>
            have hj' := hlt j (by omega)
            rw [rank_succ_cons]
            cases hp : p a <;> simp only [hp, if_true, if_false, Bool.false_eq_true] at hj' ⊢ <;>
              omega
      · rintro ⟨hlen, hrank, hlt⟩
        cases s with
        | zero => simp at hrank
        | succ s =>
          rw [rank_succ_cons] at hrank
          refine ⟨s, ⟨by simpa using hlen, ?_, fun j hj ↦ ?_⟩, rfl⟩
          · cases hp : p a <;> simp only [hp, if_true, if_false, Bool.false_eq_true] at hrank ⊢ <;>
              omega
          · have hj' := hlt (j + 1) (by omega)
            rw [rank_succ_cons] at hj'
            cases hp : p a <;> simp only [hp, if_true, if_false, Bool.false_eq_true] at hj' ⊢ <;>
              omega

section

variable {s : ℕ}

theorem select_le_length (h : select p l n = some s) : s ≤ l.length := (select_eq_some_iff.mp h).1

theorem rank_select (h : select p l n = some s) : rank p l s = n := (select_eq_some_iff.mp h).2.1

/-- The positions from a selection on are those of at least its rank. -/
theorem select_le_iff (h : select p l n = some s) : s ≤ i ↔ n ≤ rank p l i := by
  obtain ⟨-, hrank, hlt⟩ := select_eq_some_iff.mp h
  constructor
  · intro hi
    exact hrank ▸ rank_mono hi
  · intro hn
    by_contra hi
    exact absurd (hlt i (by omega)) (by omega)

theorem lt_select_iff (h : select p l n = some s) : i < s ↔ rank p l i < n := by
  have := select_le_iff (i := i) h
  omega

theorem select_le_select {m t : ℕ} (h : select p l n = some s) (h' : select p l m = some t) :
    s ≤ t ↔ n ≤ m := by
  rw [select_le_iff h, rank_select h']

theorem select_lt_select {m t : ℕ} (h : select p l n = some s) (h' : select p l m = some t) :
    s < t ↔ n < m := by
  rw [lt_select_iff h', rank_select h]

end

/-- Selections in a common beginning. -/
theorem select_congr_take {o s : ℕ} (h : l.take o = l'.take o) (hs : s ≤ o)
    (hlen : s ≤ l'.length) (hsel : select p l n = some s) : select p l' n = some s := by
  rw [select_eq_some_iff] at hsel ⊢
  refine ⟨hlen, by rw [← rank_congr_take h hs]; exact hsel.2.1, fun j hj ↦ ?_⟩
  rw [← rank_congr_take h (by omega)]
  exact hsel.2.2 j hj

/-- Selections after a replaced interval. -/
theorem select_splice (a : List β) {beg end_ s : ℕ} (hle : beg ≤ end_) (hend : end_ ≤ l.length)
    (hs : end_ < s) (hsel : select p l n = some s) :
    select p (l.take beg ++ a ++ l.drop end_)
      (n + rank p l beg + a.countP p - rank p l end_) = some (beg + a.length + (s - end_)) := by
  have hlen : (l.take beg ++ a).length = beg + a.length := by
    rw [List.length_append, List.length_take]
    omega
  obtain ⟨hslen, hrank, hlt⟩ := select_eq_some_iff.mp hsel
  have hrise : rank p l end_ < n := hlt end_ hs
  rw [select_eq_some_iff]
  refine ⟨?_, ?_, fun j hj ↦ ?_⟩
  · rw [List.length_append, hlen, List.length_drop]
    omega
  · have := rank_splice (p := p) a hle hend (s - end_)
    rw [Nat.add_sub_cancel' hs.le, hrank] at this
    omega
  · rcases Nat.lt_or_ge j (beg + a.length) with hj' | hj'
    · -- before the end of the replacement there are fewer matches than at its end
      have hmono := rank_mono (p := p) (l := l.take beg ++ a ++ l.drop end_) hj'.le
      have := rank_splice (p := p) a hle hend 0
      rw [Nat.add_zero, Nat.add_zero] at this
      omega
    · obtain ⟨i, rfl⟩ := Nat.exists_eq_add_of_le hj'
      have := rank_splice (p := p) a hle hend i
      have := hlt (end_ + i) (by omega)
      omega

/-- Selections in a slice. -/
theorem select_slice {o m s : ℕ} (h : o + m ≤ l.length) :
    select p ((l.drop o).take m) (n + 1) = some s ↔
      s ≤ m ∧ select p l (rank p l o + (n + 1)) = some (o + s) := by
  have hlen : ((l.drop o).take m).length = m := by
    rw [List.length_take, List.length_drop]
    omega
  rw [select_eq_some_iff, select_eq_some_iff, hlen]
  constructor
  · rintro ⟨hs, hrank, hlt⟩
    rw [rank_slice hs] at hrank
    refine ⟨hs, by omega, by omega, fun j hj ↦ ?_⟩
    rcases Nat.lt_or_ge j o with hjo | hjo
    · have := rank_mono (p := p) (l := l) hjo.le
      omega
    · have := hlt (j - o) (by omega)
      rw [rank_slice (by omega), Nat.add_sub_cancel' hjo] at this
      omega
  · rintro ⟨hs, -, hrank, hlt⟩
    refine ⟨hs, by rw [rank_slice hs]; omega, fun j hj ↦ ?_⟩
    have := hlt (o + j) (by omega)
    rw [rank_slice (by omega)]
    omega

/-- A selection after the beginning comes right after a match. -/
theorem match_of_select (h : select p l n = some (i + 1)) : ∃ a, l[i]? = some a ∧ p a = true := by
  obtain ⟨hlen, hrank, hlt⟩ := select_eq_some_iff.mp h
  have hi : i < l.length := hlen
  refine ⟨l[i], List.getElem?_eq_getElem hi, ?_⟩
  have hstep := hlt i (Nat.lt_succ_self i)
  have htake : (l.drop i).take 1 = [l[i]] := by rw [List.drop_eq_getElem_cons hi]; rfl
  rw [← hrank, rank_add, htake] at hstep
  by_contra hnot
  simp [hnot] at hstep

/-- There are as many selections as matches. -/
theorem exists_select (h : n ≤ l.countP p) : ∃ s, select p l n = some s := by
  induction l generalizing n with
  | nil =>
    obtain rfl : n = 0 := by simpa using h
    exact ⟨0, rfl⟩
  | cons a l ih =>
    cases n with
    | zero => exact ⟨0, rfl⟩
    | succ n =>
      rw [List.countP_cons] at h
      have hle : (if p a then n else n + 1) ≤ l.countP p := by
        cases hp : p a <;> simp only [hp, if_true, if_false, Bool.false_eq_true] at h ⊢ <;> omega
      obtain ⟨s, hs⟩ := ih hle
      exact ⟨s + 1, by rw [select_cons_succ, hs]; rfl⟩

theorem le_countP_of_select {s : ℕ} (h : select p l n = some s) : n ≤ l.countP p := by
  rw [← rank_select h]
  exact rank_le_countP p l s

theorem select_eq_none_iff : select p l n = none ↔ l.countP p < n := by
  constructor
  · intro h
    by_contra hlt
    obtain ⟨s, hs⟩ := exists_select (not_lt.mp hlt)
    rw [h] at hs
    cases hs
  · intro h
    by_contra hne
    obtain ⟨s, hs⟩ := Option.ne_none_iff_exists'.mp hne
    have := le_countP_of_select hs
    omega

end EeEditor
