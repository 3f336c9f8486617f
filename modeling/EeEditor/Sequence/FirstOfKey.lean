import Mathlib.Data.List.Sort
import Mathlib.Order.Basic
import Mathlib.Tactic.Common

/-!
# The first element with a key

A list that is sorted stably by a key keeps the order of the elements with one key, so the first of
them stays the first. If of neighbours with one key the first is kept, the keys increase strictly,
and for each key the first element of the list is left.
-/

namespace EeEditor

variable {α κ : Type}

/-- `sort_by_key`, which is stable. -/
def sortByKey [LinearOrder κ] (key : α → κ) (l : List α) : List α :=
  l.insertionSort fun a b ↦ key a ≤ key b

/-- `Vec::dedup_by_key`: of neighbours with one key the first is kept. -/
def dedupByKey [DecidableEq κ] (key : α → κ) : List α → List α
  | [] => []
  | a :: as =>
    a :: match dedupByKey key as with
      | [] => []
      | b :: bs => if key b = key a then bs else b :: bs

section

variable [LinearOrder κ] {key : α → κ} {l : List α} {k : κ}

theorem pairwise_sortByKey (key : α → κ) (l : List α) :
    (sortByKey key l).Pairwise fun a b ↦ key a ≤ key b :=
  have : Std.Total fun a b : α ↦ key a ≤ key b := ⟨fun a b ↦ le_total (key a) (key b)⟩
  have : IsTrans α fun a b ↦ key a ≤ key b := ⟨fun _ _ _ ↦ le_trans⟩
  List.pairwise_insertionSort _ l

theorem mem_sortByKey {a : α} : a ∈ sortByKey key l ↔ a ∈ l := List.mem_insertionSort _

/-- The elements with one key stay in their order. -/
theorem filter_sortByKey (key : α → κ) (l : List α) (k : κ) :
    (sortByKey key l).filter (key · = k) = l.filter (key · = k) := by
  have hequal : (l.filter (key · = k)).Pairwise fun a b ↦ key a ≤ key b := by
    refine List.pairwise_iff_forall_sublist.mpr fun {a b} hab ↦ ?_
    have ha := hab.subset List.mem_cons_self
    have hb := hab.subset (List.mem_cons_of_mem _ List.mem_cons_self)
    simp only [List.mem_filter, decide_eq_true_eq] at ha hb
    exact (ha.2.trans hb.2.symm).le
  have hsublist : (l.filter (key · = k)).Sublist (sortByKey key l) :=
    List.sublist_insertionSort hequal List.filter_sublist
  have hfilter := hsublist.filter (key · = k)
  rw [List.filter_filter] at hfilter
  simp only [Bool.and_self] at hfilter
  refine (hfilter.eq_of_length ?_).symm
  exact ((List.perm_insertionSort _ l).filter _).length_eq.symm

/-- The first element with a key stays the first. -/
theorem find?_sortByKey (key : α → κ) (l : List α) (k : κ) :
    (sortByKey key l).find? (key · = k) = l.find? (key · = k) := by
  rw [← List.head?_filter, ← List.head?_filter, filter_sortByKey]

theorem dedupByKey_sublist (key : α → κ) (l : List α) : (dedupByKey key l).Sublist l := by
  induction l with
  | nil => exact .slnil
  | cons a as ih =>
    rw [dedupByKey]
    refine .cons_cons a ?_
    split
    case h_1 => exact List.nil_sublist as
    case h_2 b bs heq =>
      rw [heq] at ih
      split
      · exact (List.sublist_cons_self b bs).trans ih
      · exact ih

/-- For each key the first element is left. -/
theorem find?_dedupByKey (key : α → κ) (l : List α) (k : κ) :
    (dedupByKey key l).find? (key · = k) = l.find? (key · = k) := by
  induction l with
  | nil => rfl
  | cons a as ih =>
    rw [dedupByKey, List.find?_cons, List.find?_cons, ← ih]
    split
    case h_1 => rfl
    case h_2 ha =>
      cases hrest : dedupByKey key as with
      | nil => rfl
      | cons b bs =>
        dsimp only
        split
        case isTrue heq =>
          have hb : decide (key b = k) = false := heq ▸ ha
          rw [List.find?_cons, hb]
        case isFalse => rfl

/-- The keys increase strictly. -/
theorem pairwise_dedupByKey (hsorted : l.Pairwise fun a b ↦ key a ≤ key b) :
    (dedupByKey key l).Pairwise fun a b ↦ key a < key b := by
  induction l with
  | nil => exact .nil
  | cons a as ih =>
    rw [List.pairwise_cons] at hsorted
    have hstrict := ih hsorted.2
    have hle : ∀ b ∈ dedupByKey key as, key a ≤ key b := fun b hb ↦
      hsorted.1 b ((dedupByKey_sublist key as).subset hb)
    rw [dedupByKey]
    cases hrest : dedupByKey key as with
    | nil => exact List.pairwise_singleton _ _
    | cons b bs =>
      rw [hrest, List.pairwise_cons] at hstrict
      rw [hrest] at hle
      dsimp only
      split
      case isTrue heq => exact .cons (fun c hc ↦ heq ▸ hstrict.1 c hc) hstrict.2
      case isFalse hne =>
        have hlt : key a < key b := lt_of_le_of_ne (hle b List.mem_cons_self) (Ne.symm hne)
        refine .cons (fun c hc ↦ ?_) (.cons hstrict.1 hstrict.2)
        rcases List.mem_cons.mp hc with rfl | hc
        · exact hlt
        · exact hlt.trans (hstrict.1 c hc)

theorem le_of_head? (hstrict : l.Pairwise fun a b ↦ key a < key b) {a b : α}
    (ha : l.head? = some a) (hb : b ∈ l) : key a ≤ key b := by
  obtain ⟨l', rfl⟩ := List.head?_eq_some_iff.mp ha
  rcases List.mem_cons.mp hb with rfl | hb
  · exact le_rfl
  · exact (List.rel_of_pairwise_cons hstrict hb).le

theorem le_of_getLast? (hstrict : l.Pairwise fun a b ↦ key a < key b) {a b : α}
    (ha : l.getLast? = some a) (hb : b ∈ l) : key b ≤ key a := by
  obtain ⟨l', rfl⟩ := List.getLast?_eq_some_iff.mp ha
  rcases List.mem_append.mp hb with hb | hb
  · exact ((List.pairwise_append.mp hstrict).2.2 b hb a List.mem_cons_self).le
  · rw [List.mem_singleton.mp hb]

end

/-! ## Tables -/

/-- A table from `start` on in which the values of some keys are set one after the other. -/
def fillFrom (start : ℕ) : List α → List (ℕ × α) → List α
  | table, [] => table
  | table, (k, a) :: rows => fillFrom start (table.set (k - start) a) rows

variable {start : ℕ} {table : List α} {rows : List (ℕ × α)}

@[simp] theorem length_fillFrom : (fillFrom start table rows).length = table.length := by
  induction rows generalizing table with
  | nil => rfl
  | cons row rows ih => rw [fillFrom, ih, List.length_set]

/-- A key shows its value, if it is set once. -/
theorem getElem?_fillFrom (hrows : rows.Pairwise fun a b ↦ a.1 < b.1)
    (hstart : ∀ row ∈ rows, start ≤ row.1) {k : ℕ} (hk : start ≤ k)
    (hlt : k - start < table.length) :
    (fillFrom start table rows)[k - start]? =
      ((rows.find? (·.1 = k)).map Prod.snd).or table[k - start]? := by
  induction rows generalizing table with
  | nil => rfl
  | cons row rows ih =>
    obtain ⟨k', a⟩ := row
    rw [List.pairwise_cons] at hrows
    have hk' := hstart (k', a) List.mem_cons_self
    rw [fillFrom, ih hrows.2 (fun row hrow ↦ hstart row (List.mem_cons_of_mem _ hrow))
      (by rwa [List.length_set]), List.find?_cons]
    by_cases heq : k' = k
    · subst heq
      have hnone : rows.find? (·.1 = k') = none :=
        List.find?_eq_none.mpr fun row hrow ↦ by
          simpa using (hrows.1 row hrow).ne'
      rw [hnone, List.getElem?_set_self hlt]
      simp
    · have hne : k' - start ≠ k - start := by omega
      rw [List.getElem?_set_ne hne]
      simp [heq]

end EeEditor
