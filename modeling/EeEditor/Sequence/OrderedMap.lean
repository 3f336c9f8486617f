import Mathlib.Data.List.Nodup
import Mathlib.Order.Nat
import Mathlib.Tactic.Common

/-!
# Maps in the order of their keys

A map from numbers is the list of its entries in increasing order of the keys. What is kept of it by
dropping its first entries is then what has few entries after it.
-/

namespace EeEditor

variable {α : Type*}

structure OrderedMap (α : Type*) where
  entries : List (ℕ × α)
  sorted : entries.Pairwise (·.1 < ·.1)

namespace OrderedMap

variable {m : OrderedMap α} {k n : ℕ} {a : α} {p q : ℕ × α} {keep : ℕ × α → Bool}

instance : Membership (ℕ × α) (OrderedMap α) := ⟨fun m p ↦ p ∈ m.entries⟩

instance : EmptyCollection (OrderedMap α) := ⟨⟨[], .nil⟩⟩

def size (m : OrderedMap α) : ℕ := m.entries.length

def keys (m : OrderedMap α) : List ℕ := m.entries.map (·.1)

def insert (m : OrderedMap α) (k : ℕ) (a : α) : OrderedMap α where
  entries := m.entries.filter (·.1 < k) ++ (k, a) :: m.entries.filter (k < ·.1)
  sorted := by
    rw [List.pairwise_append, List.pairwise_cons]
    refine ⟨m.sorted.filter _, ⟨fun q hq ↦ ?_, m.sorted.filter _⟩, fun p hp q hq ↦ ?_⟩
    · simpa using (List.mem_filter.mp hq).2
    · have hpk : p.1 < k := by simpa using (List.mem_filter.mp hp).2
      obtain rfl | hq := List.mem_cons.mp hq
      · exact hpk
      · exact hpk.trans (by simpa using (List.mem_filter.mp hq).2)

def retain (m : OrderedMap α) (keep : ℕ × α → Bool) : OrderedMap α :=
  ⟨m.entries.filter keep, m.sorted.filter _⟩

/-- The map without the entries of some keys. -/
def eraseAll (m : OrderedMap α) (ks : List ℕ) : OrderedMap α := m.retain fun p ↦ !ks.contains p.1

/-- The entry with the greatest key. -/
def last? (m : OrderedMap α) : Option (ℕ × α) := m.entries.getLast?

theorem mem_entries : p ∈ m.entries ↔ p ∈ m := Iff.rfl

theorem not_mem_empty : p ∉ (∅ : OrderedMap α) := nofun

theorem mem_insert : p ∈ m.insert k a ↔ p = (k, a) ∨ p ∈ m ∧ p.1 ≠ k := by
  change p ∈ m.entries.filter (·.1 < k) ++ (k, a) :: m.entries.filter (k < ·.1) ↔ _
  simp only [List.mem_append, List.mem_cons, List.mem_filter, mem_entries, decide_eq_true_eq]
  constructor
  · rintro (⟨h, hlt⟩ | h | ⟨h, hlt⟩)
    · exact .inr ⟨h, hlt.ne⟩
    · exact .inl h
    · exact .inr ⟨h, hlt.ne'⟩
  · rintro (h | ⟨h, hne⟩)
    · exact .inr (.inl h)
    · obtain hlt | hlt := Nat.lt_or_gt_of_ne hne
      · exact .inl ⟨h, hlt⟩
      · exact .inr (.inr ⟨h, hlt⟩)

theorem mem_retain : p ∈ m.retain keep ↔ p ∈ m ∧ keep p = true := List.mem_filter

theorem mem_eraseAll {ks : List ℕ} : p ∈ m.eraseAll ks ↔ p ∈ m ∧ p.1 ∉ ks := by
  rw [eraseAll, mem_retain]
  simp

/-- A key has one value. -/
theorem eq_of_key_eq (hp : p ∈ m) (hq : q ∈ m) (h : p.1 = q.1) : p = q := by
  have hnodup : m.keys.Nodup := List.pairwise_map.mpr (m.sorted.imp fun hlt ↦ hlt.ne)
  exact List.inj_on_of_nodup_map hnodup hp hq h

theorem last?_eq_some : m.last? = some p ↔ p ∈ m ∧ ∀ q ∈ m, q.1 ≤ p.1 := by
  obtain ⟨entries, sorted⟩ := m
  obtain rfl | ⟨rest, x, rfl⟩ := List.eq_nil_or_concat' entries
  · exact ⟨nofun, fun h ↦ nomatch h.1⟩
  · have hbelow : ∀ q ∈ rest, q.1 < x.1 := by
      rw [List.pairwise_append] at sorted
      exact fun q hq ↦ sorted.2.2 q hq x (List.mem_singleton_self x)
    change (rest ++ [x]).getLast? = some p ↔ p ∈ rest ++ [x] ∧ ∀ q ∈ rest ++ [x], q.1 ≤ p.1
    simp only [List.getLast?_concat, Option.some.injEq, List.mem_append,
      List.mem_singleton]
    constructor
    · rintro rfl
      exact ⟨.inr rfl, fun q hq ↦ hq.elim (fun h ↦ (hbelow q h).le) fun h ↦ (congrArg _ h).le⟩
    · rintro ⟨hp | hp, hmax⟩
      · exact absurd (hmax x (.inr rfl)) (hbelow p hp).not_ge
      · exact hp.symm

theorem mem_keys : k ∈ m.keys ↔ ∃ p ∈ m, p.1 = k := List.mem_map

/-- Without its first keys a map has its last entries. -/
theorem entries_eraseAll_take : (m.eraseAll (m.keys.take n)).entries = m.entries.drop n := by
  obtain ⟨entries, sorted⟩ := m
  change entries.filter (fun p ↦ !((entries.map (·.1)).take n).contains p.1) = entries.drop n
  have hsplit : entries.take n ++ entries.drop n = entries := List.take_append_drop ..
  have hfirst : ∀ p ∈ entries.take n, p.1 ∈ (entries.map (·.1)).take n := by
    intro p hp
    rw [← List.map_take]
    exact List.mem_map_of_mem hp
  have hlast : ∀ p ∈ entries.drop n, p.1 ∉ (entries.map (·.1)).take n := by
    intro p hp hin
    rw [← List.map_take] at hin
    obtain ⟨q, hq, heq⟩ := List.mem_map.mp hin
    rw [← hsplit, List.pairwise_append] at sorted
    exact (sorted.2.2 q hq p hp).ne heq
  calc entries.filter _
      = (entries.take n).filter _ ++ (entries.drop n).filter _ := by
        rw [← List.filter_append, hsplit]
    _ = [] ++ entries.drop n := by
        congr 1
        · exact List.filter_eq_nil_iff.mpr fun p hp ↦ by simpa using hfirst p hp
        · exact List.filter_eq_self.mpr fun p hp ↦ by simpa using hlast p hp
    _ = entries.drop n := List.nil_append _

theorem size_eraseAll_take : (m.eraseAll (m.keys.take n)).size = m.size - n := by
  rw [size, entries_eraseAll_take, List.length_drop]
  rfl

/-- The first keys are below all others. -/
theorem lt_of_mem_take (hk : k ∈ m.keys.take n) (hp : p ∈ m.eraseAll (m.keys.take n)) :
    k < p.1 := by
  have hp : p ∈ m.entries.drop n := entries_eraseAll_take ▸ hp
  rw [keys, ← List.map_take] at hk
  obtain ⟨q, hq, rfl⟩ := List.mem_map.mp hk
  have hsorted := m.sorted
  rw [← List.take_append_drop n m.entries, List.pairwise_append] at hsorted
  exact hsorted.2.2 q hq p hp

end OrderedMap

end EeEditor
