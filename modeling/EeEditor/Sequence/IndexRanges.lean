import Mathlib.Data.Set.Basic
import Mathlib.Order.Interval.Set.Defs
import Mathlib.Tactic.Common

/-!
# Ranges of indices

A set of indices as a list of ranges, the end of each excluded. Where the ranges are in order and do
not touch they are the maximal runs of the set. The second half is about what is taken from the two
ends of a list.
-/

namespace EeEditor

namespace IndexRanges

variable {l l' : List (ℕ × ℕ)} {r : ℕ × ℕ} {i m start end_ : ℕ} {S : Set ℕ}

def indices (l : List (ℕ × ℕ)) : Set ℕ := {i | ∃ r ∈ l, r.1 ≤ i ∧ i < r.2}

theorem mem_indices : i ∈ indices l ↔ ∃ r ∈ l, r.1 ≤ i ∧ i < r.2 := Iff.rfl

theorem not_mem_indices_nil : i ∉ indices [] := by
  rintro ⟨r, hr, -⟩
  exact List.not_mem_nil hr

theorem mem_indices_cons :
    i ∈ indices (r :: l) ↔ (r.1 ≤ i ∧ i < r.2) ∨ i ∈ indices l := by
  simp only [mem_indices, List.mem_cons, exists_eq_or_imp]

theorem mem_indices_append : i ∈ indices (l ++ l') ↔ i ∈ indices l ∨ i ∈ indices l' := by
  simp only [mem_indices, List.mem_append, or_and_right, exists_or]

/-- What lies before every range is not among the indices. -/
theorem not_mem_indices (h : ∀ r ∈ l, m < r.1) (hi : i ≤ m) : i ∉ indices l := by
  rintro ⟨r, hr, hle, -⟩
  exact absurd (h r hr) (by omega)

/-- The ranges are not empty, in order, and do not touch. -/
structure Separated (l : List (ℕ × ℕ)) : Prop where
  pairwise : l.Pairwise fun r r' ↦ r.2 < r'.1
  lt : ∀ r ∈ l, r.1 < r.2

theorem separated_nil : Separated [] := ⟨.nil, fun _ hr ↦ absurd hr List.not_mem_nil⟩

theorem separated_cons :
    Separated (r :: l) ↔ r.1 < r.2 ∧ (∀ r' ∈ l, r.2 < r'.1) ∧ Separated l := by
  constructor
  · intro h
    obtain ⟨hl, hpairwise⟩ := List.pairwise_cons.mp h.pairwise
    obtain ⟨hr, hlt⟩ := List.forall_mem_cons.mp h.lt
    exact ⟨hr, hl, hpairwise, hlt⟩
  · rintro ⟨hr, hl, h⟩
    exact ⟨List.pairwise_cons.mpr ⟨hl, h.pairwise⟩, List.forall_mem_cons.mpr ⟨hr, h.lt⟩⟩

theorem separated_append : Separated (l ++ l') ↔
    Separated l ∧ Separated l' ∧ ∀ r ∈ l, ∀ r' ∈ l', r.2 < r'.1 := by
  constructor
  · intro h
    obtain ⟨hl, hl', hbetween⟩ := List.pairwise_append.mp h.pairwise
    obtain ⟨hlt, hlt'⟩ := List.forall_mem_append.mp h.lt
    exact ⟨⟨hl, hlt⟩, ⟨hl', hlt'⟩, hbetween⟩
  · rintro ⟨h, h', hbetween⟩
    exact ⟨List.pairwise_append.mpr ⟨h.pairwise, h'.pairwise, hbetween⟩,
      List.forall_mem_append.mpr ⟨h.lt, h'.lt⟩⟩

/-- A range within a set that cannot be made longer. -/
structure MaximalRun (S : Set ℕ) (r : ℕ × ℕ) : Prop where
  lt : r.1 < r.2
  subset : Set.Ico r.1 r.2 ⊆ S
  before : ∀ i, i + 1 = r.1 → i ∉ S
  after : r.2 ∉ S

theorem Separated.not_mem_after (h : Separated l) (hr : r ∈ l) : r.2 ∉ indices l := by
  rintro ⟨r', hr', hle, hlt⟩
  obtain ⟨u, v, rfl⟩ := List.append_of_mem hr
  obtain ⟨-, hv, hbetween⟩ := separated_append.mp h
  rcases List.mem_append.mp hr' with hu | hv'
  · have := hbetween r' hu r List.mem_cons_self
    have := h.lt r hr
    omega
  · rcases List.mem_cons.mp hv' with rfl | hv'
    · exact absurd hlt (Nat.lt_irrefl _)
    · have := (separated_cons.mp hv).2.1 r' hv'
      omega

theorem Separated.not_mem_before (h : Separated l) (hr : r ∈ l) (hi : i + 1 = r.1) :
    i ∉ indices l := by
  rintro ⟨r', hr', hle, hlt⟩
  obtain ⟨u, v, rfl⟩ := List.append_of_mem hr
  obtain ⟨-, hv, hbetween⟩ := separated_append.mp h
  rcases List.mem_append.mp hr' with hu | hv'
  · have := hbetween r' hu r List.mem_cons_self
    omega
  · rcases List.mem_cons.mp hv' with rfl | hv'
    · omega
    · have := (separated_cons.mp hv).2.1 r' hv'
      have := h.lt r hr
      omega

/-- The ranges are the maximal runs. -/
theorem Separated.mem_iff (h : Separated l) : r ∈ l ↔ MaximalRun (indices l) r := by
  constructor
  · intro hr
    exact ⟨h.lt r hr, fun i hi ↦ ⟨r, hr, hi.1, hi.2⟩, fun i hi ↦ h.not_mem_before hr hi,
      h.not_mem_after hr⟩
  · intro hrun
    obtain ⟨r', hr', hle, hlt⟩ : r.1 ∈ indices l := hrun.subset ⟨Nat.le_refl _, hrun.lt⟩
    have hstart : r'.1 = r.1 := by
      rcases hle.lt_or_eq with hless | heq
      · refine absurd ?_ (hrun.before (r.1 - 1) (by omega))
        exact ⟨r', hr', by omega, by omega⟩
      · exact heq
    have hend : r'.2 = r.2 := by
      rcases Nat.lt_trichotomy r'.2 r.2 with hless | heq | hmore
      · exact absurd (hrun.subset ⟨by omega, hless⟩) (h.not_mem_after hr')
      · exact heq
      · exact absurd ⟨r', hr', by have := hrun.lt; omega, hmore⟩ hrun.after
    rwa [← Prod.ext hstart hend]

end IndexRanges

/-! ## The two ends of a list -/

inductive End where
  | front
  | back

section ends

variable {α σ : Type*} {next nextBack : σ → Option α × σ}

/-- What is taken from the ends of a list, until nothing is left. -/
def takeEnds : List End → List α → List (Option α)
  | [], _ => []
  | .front :: calls, l => l.head? :: takeEnds calls l.tail
  | .back :: calls, l => l.getLast? :: takeEnds calls l.dropLast

/-- What an iterator yields that is consumed from two ends. -/
def consume (next nextBack : σ → Option α × σ) : List End → σ → List (Option α)
  | [], _ => []
  | .front :: calls, s => (next s).1 :: consume next nextBack calls (next s).2
  | .back :: calls, s => (nextBack s).1 :: consume next nextBack calls (nextBack s).2

/-- The iterator is a list, when each of its steps takes an element from an end. -/
theorem consume_eq {R : σ → List α → Prop}
    (hfront : ∀ s l, R s l → (next s).1 = l.head? ∧ R (next s).2 l.tail)
    (hback : ∀ s l, R s l → (nextBack s).1 = l.getLast? ∧ R (nextBack s).2 l.dropLast)
    (calls : List End) {s : σ} {l : List α} (h : R s l) :
    consume next nextBack calls s = takeEnds calls l := by
  induction calls generalizing s l with
  | nil => rfl
  | cons call calls ih =>
    cases call with
    | front =>
      obtain ⟨hhead, htail⟩ := hfront s l h
      rw [consume, takeEnds, hhead, ih htail]
    | back =>
      obtain ⟨hlast, hinit⟩ := hback s l h
      rw [consume, takeEnds, hlast, ih hinit]

end ends

end EeEditor
