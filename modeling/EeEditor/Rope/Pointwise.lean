import Mathlib.Data.List.GetD
import EeEditor.Rope.RangeScan

/-!
# Subsets as functions

`Subset.countAt` reads a subset as the function from the index of an element to its count. The
operations of `EeEditor.Rope.Multiset` are pointwise on it, a coordinate transform moves an index
to its rank among the zero positions, and two subsets of one length with the same function are
equal.
-/

namespace EeEditor

/-! ## Masks, position by position -/

/-- The positions that a mask leaves alone. -/
def zeroRank (mask : List ℕ) (i : ℕ) : ℕ := rank CountMatcher.zero.matches mask i

@[simp] theorem zeroRank_zero (mask : List ℕ) : zeroRank mask 0 = 0 := rank_zero _ _

@[simp] theorem zeroRank_zero_cons (mask : List ℕ) (i : ℕ) :
    zeroRank (0 :: mask) (i + 1) = zeroRank mask i + 1 := by
  simp [zeroRank, rank, CountMatcher.matches]

@[simp] theorem zeroRank_succ_cons (c : ℕ) (mask : List ℕ) (i : ℕ) :
    zeroRank ((c + 1) :: mask) (i + 1) = zeroRank mask i := by
  simp [zeroRank, rank, CountMatcher.matches]

/-- Cutting moves the element at a zero position to the rank of the position. -/
theorem keepZero_getD {as mask : List ℕ} (h : as.length = mask.length) {i : ℕ}
    (hi : i < mask.length) (hzero : mask.getD i 0 = 0) :
    (keepZero as mask).getD (zeroRank mask i) 0 = as.getD i 0 := by
  induction as generalizing mask i with
  | nil =>
    obtain rfl : mask = [] := List.eq_nil_of_length_eq_zero h.symm
    cases hi
  | cons a as ih =>
    cases mask with
    | nil => cases hi
    | cons c mask =>
      have hlen : as.length = mask.length := by simpa using h
      cases i with
      | zero =>
        obtain rfl : c = 0 := hzero
        simp
      | succ i =>
        have hi' : i < mask.length := by simpa using hi
        have hzero' : mask.getD i 0 = 0 := by simpa using hzero
        cases c <;> simpa using ih hlen hi' hzero'

/-- Filling puts the element at the rank of a zero position there. -/
theorem fillZero_getD (f : ℕ → ℕ) {mask as : List ℕ} (h : as.length = zeros mask) {i : ℕ}
    (hi : i < mask.length) : (fillZero f mask as).getD i 0
      = if mask.getD i 0 = 0 then as.getD (zeroRank mask i) 0 else f (mask.getD i 0) := by
  induction mask generalizing as i with
  | nil => cases hi
  | cons c mask ih =>
    cases c with
    | zero =>
      cases as with
      | nil => simp at h
      | cons a as =>
        have hlen : as.length = zeros mask := by simpa using h
        cases i with
        | zero => simp [fillZero]
        | succ i =>
          have hi' : i < mask.length := by simpa using hi
          simpa [fillZero] using ih hlen hi'
    | succ c =>
      have hlen : as.length = zeros mask := by simpa using h
      cases i with
      | zero => simp [fillZero]
      | succ i =>
        have hi' : i < mask.length := by simpa using hi
        simpa [fillZero] using ih hlen hi'

theorem zipWith_getD {f : ℕ → ℕ → ℕ} (hf : f 0 0 = 0) {as bs : List ℕ}
    (h : as.length = bs.length) (i : ℕ) :
    (List.zipWith f as bs).getD i 0 = f (as.getD i 0) (bs.getD i 0) := by
  induction as generalizing bs i with
  | nil =>
    obtain rfl : bs = [] := List.eq_nil_of_length_eq_zero h.symm
    simp [hf]
  | cons a as ih =>
    cases bs with
    | nil => cases h
    | cons b bs =>
      have hlen : as.length = bs.length := by simpa using h
      cases i with
      | zero => simp
      | succ i => simpa using ih hlen i

/-! ## Counts -/

namespace Subset

/-- The count of the element `i`, and 0 past the end. -/
def countAt (s : Subset) (i : ℕ) : ℕ := s.counts.getD i 0

/-- `r` is the subset of `n` elements in which the element `i` has the count `f i`. -/
def IsFun (r : Subset) (n : ℕ) (f : ℕ → ℕ) : Prop := r.len = n ∧ ∀ i < n, r.countAt i = f i

/-- Derived equality is equality of the functions. -/
theorem eq_iff_countAt {s t : Subset} :
    s = t ↔ s.len = t.len ∧ ∀ i < s.len, s.countAt i = t.countAt i := by
  constructor
  · rintro rfl
    exact ⟨rfl, fun _ _ ↦ rfl⟩
  · rintro ⟨hlen, hcount⟩
    rw [len_eq, len_eq] at hlen
    refine ext_counts (List.ext_getElem hlen fun i hi hi' ↦ ?_)
    have := hcount i (by rw [len_eq]; exact hi)
    rwa [countAt, countAt, List.getD_eq_getElem _ _ hi, List.getD_eq_getElem _ _ hi'] at this

variable {s t : Subset}

theorem union_isFun (h : s.len = t.len) :
    ∃ r, s.union t = some r ∧ r.IsFun s.len fun i ↦ s.countAt i + t.countAt i := by
  rw [len_eq, len_eq] at h
  refine ⟨_, union_eq h, ?_, fun i _ ↦ ?_⟩
  · simp [len_eq, h]
  · rw [countAt, counts_ofCounts, zipWith_getD rfl h]
    rfl

theorem bitxor_isFun (h : s.len = t.len) :
    ∃ r, s.bitxor t = some r ∧ r.IsFun s.len fun i ↦ s.countAt i ^^^ t.countAt i := by
  rw [len_eq, len_eq] at h
  refine ⟨_, bitxor_eq h, ?_, fun i _ ↦ ?_⟩
  · simp [len_eq, h]
  · rw [countAt, counts_ofCounts, zipWith_getD rfl h]
    rfl

theorem subtract_isFun (h : s.len = t.len) (hle : ∀ i < s.len, t.countAt i ≤ s.countAt i) :
    ∃ r, s.subtract t = some r ∧ r.IsFun s.len fun i ↦ s.countAt i - t.countAt i := by
  rw [len_eq, len_eq] at h
  have hle' : ∀ p ∈ s.counts.zip t.counts, p.2 ≤ p.1 := by
    intro p hp
    obtain ⟨i, hi, rfl⟩ := List.mem_iff_getElem.mp hp
    rw [List.length_zip, ← h, min_self] at hi
    have := hle i (by rw [len_eq]; exact hi)
    rw [countAt, countAt, List.getD_eq_getElem _ _ (h ▸ hi), List.getD_eq_getElem _ _ hi] at this
    simpa using this
  refine ⟨_, subtract_eq h hle', ?_, fun i _ ↦ ?_⟩
  · simp [len_eq, h]
  · rw [countAt, counts_ofCounts, zipWith_getD rfl h]
    rfl

theorem complement_isFun (s : Subset) :
    ∃ r, s.complement = some r ∧ r.IsFun s.len fun i ↦ if s.countAt i = 0 then 1 else 0 := by
  refine ⟨_, complement_eq s, ?_, fun i hi ↦ ?_⟩
  · simp [len_eq]
  · rw [len_eq] at hi
    have hcount : s.countAt i = s.counts[i] := List.getD_eq_getElem _ _ hi
    rw [countAt, counts_ofCounts, List.getD_eq_getElem _ _ (by simpa using hi), List.getElem_map]
    simp only [hcount]

theorem transformShrink_isFun (h : s.len = t.len) :
    ∃ r, s.transformShrink t = some r ∧ r.len = t.count .zero ∧
      ∀ i < s.len, t.countAt i = 0 → r.countAt (zeroRank t.counts i) = s.countAt i := by
  rw [len_eq, len_eq] at h
  refine ⟨_, transformShrink_eq h, ?_, fun i hi hzero ↦ ?_⟩
  · rw [len_eq, counts_ofCounts, length_keepZero h, ← lenAfterDelete_eq, lenAfterDelete]
  · rw [len_eq, h] at hi
    rw [countAt, counts_ofCounts, keepZero_getD h hi hzero, countAt]

theorem transform_isFun (un : Bool) (h : t.count .zero = s.len) :
    ∃ r, s.transform t un = some r ∧ r.IsFun t.len fun i ↦
      if t.countAt i = 0 then s.countAt (zeroRank t.counts i)
      else if un then t.countAt i else 0 := by
  have h' : s.counts.length = zeros t.counts := by
    rw [← len_eq, ← h, ← lenAfterDelete_eq, lenAfterDelete]
  refine ⟨_, transform_eq un h', ?_, fun i hi ↦ ?_⟩
  · rw [len_eq, counts_ofCounts, length_fillZero _ h', len_eq]
  · rw [len_eq] at hi
    rw [countAt, counts_ofCounts, fillZero_getD _ h' hi]
    rfl

end Subset

/-! ## Queries -/

/-- The answers to a sequence of queries. -/
def Mapper.docIndicesToSubset : Mapper → List ℕ → Option (List ℕ)
  | _, [] => some []
  | m, i :: is => do
    let (n, m) ← m.docIndexToSubset i
    let ns ← m.docIndicesToSubset is
    return n :: ns

theorem Mapper.docIndicesToSubset_eq {R : ℕ → ℕ} {is : List ℕ} (his : is.Pairwise (· ≤ ·)) :
    ∀ {m : Mapper}, m.Follows R → (∀ i ∈ is, m.lastI ≤ i) →
      m.docIndicesToSubset is = some (is.map R) := by
  induction is with
  | nil => intro m _ _; rfl
  | cons i is ih =>
    intro m hm hlast
    obtain ⟨hi, his⟩ := List.pairwise_cons.mp his
    obtain ⟨m', hquery, hm', hlast'⟩ := docIndexToSubset_spec hm (hlast i (by simp))
    have hrest := ih his hm' fun j hj ↦ hlast' ▸ hi j hj
    rw [docIndicesToSubset, hquery, Option.bind_eq_bind, Option.bind_some]
    dsimp only
    rw [hrest]
    rfl

/-- **Subset operations are pointwise** on the counts of the elements, a mapper answers with
ranks, and canonical segments make derived equality the equality of the functions. -/
theorem subset_operations_pointwise :
    (∀ s t : Subset, s.len = t.len →
      (∃ r, s.union t = some r ∧ r.IsFun s.len fun i ↦ s.countAt i + t.countAt i) ∧
      (∃ r, s.bitxor t = some r ∧ r.IsFun s.len fun i ↦ s.countAt i ^^^ t.countAt i) ∧
      ((∀ i < s.len, t.countAt i ≤ s.countAt i) →
        ∃ r, s.subtract t = some r ∧ r.IsFun s.len fun i ↦ s.countAt i - t.countAt i) ∧
      ∃ r, s.transformShrink t = some r ∧ r.len = t.count .zero ∧
        ∀ i < s.len, t.countAt i = 0 → r.countAt (zeroRank t.counts i) = s.countAt i) ∧
    (∀ s : Subset, ∃ r, s.complement = some r ∧
      r.IsFun s.len fun i ↦ if s.countAt i = 0 then 1 else 0) ∧
    (∀ s t : Subset, t.count .zero = s.len →
      (∃ r, s.transformExpand t = some r ∧ r.IsFun t.len fun i ↦
        if t.countAt i = 0 then s.countAt (zeroRank t.counts i) else 0) ∧
      ∃ r, s.transformUnion t = some r ∧ r.IsFun t.len fun i ↦
        if t.countAt i = 0 then s.countAt (zeroRank t.counts i) else t.countAt i) ∧
    (∀ (s : Subset) (matcher : CountMatcher) (is : List ℕ), is.Pairwise (· ≤ ·) →
      (s.mapper matcher).docIndicesToSubset is
        = some (is.map fun i ↦ ((s.counts.take i).filter matcher.matches).length)) ∧
    (∀ s : Subset, (∀ seg ∈ s.segments, 0 < seg.len) ∧
      s.segments.IsChain fun seg seg' ↦ seg.count ≠ seg'.count) ∧
    ∀ s t : Subset, s = t ↔ s.len = t.len ∧ ∀ i < s.len, s.countAt i = t.countAt i := by
  refine ⟨fun s t h ↦ ?_, Subset.complement_isFun, fun s t h ↦ ?_, fun s matcher is his ↦ ?_,
    fun s ↦ ?_, fun s t ↦ Subset.eq_iff_countAt⟩
  · exact ⟨Subset.union_isFun h, Subset.bitxor_isFun h, Subset.subtract_isFun h,
      Subset.transformShrink_isFun h⟩
  · refine ⟨?_, ?_⟩
    · simpa [Subset.transformExpand] using Subset.transform_isFun false h
    · simpa [Subset.transformUnion] using Subset.transform_isFun true h
  · rw [Mapper.docIndicesToSubset_eq his (s.follows_mapper matcher) fun i _ ↦ Nat.zero_le i]
    simp [rank, List.countP_eq_length_filter]
  · exact ⟨s.canonical.pos, s.canonical.ne⟩

end EeEditor
