import EeEditor.Rope.Counts
import EeEditor.Rope.Delta
import EeEditor.Sequence.Select

/-!
# Scanning the ranges of a subset

The ranges a subset yields for a `CountMatcher` are sorted, non-empty and cover exactly the
matching elements, so ranks can be read off them (`Subset.rankInv_rangeIter`). A `Mapper` queried in
non-decreasing order therefore returns ranks, and deleting a subset by copying the ranges of its
complement keeps the elements at its zero positions.
-/

namespace EeEditor

namespace Subset

/-! ## The ranges -/

theorem rangesFrom_bounds (matcher : CountMatcher) (segs : List Segment)
    (hpos : ∀ seg ∈ segs, 0 < seg.len) : ∀ (c : ℕ), ∀ r ∈ rangesFrom matcher c segs,
      c ≤ r.1 ∧ r.1 < r.2 ∧ r.2 ≤ c + (Run.expand segs).length := by
  induction segs with
  | nil => intro c r hr; exact absurd hr List.not_mem_nil
  | cons seg segs ih =>
    intro c r hr
    have hseg := hpos seg (by simp)
    have hrest : ∀ r ∈ rangesFrom matcher (c + seg.len) segs,
        c ≤ r.1 ∧ r.1 < r.2 ∧ r.2 ≤ c + (Run.expand (seg :: segs)).length := by
      intro r hr
      obtain ⟨h1, h2, h3⟩ := ih (fun s hs ↦ hpos s (by simp [hs])) _ r hr
      refine ⟨by omega, h2, ?_⟩
      rw [Run.expand_cons, List.length_append, List.length_replicate]
      omega
    rw [rangesFrom] at hr
    split at hr
    · rcases List.mem_cons.mp hr with rfl | hr
      · refine ⟨le_refl c, Nat.lt_add_of_pos_right hseg, ?_⟩
        rw [Run.expand_cons, List.length_append, List.length_replicate]
        dsimp only
        omega
      · exact hrest r hr
    · exact hrest r hr

theorem rangesFrom_sorted (matcher : CountMatcher) (segs : List Segment)
    (hpos : ∀ seg ∈ segs, 0 < seg.len) :
    ∀ c : ℕ, (rangesFrom matcher c segs).Pairwise fun r s ↦ r.2 ≤ s.1 := by
  induction segs with
  | nil => intro c; exact List.Pairwise.nil
  | cons seg segs ih =>
    intro c
    have hpos' : ∀ s ∈ segs, 0 < s.len := fun s hs ↦ hpos s (by simp [hs])
    rw [rangesFrom]
    split
    · refine List.pairwise_cons.mpr ⟨fun s hs ↦ ?_, ih hpos' _⟩
      exact (rangesFrom_bounds matcher segs hpos' _ s hs).1
    · exact ih hpos' _

/-- Each segment contributes its clipped range exactly when it matches. -/
theorem sum_clip_rangesFrom (matcher : CountMatcher) (segs : List Segment) :
    ∀ c i : ℕ, c ≤ i → ((rangesFrom matcher c segs).map (clip i)).sum
      = rank matcher.matches (Run.expand segs) (i - c) := by
  induction segs with
  | nil => intro c i _; simp [rangesFrom, rank]
  | cons seg segs ih =>
    intro c i hi
    have hrank : rank matcher.matches (Run.expand (seg :: segs)) (i - c)
        = (if matcher.matches seg.count then min (i - c) seg.len else 0)
          + rank matcher.matches (Run.expand segs) (i - (c + seg.len)) := by
      rw [rank, Run.expand_cons, List.take_append, List.countP_append, List.length_replicate,
        List.take_replicate, List.countP_replicate, rank, Nat.sub_sub]
    have hrest : ((rangesFrom matcher (c + seg.len) segs).map (clip i)).sum
        = rank matcher.matches (Run.expand segs) (i - (c + seg.len)) := by
      rcases le_or_gt (c + seg.len) i with h | h
      · exact ih _ _ h
      · -- the position lies before every later range, so both sides vanish
        have hzero : i - (c + seg.len) = 0 := by omega
        have hle : ∀ (c' : ℕ) (segs' : List Segment), i ≤ c' →
            ((rangesFrom matcher c' segs').map (clip i)).sum = 0 := by
          intro c' segs'
          induction segs' generalizing c' with
          | nil => intro _; rfl
          | cons s segs' ih' =>
            intro hc'
            rw [rangesFrom]
            split
            · rw [List.map_cons, List.sum_cons, ih' _ (by omega), clip,
                min_eq_left (by dsimp; omega),
                min_eq_left hc', Nat.sub_self]
            · exact ih' _ (by omega)
        rw [hzero, rank_zero, hle _ _ h.le]
    rw [hrank, ← hrest, rangesFrom]
    split
    · rw [List.map_cons, List.sum_cons]
      congr 1
      rw [clip]
      dsimp only
      omega
    · simp

theorem rankInv_rangeIter (s : Subset) (matcher : CountMatcher) :
    RankInv (rank matcher.matches s.counts) 0 0 (s.rangeIter matcher) where
  sorted := rangesFrom_sorted matcher _ s.canonical.pos 0
  le r hr := (rangesFrom_bounds matcher _ s.canonical.pos 0 r hr).2.1.le
  eq i _ := by rw [rangeIter, sum_clip_rangesFrom matcher _ 0 i (Nat.zero_le i)]; simp [counts]

end Subset

/-! ## The mapper -/

namespace Mapper

/-- A mapper whose ranges account for the ranks `R` from its last query on. -/
def Follows (R : ℕ → ℕ) (m : Mapper) : Prop :=
  match m.curRange with
  | none => ∀ i, m.lastI ≤ i → R i = m.subsetAmountConsumed
  | some range => RankInv R m.lastI m.subsetAmountConsumed (range :: m.rangeIter)

theorem skipTo_spec {R : ℕ → ℕ} {i : ℕ} (ranges : List (ℕ × ℕ)) :
    ∀ (range : ℕ × ℕ) (consumed p : ℕ), p ≤ i → RankInv R p consumed (range :: ranges) →
      match skipTo i ranges range consumed with
      | (_, none, consumed') => ∀ j, i ≤ j → R j = consumed'
      | (ranges', some range', consumed') =>
        RankInv R i consumed' (range' :: ranges') ∧ i < range'.2 := by
  induction ranges with
  | nil =>
    rintro ⟨b, e⟩ consumed p hp h
    rw [skipTo]
    split
    · next heq =>
      split at heq
      · cases heq
        next hi => exact fun j hj ↦ (h.skip hp hi).eq_nil hj
      · cases heq
    · next heq =>
      split at heq
      · cases heq
      · next hi =>
        cases heq
        exact ⟨h.mono hp, not_le.mp hi⟩
  | cons r ranges ih =>
    rintro ⟨b, e⟩ consumed p hp h
    rw [skipTo]
    by_cases hi : i ≥ e
    · rw [if_pos hi]
      exact ih r _ i (le_refl i) (h.skip hp hi)
    · rw [if_neg hi]
      exact ⟨h.mono hp, not_le.mp hi⟩

/-- A query returns the rank and leaves a mapper for the later ones. -/
theorem docIndexToSubset_spec {R : ℕ → ℕ} {m : Mapper} (h : m.Follows R) {i : ℕ}
    (hi : m.lastI ≤ i) :
    ∃ m', m.docIndexToSubset i = some (R i, m') ∧ m'.Follows R ∧ m'.lastI = i := by
  obtain ⟨ranges, lastI, curRange, consumed⟩ := m
  cases curRange with
  | none =>
    refine ⟨⟨ranges, i, none, consumed⟩, ?_, fun j hj ↦ h j (hi.trans hj), rfl⟩
    rw [docIndexToSubset, if_pos hi, h i hi]
  | some range =>
    have hs := skipTo_spec ranges range consumed lastI hi h
    rw [docIndexToSubset, if_pos hi]
    dsimp only
    rcases hsk : skipTo i ranges range consumed with ⟨ranges', _ | ⟨b, e⟩, consumed'⟩
    · rw [hsk] at hs
      dsimp only at hs ⊢
      exact ⟨⟨ranges', i, none, consumed'⟩, by rw [hs i (le_refl i)], hs, rfl⟩
    · rw [hsk] at hs
      dsimp only at hs ⊢
      obtain ⟨hinv, hlt⟩ := hs
      refine ⟨⟨ranges', i, some (b, e), consumed'⟩, ?_, hinv, rfl⟩
      split
      · next hb => rw [hinv.eq_inside (le_refl i) hb hlt.le, Nat.add_comm]
      · next hb => rw [hinv.eq_before (le_refl i) (not_le.mp hb).le]

end Mapper

theorem Subset.follows_mapper (s : Subset) (matcher : CountMatcher) :
    (s.mapper matcher).Follows (rank matcher.matches s.counts) := by
  have h := s.rankInv_rangeIter matcher
  refine ⟨List.pairwise_cons.mpr ⟨fun r _ ↦ Nat.zero_le _, h.sorted⟩, fun r hr ↦ ?_, fun i hi ↦ ?_⟩
  · rcases List.mem_cons.mp hr with rfl | hr
    · exact le_refl 0
    · exact h.le r hr
  · rw [h.eq i hi, Subset.mapper, List.map_cons, List.sum_cons]
    simp [clip]

@[simp] theorem Subset.mapper_lastI (s : Subset) (matcher : CountMatcher) :
    (s.mapper matcher).lastI = 0 := rfl

end EeEditor
