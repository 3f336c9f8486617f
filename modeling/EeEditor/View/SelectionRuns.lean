import EeEditor.View.SelectionEdits

/-!
# Runs of operations on a selection

Adding regions and applying deltas keep the regions sorted from any selection that is. The other
operations do so unless carets are in the way (`SelectionOp.Fits`), and a run keeps the invariant if
and only if all its steps fit (`keepsInvariant_iff`). What the regions cover decides which regions
there are (`Sorted.mem_pairs_iff`), so regions can be added in any order.
-/

namespace EeEditor

open SelRegion

namespace Selection

variable {α : Type} {S S' : Selection} {r s t : SelRegion}

/-! ## Clamping -/

/-- A clamped region. -/
def clampRegion (max : ℕ) (region : SelRegion) : SelRegion :=
  { region with start := min region.start max, end_ := min region.end_ max }

theorem before_clampRegion {max : ℕ} (h : s.Before t) :
    (clampRegion max s).Before (clampRegion max t) ↔ s.max < max := by
  have hmin : ∀ r, (clampRegion max r).min = min r.min max := fun r ↦ by
    simp only [clampRegion, SelRegion.min]
    omega
  have hmax : ∀ r, (clampRegion max r).max = min r.max max := fun r ↦ by
    simp only [clampRegion, SelRegion.max]
    omega
  have hs := s.min_le_max
  have ht := t.min_le_max
  rw [before_iff] at h ⊢
  rw [hmin, hmin, hmax, hmax]
  omega

theorem pairwise_fst_iff {p : SelRegion → Prop} {l : List SelRegion} :
    l.Pairwise (fun s _ ↦ p s) ↔ ∀ s ∈ l.dropLast, p s := by
  induction l with
  | nil => simp
  | cons s l ih =>
    cases l with
    | nil => simp
    | cons t l =>
      have hhead : (∀ t' ∈ t :: l, p s) ↔ p s := ⟨fun h ↦ h t List.mem_cons_self, fun h _ _ ↦ h⟩
      rw [List.pairwise_cons, ih, hhead, List.dropLast_cons_cons, List.forall_mem_cons]

/-- Clamping keeps the regions sorted if all but the last end before the limit. -/
theorem Sorted.clamp_iff (h : S.Sorted) (max : ℕ) :
    (S.clamp max).Sorted ↔ ∀ s ∈ S.regions.dropLast, s.max < max := by
  have hpairs := sorted_iff.mp h
  rw [sorted_iff, ← pairwise_fst_iff]
  show (S.regions.map (clampRegion max)).Pairwise Before ↔ _
  rw [List.pairwise_map]
  exact ⟨fun hclamp ↦ (hpairs.and hclamp).imp fun hst ↦ (before_clampRegion hst.1).mp hst.2,
    fun hlt ↦ (hpairs.and hlt).imp fun hst ↦ (before_clampRegion hst.1).mpr hst.2⟩

/-! ## Deltas -/

theorem Sorted.applyDeltaFrom (h : S.Sorted) (after : Bool) (drift : InsertDrift)
    (regions : List SelRegion) (transformer : Transformer α) :
    ∃ S', Selection.applyDeltaFrom after drift regions transformer S = some S' ∧ S'.Sorted := by
  induction regions generalizing S transformer with
  | nil => exact ⟨S, rfl, h⟩
  | cons region regions ih =>
    obtain ⟨S', hadd, hS'⟩ := h.addRegion
      ((SelRegion.new (transformer.transform region.start (sides region after drift).1).1
        ((transformer.transform region.start (sides region after drift).1).2.transform region.end_
          (sides region after drift).2).1).withAffinity region.affinity)
    rw [Selection.applyDeltaFrom]
    dsimp only
    rw [hadd]
    exact ih hS'.sorted _

/-! ## Adding a distinct range -/

/-- A range fits if it begins in a region, or if no region touches it where one is a caret. -/
theorem Sorted.addRangeDistinct_iff (h : S.Sorted) :
    (∃ range S', S.addRangeDistinct r = some (range, S') ∧ S'.Sorted) ↔
      (∃ s ∈ S.regions, s.min ≤ r.min ∧ r.min < s.max) ∨
        ∀ s ∈ S.regions, s.max = r.min ∨ s.min = r.max → s.min < s.max ∧ r.min < r.max := by
  by_cases hcovers : ∃ s ∈ S.regions, s.min ≤ r.min ∧ r.min < s.max
  · obtain ⟨s, hs, hle, hlt⟩ := hcovers
    exact ⟨fun _ ↦ .inl ⟨s, hs, hle, hlt⟩,
      fun _ ↦ ⟨_, S, h.addRangeDistinct_of_covers hs hle hlt, h⟩⟩
  · have hno : ∀ s ∈ S.regions, s.min ≤ r.min → s.max ≤ r.min := fun s hs hle ↦
      not_lt.mp fun hlt ↦ hcovers ⟨s, hs, hle, hlt⟩
    rw [or_iff_right hcovers]
    by_cases hcaret : r.min < r.max ∨ ∀ s ∈ S.regions, s.min = r.min → s.max ≠ r.min
    · rw [h.addRangeDistinct_eq hno hcaret]
      have hr := r.min_le_max
      constructor
      · rintro ⟨range, S', heq, hsorted⟩ s hs htouch
        obtain ⟨-, rfl⟩ := Prod.mk.inj (Option.some.inj heq)
        obtain ⟨-, hright, hcross⟩ := List.pairwise_append.mp (sorted_iff.mp hsorted)
        have hle := s.min_le_max
        rcases htouch with htouch | htouch
        · have hbefore := hcross s (List.mem_filter.mpr ⟨hs, by simp [htouch]⟩) r
            List.mem_cons_self
          rw [before_iff] at hbefore
          omega
        · have hbefore := (List.pairwise_cons.mp hright).1 s
            (List.mem_filter.mpr ⟨hs, by simp [htouch]⟩)
          rw [before_iff] at hbefore
          omega
      · intro hfit
        refine ⟨_, _, rfl, sorted_iff.mpr (List.pairwise_append.mpr
          ⟨(sorted_iff.mp h).filter _, List.pairwise_cons.mpr
            ⟨fun s hs ↦ ?_, (sorted_iff.mp h).filter _⟩, fun s hs t ht ↦ ?_⟩)⟩
        · obtain ⟨hmem, hmin⟩ := List.mem_filter.mp hs
          have hmin := of_decide_eq_true hmin
          have htouch := hfit s hmem
          rw [before_iff]
          omega
        · obtain ⟨hmem, hmax⟩ := List.mem_filter.mp hs
          have hmax := of_decide_eq_true hmax
          have htouch := hfit s hmem
          have hsr : s.Before r := by
            rw [before_iff]
            omega
          rcases List.mem_cons.mp ht with rfl | ht
          · exact hsr
          · obtain ⟨hmem', hmin⟩ := List.mem_filter.mp ht
            have hmin := of_decide_eq_true hmin
            have htouch' := hfit t hmem'
            refine hsr.trans ?_
            rw [before_iff]
            omega
    · push Not at hcaret
      obtain ⟨hge, s, hs, hmin, hmax⟩ := hcaret
      have hr := r.min_le_max
      rw [h.addRangeDistinct_eq_none hs hmin hmax (by omega) hno]
      constructor
      · rintro ⟨_, _, hnone, -⟩
        cases hnone
      · intro hfit
        have := hfit s hs (.inl hmax)
        omega

/-! ## Regions in any order -/

/-- The edges of the regions. -/
def pairs (self : Selection) : Set (ℕ × ℕ) := {p | ∃ r ∈ self.regions, p = (r.min, r.max)}

def addRegions (self : Selection) (regions : List SelRegion) : Option Selection :=
  regions.foldlM addRegion self

/-- The regions are the largest ranges that are covered without a gap, and the offsets that are met
away from them. -/
theorem Sorted.mem_pairs_iff (h : S.Sorted) (a b : ℕ) : (a, b) ∈ S.pairs ↔
    (a < b ∧ (∀ place, 2 * a < place → place < 2 * b → S.Inside place) ∧
        ¬ S.Inside (2 * a) ∧ ¬ S.Inside (2 * b)) ∨
      (a = b ∧ S.Meets a ∧ ∀ place, place + 1 = 2 * a ∨ place = 2 * a ∨ place = 2 * a + 1 →
        ¬ S.Inside place) := by
  constructor
  · rintro ⟨r, hr, heq⟩
    obtain ⟨rfl, rfl⟩ := Prod.mk.inj heq
    have hout : ∀ place, 2 * r.min - 1 ≤ place → place ≤ 2 * r.max + 1 → S.Inside place →
        r.Inside place ∨ r.min < r.max ∧ (place + 1 = 2 * r.min ∨ place = 2 * r.max + 1) := by
      rintro place hlo hhi ⟨s, hs, hin⟩
      have hle := r.min_le_max
      rcases h.comparable hs hr with hbefore | hbefore | rfl
      · rw [before_iff] at hbefore
        rw [SelRegion.Inside] at hin ⊢
        omega
      · rw [before_iff] at hbefore
        rw [SelRegion.Inside] at hin ⊢
        omega
      · exact .inl hin
    have hle := r.min_le_max
    rcases hle.lt_or_eq with hlt | hcaret
    · refine .inl ⟨hlt, fun place hlo hhi ↦ ⟨r, hr, hlo, hhi⟩, fun hin ↦ ?_, fun hin ↦ ?_⟩
      · have := hout _ (by omega) (by omega) hin
        rw [SelRegion.Inside] at this
        omega
      · have := hout _ (by omega) (by omega) hin
        rw [SelRegion.Inside] at this
        omega
    · refine .inr ⟨hcaret, ⟨r, hr, le_rfl, hle⟩, fun place hplace hin ↦ ?_⟩
      have := hout place (by omega) (by omega) hin
      rw [SelRegion.Inside] at this
      omega
  · rintro (⟨hlt, hin, hstart, hend⟩ | ⟨rfl, ⟨s, hs, hlo, hhi⟩, hout⟩)
    · obtain ⟨s, hs, hslo, hshi⟩ := hin (2 * a + 1) (by omega) (by omega)
      have hmin : s.min = a := by
        by_contra hne
        exact hstart ⟨s, hs, by omega, by omega⟩
      have hmax : s.max = b := by
        rcases Nat.lt_trichotomy s.max b with hshort | heq | hlong
        · -- the end of the region is covered by another one
          obtain ⟨t, ht, htlo, hthi⟩ := hin (2 * s.max) (by omega) (by omega)
          rcases h.comparable hs ht with hbefore | hbefore | rfl
          · rw [before_iff] at hbefore
            omega
          · rw [before_iff] at hbefore
            have := t.min_le_max
            omega
          · omega
        · exact heq
        · exact absurd ⟨s, hs, by omega, by omega⟩ hend
      exact ⟨s, hs, by rw [hmin, hmax]⟩
    · refine ⟨s, hs, ?_⟩
      by_cases hinside : s.min < a ∧ a < s.max
      · exact absurd ⟨s, hs, by omega, by omega⟩ (hout (2 * a) (.inr (.inl rfl)))
      · by_cases hright : a < s.max
        · exact absurd ⟨s, hs, by omega, by omega⟩ (hout (2 * a + 1) (.inr (.inr rfl)))
        · by_cases hleft : s.min < a
          · exact absurd ⟨s, hs, by omega, by omega⟩ (hout (2 * a - 1) (.inl (by omega)))
          · rw [show s.min = a by omega, show s.max = a by omega]

/-- Regions can be added to a sorted selection, and cover what they cover. -/
theorem Sorted.addRegions (h : S.Sorted) (regions : List SelRegion) :
    ∃ S', S.addRegions regions = some S' ∧ S'.Sorted ∧
      (∀ place, S'.Inside place ↔ (∃ r ∈ regions, r.Inside place) ∨ S.Inside place) ∧
      ∀ offset, S'.Meets offset ↔ (∃ r ∈ regions, r.Meets offset) ∨ S.Meets offset := by
  induction regions generalizing S with
  | nil => exact ⟨S, rfl, h, by simp, by simp⟩
  | cons r regions ih =>
    obtain ⟨S', hadd, hS'⟩ := h.addRegion r
    obtain ⟨S'', hadds, hsorted, hinside, hmeets⟩ := ih hS'.sorted
    refine ⟨S'', ?_, hsorted, fun place ↦ ?_, fun offset ↦ ?_⟩
    · rw [Selection.addRegions, List.foldlM_cons, hadd]
      exact hadds
    · rw [hinside, hS'.inside, List.exists_mem_cons_iff, or_assoc, or_left_comm]
    · rw [hmeets, hS'.meets, List.exists_mem_cons_iff, or_assoc, or_left_comm]

/-- The regions do not depend on the order in which they are added. -/
theorem addRegions_perm {l l' : List SelRegion} (h : l.Perm l') : ∃ S S',
    new.addRegions l = some S ∧ new.addRegions l' = some S' ∧ S.pairs = S'.pairs := by
  obtain ⟨S, hadd, hsorted, hinside, hmeets⟩ := sorted_new.addRegions l
  obtain ⟨S', hadd', hsorted', hinside', hmeets'⟩ := sorted_new.addRegions l'
  have hsame : ∀ p : SelRegion → Prop, (∃ r ∈ l, p r) ↔ ∃ r ∈ l', p r := fun p ↦
    ⟨fun ⟨r, hr, hp⟩ ↦ ⟨r, h.mem_iff.mp hr, hp⟩, fun ⟨r, hr, hp⟩ ↦ ⟨r, h.mem_iff.mpr hr, hp⟩⟩
  refine ⟨S, S', hadd, hadd', Set.ext fun ⟨a, b⟩ ↦ ?_⟩
  simp only [hsorted.mem_pairs_iff, hsorted'.mem_pairs_iff, hinside, hinside', hmeets, hmeets',
    hsame]

/-! ## Runs -/

inductive SelectionOp (α : Type) where
  | addRegion (region : SelRegion)
  | addRangeDistinct (region : SelRegion)
  | deleteRange (start end_ : ℕ) (deleteAdjacent : Bool)
  | clamp (limit : ℕ)
  | applyDelta (delta : Delta α) (after : Bool) (drift : InsertDrift)

namespace SelectionOp

def WellFormed : SelectionOp α → Prop
  | deleteRange start end_ _ => start ≤ end_
  | applyDelta delta _ _ => delta.WellFormed
  | _ => True

/-- Run the operation. -/
def run (S : Selection) : SelectionOp α → Option Selection
  | addRegion region => S.addRegion region
  | addRangeDistinct region => (S.addRangeDistinct region).map (·.2)
  | deleteRange start end_ deleteAdjacent => S.deleteRange start end_ deleteAdjacent
  | clamp limit => some (S.clamp limit)
  | applyDelta delta after drift => S.applyDelta delta after drift

/-- No caret is in the way of the operation. -/
def Fits (S : Selection) : SelectionOp α → Prop
  | addRegion _ => True
  | addRangeDistinct region => (∃ s ∈ S.regions, s.min ≤ region.min ∧ region.min < s.max) ∨
      ∀ s ∈ S.regions, s.max = region.min ∨ s.min = region.max →
        s.min < s.max ∧ region.min < region.max
  | deleteRange start end_ deleteAdjacent => deleteAdjacent = true ∨ start < end_ ∨
      ∀ s ∈ S.regions, s.min = start → s.max ≠ start
  | clamp limit => ∀ s ∈ S.regions.dropLast, s.max < limit
  | applyDelta _ _ _ => True

end SelectionOp

/-- The operation does not panic and leaves the regions sorted if and only if it fits. -/
theorem Sorted.run_iff (h : S.Sorted) {op : SelectionOp α} (hop : op.WellFormed) :
    (∃ S', op.run S = some S' ∧ S'.Sorted) ↔ op.Fits S := by
  cases op with
  | addRegion region =>
    obtain ⟨S', hadd, hS'⟩ := h.addRegion region
    exact iff_true_intro ⟨S', hadd, hS'.sorted⟩
  | addRangeDistinct region =>
    refine Iff.trans ⟨?_, ?_⟩ h.addRangeDistinct_iff
    · rintro ⟨S', hrun, hsorted⟩
      obtain ⟨⟨range, _⟩, hadd, rfl⟩ := Option.map_eq_some_iff.mp hrun
      exact ⟨range, _, hadd, hsorted⟩
    · rintro ⟨range, S', hadd, hsorted⟩
      exact ⟨S', Option.map_eq_some_iff.mpr ⟨_, hadd, rfl⟩, hsorted⟩
  | deleteRange start end_ deleteAdjacent =>
    cases deleteAdjacent with
    | true =>
      obtain ⟨S', hdelete, hsub⟩ := h.deleteRange_adjacent hop
      exact ⟨fun _ ↦ .inl rfl, fun _ ↦ ⟨S', hdelete, h.of_sublist hsub⟩⟩
    | false =>
      constructor
      · rintro ⟨S', hdelete, -⟩
        refine .inr (or_iff_not_imp_left.mpr fun hlt s hs hmin hmax ↦ ?_)
        obtain rfl : start = end_ := le_antisymm hop (not_lt.mp hlt)
        rw [SelectionOp.run, h.deleteRange_eq_none hs hmin hmax] at hdelete
        cases hdelete
      · rintro (hfalse | hcaret)
        · cases hfalse
        · exact ⟨_, h.deleteRange_eq hop hcaret, h.of_sublist List.filter_sublist⟩
  | clamp limit =>
    exact ⟨fun ⟨S', hclamp, hsorted⟩ ↦ (h.clamp_iff limit).mp (Option.some.inj hclamp ▸ hsorted),
      fun hfit ↦ ⟨_, rfl, (h.clamp_iff limit).mpr hfit⟩⟩
  | applyDelta delta after drift =>
    exact iff_true_intro (sorted_new.applyDeltaFrom after drift S.regions (Transformer.new delta))

/-- The regions are sorted before and after each step, and no step panics. -/
def KeepsInvariant : Selection → List (SelectionOp α) → Prop
  | S, [] => S.Sorted
  | S, op :: ops => S.Sorted ∧ ∃ S', op.run S = some S' ∧ KeepsInvariant S' ops

/-- Each step fits the selection that it is run on. -/
def AllFit : Selection → List (SelectionOp α) → Prop
  | _, [] => True
  | S, op :: ops => op.Fits S ∧ ∀ S', op.run S = some S' → AllFit S' ops

theorem KeepsInvariant.sorted {ops : List (SelectionOp α)} (h : S.KeepsInvariant ops) :
    S.Sorted := by
  cases ops with
  | nil => exact h
  | cons op ops => exact h.1

theorem Sorted.keepsInvariant_iff (h : S.Sorted) {ops : List (SelectionOp α)}
    (hops : ∀ op ∈ ops, op.WellFormed) : S.KeepsInvariant ops ↔ S.AllFit ops := by
  induction ops generalizing S with
  | nil => exact iff_true_intro h
  | cons op ops ih =>
    obtain ⟨hop, hops⟩ := List.forall_mem_cons.mp hops
    have hstep := h.run_iff hop
    constructor
    · rintro ⟨-, S', hrun, hrest⟩
      refine ⟨hstep.mp ⟨S', hrun, hrest.sorted⟩, fun S'' hrun' ↦ ?_⟩
      obtain rfl := Option.some.inj (hrun.symm.trans hrun')
      exact (ih hrest.sorted hops).mp hrest
    · rintro ⟨hfit, hrest⟩
      obtain ⟨S', hrun, hsorted⟩ := hstep.mpr hfit
      exact ⟨h, S', hrun, (ih hsorted hops).mpr (hrest S' hrun)⟩

/-- **Runs of operations.** From the empty selection, no step of a run panics and the regions stay
sorted if and only if each step fits, and the order in which regions are added does not matter. -/
theorem keepsInvariant_new_iff : (∀ ops : List (SelectionOp α), (∀ op ∈ ops, op.WellFormed) →
      (new.KeepsInvariant ops ↔ new.AllFit ops)) ∧
    ∀ l l' : List SelRegion, l.Perm l' → ∃ S S', new.addRegions l = some S ∧
      new.addRegions l' = some S' ∧ S.pairs = S'.pairs :=
  ⟨fun _ hops ↦ sorted_new.keepsInvariant_iff hops, fun _ _ hperm ↦ addRegions_perm hperm⟩

/-- Regions that touch, of which the second is clamped. -/
theorem keepsInvariant_touching : new.KeepsInvariant ([.addRegion (.new 2 5),
      .addRangeDistinct (.new 5 8), .clamp 6] : List (SelectionOp ℕ)) ∧
    ∃ S S', new.addRegions [.new 3 5, .new 2 4] = some S ∧
      new.addRegions [.new 2 4, .new 3 5] = some S' ∧ S.pairs = S'.pairs := by
  refine ⟨(keepsInvariant_new_iff.1 _ ?_).mpr ⟨trivial, fun S hS ↦ ⟨?_, fun S' hS' ↦ ⟨?_, ?_⟩⟩⟩,
    (@keepsInvariant_new_iff ℕ).2 _ _ (.swap _ _ _)⟩
  · intro op hop
    simp only [List.mem_cons, List.not_mem_nil, or_false] at hop
    obtain rfl | rfl | rfl := hop <;> trivial
  · obtain rfl : ⟨[.new 2 5]⟩ = S := Option.some.inj hS
    exact .inr (by decide)
  · obtain rfl : ⟨[.new 2 5]⟩ = S := Option.some.inj hS
    have hrun : SelectionOp.run ⟨[.new 2 5]⟩ (.addRangeDistinct (.new 5 8) : SelectionOp ℕ)
        = some ⟨[.new 2 5, .new 5 8]⟩ := by decide
    obtain rfl := Option.some.inj (hrun.symm.trans hS')
    show ∀ s ∈ [SelRegion.new 2 5], s.max < 6
    decide
  · exact fun _ _ ↦ trivial

/-- The empty range at a caret is deleted: the difference of the places is below zero. -/
theorem deleteRange_panics : ¬ new.KeepsInvariant
    ([.addRegion (.new 5 5), .deleteRange 5 5 false] : List (SelectionOp ℕ)) := by
  rintro ⟨-, S, hS, -, S', hS', -⟩
  obtain rfl : ⟨[.new 5 5]⟩ = S := Option.some.inj hS
  have hrun : SelectionOp.run ⟨[.new 5 5]⟩ (.deleteRange 5 5 false : SelectionOp ℕ) = none := by
    decide
  rw [hrun] at hS'
  cases hS'

end Selection

end EeEditor
