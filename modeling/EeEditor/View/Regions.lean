import Mathlib.Data.List.Chain
import EeEditor.View.Selection

/-!
# The regions of a selection

The regions of a selection are sorted (`Selection.Sorted`), and do not touch where one is a caret.
-/

namespace EeEditor

/-! ## Regions -/

namespace SelRegion

variable {r s t : SelRegion}

theorem min_le_max (r : SelRegion) : r.min ≤ r.max :=
  (Nat.min_le_left _ _).trans (Nat.le_max_left _ _)

theorem isCaret_iff : r.isCaret = true ↔ r.min = r.max := by
  rw [isCaret, beq_iff_eq, SelRegion.min, SelRegion.max]
  omega

/-- The region ends where the other begins or before, and before it if one of them is a caret. -/
def Before (self other : SelRegion) : Prop :=
  self.max ≤ other.min ∧ (self.isCaret = true ∨ other.isCaret = true → self.max < other.min)

theorem before_iff : s.Before t ↔
    s.max < t.min ∨ s.max = t.min ∧ s.min < s.max ∧ t.min < t.max := by
  have hs := s.min_le_max
  have ht := t.min_le_max
  rw [Before, isCaret_iff, isCaret_iff]
  omega

theorem Before.trans (hrs : r.Before s) (hst : s.Before t) : r.Before t := by
  have hs := s.min_le_max
  rw [before_iff] at *
  omega

instance : Trans Before Before Before := ⟨Before.trans⟩

@[simp] theorem min_new (start end_ : ℕ) : (new start end_).min = Min.min start end_ := rfl

@[simp] theorem max_new (start end_ : ℕ) : (new start end_).max = Max.max start end_ := rfl

@[simp] theorem min_mergeWith (s t : SelRegion) : (s.mergeWith t).min = Min.min s.min t.min := by
  have hs := s.min_le_max
  have ht := t.min_le_max
  rw [mergeWith]
  dsimp only
  split_ifs <;> simp only [min_new] <;> omega

@[simp] theorem max_mergeWith (s t : SelRegion) : (s.mergeWith t).max = Max.max s.max t.max := by
  have hs := s.min_le_max
  have ht := t.min_le_max
  rw [mergeWith]
  dsimp only
  split_ifs <;> simp only [max_new] <;> omega

theorem shouldMerge_iff : s.shouldMerge t = true ↔
    t.min < s.max ∨ (s.min = s.max ∨ t.min = t.max) ∧ t.min = s.max := by
  rw [shouldMerge, Bool.or_eq_true, Bool.and_eq_true, Bool.or_eq_true, isCaret_iff, isCaret_iff,
    decide_eq_true_iff, beq_iff_eq]

/-- A region that should not merge with a later one is before it. -/
theorem before_of_not_shouldMerge (h : ¬ s.shouldMerge t = true) : s.Before t := by
  have hs := s.min_le_max
  have ht := t.min_le_max
  rw [shouldMerge_iff] at h
  rw [before_iff]
  omega

/-- The place is strictly inside the region, where even places are offsets and odd ones lie between
them. -/
def Inside (r : SelRegion) (place : ℕ) : Prop := 2 * r.min < place ∧ place < 2 * r.max

/-- The offset is in the region or on an edge. -/
def Meets (r : SelRegion) (offset : ℕ) : Prop := r.min ≤ offset ∧ offset ≤ r.max

theorem inside_mergeWith (h : s.shouldMerge t = true) (hle : s.min ≤ t.min) (place : ℕ) :
    (s.mergeWith t).Inside place ↔ s.Inside place ∨ t.Inside place := by
  have hs := s.min_le_max
  have ht := t.min_le_max
  rw [shouldMerge_iff] at h
  rw [Inside, Inside, Inside, min_mergeWith, max_mergeWith]
  omega

theorem meets_mergeWith (h : s.shouldMerge t = true) (hle : s.min ≤ t.min) (offset : ℕ) :
    (s.mergeWith t).Meets offset ↔ s.Meets offset ∨ t.Meets offset := by
  have hs := s.min_le_max
  have ht := t.min_le_max
  rw [shouldMerge_iff] at h
  rw [Meets, Meets, Meets, min_mergeWith, max_mergeWith]
  omega

theorem inside_mergeWith_comm (place : ℕ) :
    (s.mergeWith t).Inside place ↔ (t.mergeWith s).Inside place := by
  rw [Inside, Inside, min_mergeWith, max_mergeWith, min_mergeWith, max_mergeWith, Nat.min_comm,
    Nat.max_comm]

theorem meets_mergeWith_comm (offset : ℕ) :
    (s.mergeWith t).Meets offset ↔ (t.mergeWith s).Meets offset := by
  rw [Meets, Meets, min_mergeWith, max_mergeWith, min_mergeWith, max_mergeWith, Nat.min_comm,
    Nat.max_comm]

end SelRegion

open SelRegion

/-! ## Lists of regions -/

section

variable {α : Type} {l pre mid post : List α} {x : α}

theorem removeNAt_append : removeNAt (pre ++ (mid ++ post)) pre.length mid.length
    = some (pre ++ post) := by
  rw [removeNAt]
  split_ifs with hone hlen hmany hle
  · obtain ⟨x, rfl⟩ := List.length_eq_one_iff.mp hone
    rw [List.eraseIdx_append_of_length_le (Nat.le_refl _), Nat.sub_self]
    rfl
  · simp only [List.length_append] at hlen
    omega
  · rw [List.take_left, ← List.drop_drop, List.drop_left, List.drop_left, List.take_of_length_le]
    simp only [List.length_append]
    omega
  · simp only [List.length_append] at hle
    omega
  · rw [List.length_eq_zero_iff.mp (show mid.length = 0 by omega)]
    rfl

theorem insertAt_append : insertAt (pre ++ post) pre.length x = some (pre ++ x :: post) := by
  rw [insertAt, if_pos (by rw [List.length_append]; omega), List.take_left, List.drop_left]

end

theorem replaceRegions_append {pre mid post : List SelRegion} (region : SelRegion) :
    Selection.replaceRegions (pre ++ (mid ++ post)) pre.length (pre.length + mid.length) region
      = some (pre ++ region :: post) := by
  rw [Selection.replaceRegions]
  cases mid with
  | nil =>
    rw [if_pos (by rfl)]
    exact insertAt_append
  | cons first mid =>
    have hset : setAt (pre ++ (first :: mid ++ post)) pre.length region
        = some (pre ++ region :: (mid ++ post)) := by
      rw [setAt, if_pos (by simp), List.set_append_right _ _ (Nat.le_refl _), Nat.sub_self]
      rfl
    have hsub : checkedSub (pre.length + (first :: mid).length) pre.length
        = some (mid.length + 1) := by
      rw [checkedSub, if_pos (Nat.le_add_right _ _), Nat.add_sub_cancel_left, List.length_cons]
    rw [if_neg (by rw [List.length_cons]; omega), hset, Option.bind_eq_bind, Option.bind_some, hsub,
      Option.bind_eq_bind, Option.bind_some]
    have hremove := @removeNAt_append _ (pre ++ [region]) mid post
    rw [List.length_append, List.append_assoc, List.append_assoc] at hremove
    exact hremove

/-! ## Sorted selections -/

namespace Selection

/-- The invariant of the regions. -/
def Sorted (self : Selection) : Prop := self.regions.IsChain Before

variable {S : Selection} {r : SelRegion} {pre post : List SelRegion}

theorem sorted_iff : S.Sorted ↔ S.regions.Pairwise Before := List.isChain_iff_pairwise

theorem sorted_new : new.Sorted := List.isChain_nil

/-- Of two regions, one is before the other. -/
theorem Sorted.comparable (h : S.Sorted) {s t : SelRegion} (hs : s ∈ S.regions)
    (ht : t ∈ S.regions) : s.Before t ∨ t.Before s ∨ s = t := by
  have hsymm : Std.Symm fun s t : SelRegion ↦ s.Before t ∨ t.Before s ∨ s = t := by
    refine ⟨fun s t h ↦ ?_⟩
    rcases h with h | h | h
    · exact .inr (.inl h)
    · exact .inl h
    · exact .inr (.inr h.symm)
  have hpairs : S.regions.Pairwise fun s t ↦ s.Before t ∨ t.Before s ∨ s = t :=
    (sorted_iff.mp h).imp .inl
  exact hpairs.forall_of_forall (fun _ _ ↦ .inr (.inr rfl)) hs ht

/-- A search gives the place between the regions that end before the offset and the others. -/
theorem Sorted.exists_search (h : S.Sorted) (offset : ℕ) : ∃ pre post,
    S.regions = pre ++ post ∧ S.search offset = pre.length ∧ (∀ r ∈ pre, r.max < offset) ∧
      ∀ r ∈ post, offset ≤ r.max := by
  have hsplit := List.takeWhile_append_dropWhile (p := fun r : SelRegion ↦ r.max < offset)
    (l := S.regions)
  have hpre : ∀ r ∈ S.regions.takeWhile fun r ↦ r.max < offset, r.max < offset := fun r hr ↦
    of_decide_eq_true (List.all_eq_true.mp List.all_takeWhile r hr)
  have hhead := List.head?_dropWhile_not (fun r : SelRegion ↦ r.max < offset) S.regions
  generalize S.regions.takeWhile (fun r ↦ r.max < offset) = pre at *
  generalize S.regions.dropWhile (fun r ↦ r.max < offset) = post at *
  rw [sorted_iff, ← hsplit] at h
  have htail : ∀ r ∈ post.tail, offset < r.max := by
    cases post with
    | nil => exact fun r hr ↦ absurd hr List.not_mem_nil
    | cons first post =>
      intro r hr
      have hbefore := (List.pairwise_cons.mp (List.pairwise_append.mp h).2.1).1 r hr
      have hfirst : offset ≤ first.max := by simpa using hhead
      have hle := r.min_le_max
      rw [before_iff] at hbefore
      omega
  have hfirst : ∀ r ∈ post.head?, offset ≤ r.max := by
    cases post with
    | nil => exact fun r hr ↦ by cases hr
    | cons first post =>
      rintro r ⟨⟩
      simpa using hhead
  refine ⟨pre, post, hsplit.symm, ?_, hpre, fun r hr ↦ ?_⟩
  · rw [search, ← hsplit]
    cases hlast : (pre ++ post).getLast? with
    | none => rw [List.getLast?_eq_none_iff.mp hlast, (List.append_eq_nil_iff.mp
        (List.getLast?_eq_none_iff.mp hlast)).1]
    | some last =>
      dsimp only
      split
      · next hlt =>
        cases post with
        | nil => rw [List.append_nil]
        | cons first post =>
          rw [List.getLast?_append_cons] at hlast
          have hmem := List.mem_of_getLast? hlast
          rcases List.mem_cons.mp hmem with rfl | hmem
          · exact absurd (hfirst _ rfl) (by omega)
          · exact absurd (htail _ hmem) (by omega)
      · have hsep : Separates pre post fun r ↦ compare r.max offset :=
          ⟨fun r hr ↦ compare_lt_iff_lt.mpr (hpre r hr),
            fun r hr hlt ↦ absurd (compare_lt_iff_lt.mp hlt) (hfirst r hr).not_gt,
            fun r hr ↦ compare_gt_iff_gt.mpr (htail r hr)⟩
        rw [hsep.binarySearchBy_eq]
        split <;> rename_i heq <;> split at heq <;> cases heq <;> rfl
  · cases post with
    | nil => cases hr
    | cons first post =>
      rcases List.mem_cons.mp hr with rfl | hr
      · exact hfirst _ rfl
      · exact (htail r hr).le

/-! ### Adding a region -/

/-- The place is strictly inside a region. -/
def Inside (self : Selection) (place : ℕ) : Prop := ∃ r ∈ self.regions, r.Inside place

/-- The offset is in a region or on an edge of one. -/
def Meets (self : Selection) (offset : ℕ) : Prop := ∃ r ∈ self.regions, r.Meets offset

/-- The merged region is before what is left, and covers what it absorbed. -/
theorem mergeFollowing_spec {tail : List SelRegion} (h : tail.Pairwise Before)
    (hmin : ∀ t ∈ tail, r.min ≤ t.min) : ∃ absorbed rest merged, tail = absorbed ++ rest ∧
      mergeFollowing r tail = (merged, absorbed.length) ∧ (∀ t ∈ rest, merged.Before t) ∧
      merged.min = r.min ∧ r.max ≤ merged.max ∧
      (∀ place, merged.Inside place ↔ r.Inside place ∨ ∃ t ∈ absorbed, t.Inside place) ∧
      ∀ offset, merged.Meets offset ↔ r.Meets offset ∨ ∃ t ∈ absorbed, t.Meets offset := by
  induction tail generalizing r with
  | nil => exact ⟨[], [], r, rfl, rfl, by simp, rfl, le_rfl, by simp, by simp⟩
  | cons next tail ih =>
    obtain ⟨hnext, htail⟩ := List.pairwise_cons.mp h
    have hle := hmin next List.mem_cons_self
    rw [mergeFollowing]
    split
    · next hmerge =>
      have hmin' : ∀ t ∈ tail, (r.mergeWith next).min ≤ t.min := fun t ht ↦ by
        rw [min_mergeWith]
        exact (Nat.min_le_left _ _).trans (hmin t (List.mem_cons_of_mem _ ht))
      obtain ⟨absorbed, rest, merged, rfl, heq, hbefore, hfirst, hmax, hinside, hmeets⟩ :=
        ih htail hmin'
      refine ⟨next :: absorbed, rest, merged, rfl, by rw [heq]; rfl, hbefore, ?_, ?_, ?_, ?_⟩
      · rw [hfirst, min_mergeWith, Nat.min_eq_left hle]
      · rw [max_mergeWith] at hmax
        exact (Nat.le_max_left _ _).trans hmax
      · intro place
        rw [hinside, inside_mergeWith hmerge hle, or_assoc, List.exists_mem_cons_iff]
      · intro offset
        rw [hmeets, meets_mergeWith hmerge hle, or_assoc, List.exists_mem_cons_iff]
    · next hmerge =>
      have hbefore := before_of_not_shouldMerge hmerge
      refine ⟨[], next :: tail, r, rfl, rfl, fun t ht ↦ ?_, rfl, le_rfl, by simp, by simp⟩
      rcases List.mem_cons.mp ht with rfl | ht
      · exact hbefore
      · exact hbefore.trans (hnext t ht)

/-- The selection is sorted, and covers what the other one and the region cover. -/
structure Adds (S : Selection) (r : SelRegion) (S' : Selection) : Prop where
  sorted : S'.Sorted
  inside : ∀ place, S'.Inside place ↔ r.Inside place ∨ S.Inside place
  meets : ∀ offset, S'.Meets offset ↔ r.Meets offset ∨ S.Meets offset

/-- Put a merged region in the place of those that it absorbed. -/
theorem Sorted.adds_replace (h : S.Sorted) {front : List SelRegion}
    (absorbed rest : List SelRegion) {merged : SelRegion}
    (heq : S.regions = front ++ (absorbed ++ rest))
    (hfront : ∀ p ∈ front, p.Before merged) (hrest : ∀ t ∈ rest, merged.Before t)
    (hinside : ∀ place, merged.Inside place ↔ r.Inside place ∨ ∃ t ∈ absorbed, t.Inside place)
    (hmeets : ∀ offset, merged.Meets offset ↔ r.Meets offset ∨ ∃ t ∈ absorbed, t.Meets offset) :
    S.Adds r ⟨front ++ merged :: rest⟩ := by
  obtain ⟨hfrontSorted, hbackSorted, hover⟩ := List.pairwise_append.mp (heq ▸ sorted_iff.mp h)
  refine ⟨sorted_iff.mpr (List.pairwise_append.mpr ⟨hfrontSorted, List.pairwise_cons.mpr
    ⟨hrest, (List.pairwise_append.mp hbackSorted).2.1⟩, fun p hp t ht ↦ ?_⟩), fun place ↦ ?_,
    fun offset ↦ ?_⟩
  · rcases List.mem_cons.mp ht with rfl | ht
    · exact hfront p hp
    · exact hover p hp t (List.mem_append_right _ ht)
  · simp only [Inside, heq, List.mem_append, List.mem_cons, or_and_right, exists_or,
      exists_eq_left, hinside]
    rw [or_assoc, or_left_comm]
  · simp only [Meets, heq, List.mem_append, List.mem_cons, or_and_right, exists_or,
      exists_eq_left, hmeets]
    rw [or_assoc, or_left_comm]

/-- Adding a region does not panic. -/
theorem Sorted.addRegion (h : S.Sorted) (r : SelRegion) :
    ∃ S', S.addRegion r = some S' ∧ S.Adds r S' := by
  obtain ⟨pre, post, hregions, hsearch, hpre, hpost⟩ := h.exists_search r.min
  obtain ⟨-, hpostSorted, hcross⟩ := List.pairwise_append.mp (hregions ▸ sorted_iff.mp h)
  have hbefore : ∀ p ∈ pre, p.Before r := fun p hp ↦ before_iff.mpr (.inl (hpre p hp))
  rw [Selection.addRegion, hsearch, hregions]
  cases post with
  | nil =>
    rw [List.append_nil, if_pos rfl]
    exact ⟨_, rfl, h.adds_replace [] [] hregions hbefore (by simp) (by simp) (by simp)⟩
  | cons first post =>
    obtain ⟨hfirst, hpostTail⟩ := List.pairwise_cons.mp hpostSorted
    have hend := hpost first List.mem_cons_self
    have hreach : r.min ≤ r.max := r.min_le_max
    rw [if_neg (by simp), List.getElem?_append_right (Nat.le_refl _), Nat.sub_self]
    dsimp only [List.getElem?_cons_zero]
    by_cases hle : first.min ≤ r.min
    · rw [if_pos hle]
      have hlater : ∀ t ∈ post, r.min ≤ t.min := fun t ht ↦ by
        have hnext := hfirst t ht
        rw [before_iff] at hnext
        omega
      by_cases hmerge : first.shouldMerge r = true
      · -- the first region is absorbed
        rw [if_pos hmerge]
        have hmin : (r.mergeWith first).min = first.min := by
          rw [min_mergeWith, Nat.min_eq_right hle]
        obtain ⟨absorbed, rest, merged, rfl, heq, hrest, hfirstMin, hmax, hinside, hmeets⟩ :=
          mergeFollowing_spec (r := r.mergeWith first) hpostTail fun t ht ↦ by
            rw [hmin]
            exact hle.trans (hlater t ht)
        dsimp only
        rw [← List.drop_drop, List.drop_left, List.drop_succ_cons, List.drop_zero, heq]
        refine ⟨⟨pre ++ merged :: rest⟩, ?_, h.adds_replace (first :: absorbed) rest
          (by rw [hregions]; rfl) (fun p hp ↦ ?_) hrest (fun place ↦ ?_) fun offset ↦ ?_⟩
        · have hreplace := @replaceRegions_append pre (first :: absorbed) rest merged
          rw [List.length_cons, Nat.add_comm absorbed.length, ← Nat.add_assoc] at hreplace
          exact congrArg (Option.map _) hreplace
        · have hp' := hcross p hp first List.mem_cons_self
          have hfirstLe := first.min_le_max
          rw [max_mergeWith] at hmax
          rw [before_iff] at hp' ⊢
          omega
        · rw [hinside, inside_mergeWith_comm, inside_mergeWith hmerge hle,
            List.exists_mem_cons_iff, or_assoc, or_left_comm]
        · rw [hmeets, meets_mergeWith_comm, meets_mergeWith hmerge hle,
            List.exists_mem_cons_iff, or_assoc, or_left_comm]
      · -- the region begins where the first one ends
        rw [if_neg hmerge]
        obtain ⟨absorbed, rest, merged, rfl, heq, hrest, hmin, hmax, hinside, hmeets⟩ :=
          mergeFollowing_spec hpostTail hlater
        dsimp only
        rw [← List.drop_drop, List.drop_left, List.drop_succ_cons, List.drop_zero, heq]
        have hregions' : S.regions = (pre ++ [first]) ++ (absorbed ++ rest) := by
          rw [hregions, List.append_assoc]
          rfl
        refine ⟨⟨(pre ++ [first]) ++ merged :: rest⟩, ?_, h.adds_replace absorbed rest hregions'
          (fun p hp ↦ ?_) hrest hinside hmeets⟩
        · have hreplace := @replaceRegions_append (pre ++ [first]) absorbed rest merged
          rw [List.length_append, List.length_singleton, List.append_assoc pre] at hreplace
          exact congrArg (Option.map _) hreplace
        · have hfirstBefore := before_of_not_shouldMerge hmerge
          rcases List.mem_append.mp hp with hp | hp
          · have hpMax := hpre p hp
            rw [before_iff]
            omega
          · obtain rfl := List.mem_singleton.mp hp
            rw [before_iff] at hfirstBefore ⊢
            omega
    · rw [if_neg hle]
      have hlater : ∀ t ∈ first :: post, r.min ≤ t.min := fun t ht ↦ by
        rcases List.mem_cons.mp ht with rfl | ht
        · omega
        · have hnext := hfirst t ht
          have hfirstLe := first.min_le_max
          rw [before_iff] at hnext
          omega
      obtain ⟨absorbed, rest, merged, heqs, heq, hrest, hmin, hmax, hinside, hmeets⟩ :=
        mergeFollowing_spec hpostSorted hlater
      dsimp only
      rw [List.drop_left, heq, heqs]
      refine ⟨⟨pre ++ merged :: rest⟩, congrArg (Option.map _) (replaceRegions_append merged),
        h.adds_replace absorbed rest (heqs ▸ hregions) (fun p hp ↦ ?_) hrest hinside hmeets⟩
      have hpMax := hpre p hp
      rw [before_iff]
      omega

end Selection

end EeEditor
