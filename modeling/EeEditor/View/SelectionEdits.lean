import EeEditor.View.Regions

/-!
# Deleting and adding ranges of a selection

What `delete_range` and `add_range_distinct` leave of a sorted selection, and when they panic: a
caret where an empty range is deleted, or where a caret is added, is passed at the start and not
at the end.
-/

namespace EeEditor

open SelRegion

theorem removeNAt_eq {α : Type} {v : List α} {first last : ℕ} (hle : first ≤ last)
    (hlen : last ≤ v.length) :
    removeNAt v first (last - first) = some (v.take first ++ v.drop last) := by
  have hremove := @removeNAt_append _ (v.take first) ((v.drop first).take (last - first))
    (v.drop last)
  have hwhole : v.take first ++ ((v.drop first).take (last - first) ++ v.drop last) = v := by
    rw [← Nat.add_sub_cancel' hle, ← List.drop_drop, Nat.add_sub_cancel_left,
      List.take_append_drop, List.take_append_drop]
  rwa [hwhole, List.length_take, List.length_take, List.length_drop, Nat.min_eq_left (by omega),
    Nat.min_eq_left (by omega)] at hremove

theorem take_append_drop_sublist {α : Type} (v : List α) {first last : ℕ} (hle : first ≤ last) :
    (v.take first ++ v.drop last).Sublist v := by
  have hsub := (List.Sublist.refl (v.take first)).append (List.drop_sublist_drop_left v hle)
  rwa [List.take_append_drop] at hsub

namespace Selection

variable {S : Selection} {r s : SelRegion} {start end_ : ℕ} {deleteAdjacent : Bool}

/-- A search passes the first region behind the others, or does not. -/
theorem searchPast_eq {pre post : List SelRegion} {offset : ℕ} (hregions : S.regions = pre ++ post)
    (hsearch : S.search offset = pre.length) (passed : SelRegion → Bool) :
    S.searchPast offset passed
      = if post.head?.any passed then pre.length + 1 else pre.length := by
  rw [searchPast, hsearch, hregions, List.getElem?_append_right (Nat.le_refl _), Nat.sub_self,
    ← List.head?_eq_getElem?]
  cases post.head? <;> rfl

/-- Where a search finds no region, all end before the offset. -/
theorem Sorted.max_lt_of_length_le (h : S.Sorted) {offset : ℕ}
    (hout : S.regions.length ≤ S.search offset) : ∀ r ∈ S.regions, r.max < offset := by
  obtain ⟨pre, post, hsplit, hsearch, hpre, -⟩ := h.exists_search offset
  have hlen := congrArg List.length hsplit
  rw [List.length_append] at hlen
  rw [hsplit, List.length_eq_zero_iff.mp (show post.length = 0 by omega), List.append_nil]
  exact hpre

theorem Sorted.search_mono (h : S.Sorted) (hle : start ≤ end_) :
    S.search start ≤ S.search end_ := by
  obtain ⟨pre, post, hregions, hsearch, hpre, -⟩ := h.exists_search start
  obtain ⟨pre', post', hregions', hsearch', -, hpost'⟩ := h.exists_search end_
  rw [hsearch, hsearch']
  rcases List.append_eq_append_iff.mp (hregions.symm.trans hregions') with
    ⟨mid, rfl, -⟩ | ⟨past, rfl, rfl⟩
  · rw [List.length_append]
    exact Nat.le_add_right _ _
  · cases past with
    | nil => rw [List.append_nil]
    | cons r past =>
      have hlo := hpre r (by simp)
      have hhi := hpost' r (by simp)
      omega

theorem search_le_searchPast (S : Selection) (offset : ℕ) (passed : SelRegion → Bool) :
    S.search offset ≤ S.searchPast offset passed := by
  rw [searchPast]
  split
  · split <;> omega
  · exact Nat.le_refl _

theorem Sorted.searchPast_le_length (h : S.Sorted) (offset : ℕ) (passed : SelRegion → Bool) :
    S.searchPast offset passed ≤ S.regions.length := by
  obtain ⟨pre, post, hregions, hsearch, -, -⟩ := h.exists_search offset
  rw [searchPast_eq hregions hsearch, hregions, List.length_append]
  cases post with
  | nil => exact Nat.le_refl _
  | cons first post =>
    rw [List.length_cons]
    split <;> omega

/-- The regions that end at an offset or before. -/
theorem Sorted.exists_first (h : S.Sorted) (start : ℕ) : ∃ front rest,
    S.regions = front ++ rest ∧ S.searchPast start (·.max == start) = front.length ∧
      (∀ r ∈ front, r.max ≤ start) ∧ ∀ r ∈ rest, start < r.max := by
  obtain ⟨pre, post, hregions, hsearch, hpre, hpost⟩ := h.exists_search start
  rw [searchPast_eq hregions hsearch]
  cases post with
  | nil => exact ⟨pre, [], hregions, rfl, fun r hr ↦ (hpre r hr).le, by simp⟩
  | cons first post =>
    have hsorted := (List.pairwise_append.mp (hregions ▸ sorted_iff.mp h)).2.1
    have hnext : ∀ r ∈ post, first.max < r.max := fun r hr ↦ by
      have hbefore := (List.pairwise_cons.mp hsorted).1 r hr
      have hle := r.min_le_max
      rw [before_iff] at hbefore
      omega
    have hfirst := hpost first List.mem_cons_self
    by_cases htouch : first.max = start
    · refine ⟨pre ++ [first], post, by rw [hregions, List.append_assoc]; rfl, by simp [htouch],
        fun r hr ↦ ?_, fun r hr ↦ htouch ▸ hnext r hr⟩
      rcases List.mem_append.mp hr with hr | hr
      · exact (hpre r hr).le
      · rw [List.mem_singleton.mp hr, htouch]
    · refine ⟨pre, first :: post, hregions, by simp [htouch], fun r hr ↦ (hpre r hr).le,
        fun r hr ↦ ?_⟩
      rcases List.mem_cons.mp hr with rfl | hr
      · omega
      · have hlater := hnext r hr
        omega

/-- The regions that begin before an offset. -/
theorem Sorted.exists_last (h : S.Sorted) (end_ : ℕ) : ∃ front back,
    S.regions = front ++ back ∧ S.searchPast end_ (·.min < end_) = front.length ∧
      (∀ r ∈ front, r.min < end_) ∧ ∀ r ∈ back, end_ ≤ r.min := by
  obtain ⟨pre, post, hregions, hsearch, hpre, hpost⟩ := h.exists_search end_
  have hpreMin : ∀ r ∈ pre, r.min < end_ := fun r hr ↦ r.min_le_max.trans_lt (hpre r hr)
  rw [searchPast_eq hregions hsearch]
  cases post with
  | nil => exact ⟨pre, [], hregions, rfl, hpreMin, by simp⟩
  | cons first post =>
    have hsorted := (List.pairwise_append.mp (hregions ▸ sorted_iff.mp h)).2.1
    have hnext : ∀ r ∈ post, first.max ≤ r.min := fun r hr ↦
      ((List.pairwise_cons.mp hsorted).1 r hr).1
    have hfirst := hpost first List.mem_cons_self
    by_cases hin : first.min < end_
    · refine ⟨pre ++ [first], post, by rw [hregions, List.append_assoc]; rfl, by simp [hin],
        fun r hr ↦ ?_, fun r hr ↦ hfirst.trans (hnext r hr)⟩
      rcases List.mem_append.mp hr with hr | hr
      · exact hpreMin r hr
      · rwa [List.mem_singleton.mp hr]
    · refine ⟨pre, first :: post, hregions, by simp [hin], hpreMin, fun r hr ↦ ?_⟩
      rcases List.mem_cons.mp hr with rfl | hr
      · omega
      · exact hfirst.trans (hnext r hr)

/-- Unless there is a caret at an empty range, the regions that end at its start or before are not
more than those that begin before its end. -/
theorem exists_between {front rest front' back : List SelRegion}
    (h : front ++ rest = front' ++ back) (hle : start ≤ end_)
    (hfront : ∀ r ∈ front, r.max ≤ start) (hback : ∀ r ∈ back, end_ ≤ r.min)
    (hcaret : start < end_ ∨ ∀ r ∈ front ++ rest, r.min = start → r.max ≠ start) :
    ∃ cut, rest = cut ++ back ∧ front' = front ++ cut := by
  rcases List.append_eq_append_iff.mp h with ⟨cut, rfl, rfl⟩ | ⟨past, rfl, rfl⟩
  · exact ⟨cut, rfl, rfl⟩
  · cases past with
    | nil => exact ⟨[], rfl, by rw [List.append_nil, List.append_nil]⟩
    | cons r past =>
      -- the first region is counted on both sides
      have hmax := hfront r (by simp)
      have hmin := hback r (by simp)
      have hr := r.min_le_max
      rcases hcaret with hlt | hcaret
      · omega
      · exact absurd (show r.max = start by omega) (hcaret r (by simp) (by omega))

/-- A caret at an empty range is among the regions that end at its start or before, and not among
those that begin before its end. -/
theorem length_lt_of_caret {front rest front' back : List SelRegion}
    (hregions : S.regions = front ++ rest) (hregions' : S.regions = front' ++ back)
    (hr : r ∈ S.regions) (hmin : r.min = start) (hmax : r.max = start)
    (hrest : ∀ r ∈ rest, start < r.max) (hfront' : ∀ r ∈ front', r.min < start) :
    front'.length < front.length := by
  by_contra hle
  obtain ⟨cut, rfl⟩ := List.prefix_of_prefix_length_le (hregions ▸ List.prefix_append front rest)
    (hregions' ▸ List.prefix_append front' back) (Nat.not_lt.mp hle)
  rw [hregions] at hr
  rcases List.mem_append.mp hr with hr | hr
  · exact absurd (hfront' r (List.mem_append_left _ hr)) (by omega)
  · exact absurd (hrest r hr) (by omega)

theorem filter_eq_append {front cut back : List SelRegion} {p : SelRegion → Bool}
    (hfront : ∀ r ∈ front, p r = true) (hcut : ∀ r ∈ cut, p r = false)
    (hback : ∀ r ∈ back, p r = true) : (front ++ (cut ++ back)).filter p = front ++ back := by
  rw [List.filter_append, List.filter_append, List.filter_eq_self.mpr hfront,
    List.filter_eq_nil_iff.mpr fun r hr ↦ by simp [hcut r hr], List.filter_eq_self.mpr hback,
    List.nil_append]

/-! ## Deleting a range -/

/-- The regions that intersect the range are deleted, unless there is a caret at an empty one. -/
theorem Sorted.deleteRange_eq (h : S.Sorted) (hle : start ≤ end_)
    (hcaret : start < end_ ∨ ∀ r ∈ S.regions, r.min = start → r.max ≠ start) :
    S.deleteRange start end_ false
      = some ⟨S.regions.filter fun r ↦ r.max ≤ start || end_ ≤ r.min⟩ := by
  obtain ⟨front, rest, hregions, hfirst, hfront, hrest⟩ := h.exists_first start
  obtain ⟨front', back, hregions', hlast, hfront', hback⟩ := h.exists_last end_
  obtain ⟨cut, rfl, rfl⟩ := exists_between (hregions.symm.trans hregions') hle hfront hback
    (hregions ▸ hcaret)
  have hfilter : S.regions.filter (fun r ↦ r.max ≤ start || end_ ≤ r.min) = front ++ back := by
    rw [hregions]
    refine filter_eq_append (fun r hr ↦ ?_) (fun r hr ↦ ?_) fun r hr ↦ ?_
    · simp [hfront r hr]
    · have hlo := hrest r (List.mem_append_left _ hr)
      have hhi := hfront' r (List.mem_append_right _ hr)
      simp only [Bool.or_eq_false_iff, decide_eq_false_iff_not]
      omega
    · simp [hback r hr]
  rw [hfilter, deleteRange]
  simp only [Bool.not_false, Bool.true_and, Bool.false_and, Bool.false_or, hfirst, hlast]
  split
  · next hout =>
    have hcut : cut = [] := by
      refine List.eq_nil_iff_forall_not_mem.mpr fun r hr ↦ ?_
      have hmem : r ∈ S.regions := by rw [hregions]; simp [hr]
      exact absurd (hrest r (List.mem_append_left _ hr)) (h.max_lt_of_length_le hout r hmem).not_gt
    rw [hcut, List.nil_append] at hregions
    rw [← hregions]
  · rw [List.length_append, checkedSub, if_pos (Nat.le_add_right _ _), Nat.add_sub_cancel_left,
      hregions, Option.bind_eq_bind, Option.bind_some, removeNAt_append]
    rfl

/-- A caret where an empty range is deleted is passed at the start and not at the end. -/
theorem Sorted.deleteRange_eq_none (h : S.Sorted) (hr : r ∈ S.regions) (hmin : r.min = start)
    (hmax : r.max = start) : S.deleteRange start start false = none := by
  obtain ⟨front, rest, hregions, hfirst, hfront, hrest⟩ := h.exists_first start
  obtain ⟨front', back, hregions', hlast, hfront', hback⟩ := h.exists_last start
  have hlt := length_lt_of_caret hregions hregions' hr hmin hmax hrest hfront'
  rw [deleteRange, if_neg]
  · simp only [Bool.not_false, Bool.true_and, Bool.false_and, Bool.false_or, hfirst, hlast]
    rw [checkedSub, if_neg (by omega)]
    rfl
  · exact fun hout ↦ absurd (h.max_lt_of_length_le hout r hr) (by omega)

/-- Of the regions that touch the range, some may be left, but none is added. -/
theorem Sorted.deleteRange_adjacent (h : S.Sorted) (hle : start ≤ end_) :
    ∃ S', S.deleteRange start end_ true = some S' ∧ S'.regions.Sublist S.regions := by
  rw [deleteRange]
  split
  · exact ⟨S, rfl, List.Sublist.refl _⟩
  · have hfirst : S.searchPast start (fun region ↦ !true && region.max == start)
        ≤ S.searchPast end_ fun region ↦
          true && decide (region.min ≤ end_) || !true && decide (region.min < end_) := by
      refine le_trans ?_ (S.search_le_searchPast end_ _)
      rw [searchPast]
      simp only [Bool.not_true, Bool.false_and]
      split <;> exact h.search_mono hle
    have hlast := h.searchPast_le_length end_ fun region ↦
      true && decide (region.min ≤ end_) || !true && decide (region.min < end_)
    dsimp only
    rw [checkedSub, if_pos hfirst, Option.bind_eq_bind, Option.bind_some,
      removeNAt_eq hfirst hlast]
    exact ⟨_, rfl, take_append_drop_sublist S.regions hfirst⟩

theorem Sorted.of_sublist (h : S.Sorted) {S' : Selection} (hsub : S'.regions.Sublist S.regions) :
    S'.Sorted := sorted_iff.mpr ((sorted_iff.mp h).sublist hsub)

/-! ## Adding a distinct range -/

/-- A region that begins in another one is not added. -/
theorem Sorted.addRangeDistinct_of_covers (h : S.Sorted) (hs : s ∈ S.regions)
    (hle : s.min ≤ r.min) (hlt : r.min < s.max) :
    S.addRangeDistinct r = some ((s.min, s.max), S) := by
  obtain ⟨front, rest, hregions, hfirst, hfront, hrest⟩ := h.exists_first r.min
  have hmem : s ∈ rest := by
    rw [hregions] at hs
    rcases List.mem_append.mp hs with hs | hs
    · exact absurd (hfront s hs) (by omega)
    · exact hs
  cases rest with
  | nil => cases hmem
  | cons occ rest =>
    have hsame : occ = s := by
      rcases List.mem_cons.mp hmem with heq | hmem
      · exact heq.symm
      · have hsorted := (List.pairwise_append.mp (hregions ▸ sorted_iff.mp h)).2.1
        have hbefore := ((List.pairwise_cons.mp hsorted).1 s hmem).1
        have hocc := hrest occ List.mem_cons_self
        omega
    subst hsame
    have hat : S.regions[front.length]? = some occ := by
      rw [hregions, List.getElem?_append_right (Nat.le_refl _), Nat.sub_self]
      rfl
    rw [addRangeDistinct, hfirst, hat]
    dsimp only
    rw [Option.filter_some, if_pos (by simp [hle, hlt])]

/-- Behind the regions that end where a region begins or before, none keeps it from being added, if
none begins before it. -/
theorem filter_kept_eq_none {front rest : List SelRegion} (hregions : S.regions = front ++ rest)
    (hrest : ∀ s ∈ rest, r.min < s.max) (hno : ∀ s ∈ S.regions, s.min ≤ r.min → s.max ≤ r.min) :
    (S.regions[front.length]?.filter fun occ ↦ occ.min == r.min && occ.max == r.max ||
      decide (r.min ≥ occ.min) && decide (occ.max > r.min)) = none := by
  rw [hregions, List.getElem?_append_right (Nat.le_refl _), Nat.sub_self, ← List.head?_eq_getElem?,
    Option.filter_eq_none_iff]
  intro occ hocc
  have hmem : occ ∈ rest := List.mem_of_head? hocc
  have hmax := hrest occ hmem
  have hmin : ¬ occ.min ≤ r.min := fun hle ↦
    absurd (hno occ (by rw [hregions]; exact List.mem_append_right _ hmem) hle) hmax.not_ge
  simp only [Bool.or_eq_true, Bool.and_eq_true, beq_iff_eq, decide_eq_true_eq]
  omega

/-- A region that begins in no other one is added, and those that it intersects are deleted. -/
theorem Sorted.addRangeDistinct_eq (h : S.Sorted)
    (hno : ∀ s ∈ S.regions, s.min ≤ r.min → s.max ≤ r.min)
    (hcaret : r.min < r.max ∨ ∀ s ∈ S.regions, s.min = r.min → s.max ≠ r.min) :
    S.addRangeDistinct r = some ((r.min, r.max),
      ⟨S.regions.filter (·.max ≤ r.min) ++ r :: S.regions.filter (r.max ≤ ·.min)⟩) := by
  obtain ⟨front, rest, hregions, hfirst, hfront, hrest⟩ := h.exists_first r.min
  obtain ⟨front', back, hregions', hlast, hfront', hback⟩ := h.exists_last r.max
  obtain ⟨cut, rfl, rfl⟩ := exists_between (hregions.symm.trans hregions') r.min_le_max hfront hback
    (hregions ▸ hcaret)
  have hleft : S.regions.filter (·.max ≤ r.min) = front := by
    rw [hregions, List.filter_append, List.filter_eq_self.mpr fun s hs ↦ by simp [hfront s hs],
      List.filter_eq_nil_iff.mpr fun s hs ↦ by simp [hrest s hs], List.append_nil]
  have hright : S.regions.filter (r.max ≤ ·.min) = back := by
    rw [hregions', List.filter_append, List.filter_eq_nil_iff.mpr fun s hs ↦ by simp [hfront' s hs],
      List.filter_eq_self.mpr fun s hs ↦ by simp [hback s hs], List.nil_append]
  have hkept := filter_kept_eq_none hregions hrest hno
  rw [addRangeDistinct, hfirst]
  dsimp only
  rw [hkept, hleft, hright]
  dsimp only
  rw [hlast, List.length_append, checkedSub, if_pos (Nat.le_add_right _ _), Nat.add_sub_cancel_left,
    Option.bind_eq_bind, Option.bind_some, hregions, removeNAt_append, Option.bind_eq_bind,
    Option.bind_some]
  split
  · next hall =>
    rw [List.length_append] at hall
    rw [List.length_eq_zero_iff.mp (show back.length = 0 by omega), List.append_nil]
    rfl
  · rw [insertAt_append]
    rfl

/-- A caret where one is added is passed at the start and not at the end. -/
theorem Sorted.addRangeDistinct_eq_none (h : S.Sorted) (hs : s ∈ S.regions) (hmin : s.min = r.min)
    (hmax : s.max = r.min) (hr : r.min = r.max)
    (hno : ∀ s ∈ S.regions, s.min ≤ r.min → s.max ≤ r.min) : S.addRangeDistinct r = none := by
  obtain ⟨front, rest, hregions, hfirst, hfront, hrest⟩ := h.exists_first r.min
  obtain ⟨front', back, hregions', hlast, hfront', hback⟩ := h.exists_last r.max
  have hlt := length_lt_of_caret hregions hregions' hs hmin hmax hrest (hr ▸ hfront')
  have hkept := filter_kept_eq_none hregions hrest hno
  rw [addRangeDistinct, hfirst]
  dsimp only
  rw [hkept]
  dsimp only
  rw [hlast, checkedSub, if_neg (by omega)]
  rfl

end Selection

end EeEditor
