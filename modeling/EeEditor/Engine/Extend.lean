import EeEditor.Engine.Represents

/-!
# Extending a history

A new revision at the end of a history, with the atoms that it inserts. The effects of the old
revisions stay what they are, and the coordinates of the old union strings do not see the new
atoms.
-/

namespace EeEditor

variable {α : Type}

/-- The effects with a new revision `id`: it has the effect `c` on old atoms, and no revision has
an effect on its atoms. -/
def extendEffect (effect : RevId → Atom α → ℕ) (id : RevId) (c : Atom α → ℕ) (s : RevId)
    (k : Atom α) : ℕ :=
  if k.rev = id then 0 else if s = id then c k else effect s k

/-- A member of a longer list is an old one, or the new one. -/
theorem append_singleton_eq_append_cons {β : Type*} {l pre post : List β} {a b : β}
    (h : l ++ [a] = pre ++ b :: post) :
    (pre = l ∧ b = a ∧ post = []) ∨ ∃ post', post = post' ++ [a] ∧ l = pre ++ b :: post' := by
  rcases List.eq_nil_or_concat post with rfl | ⟨post, t, rfl⟩
  · obtain ⟨h1, h2⟩ := List.append_inj' h rfl
    cases h2
    exact .inl ⟨h1.symm, rfl, rfl⟩
  · have h' : l ++ [a] = (pre ++ b :: post) ++ [t] := by simpa using h
    obtain ⟨h1, h2⟩ := List.append_inj' h' rfl
    cases h2
    exact .inr ⟨post, List.concat_eq_append, h1⟩

section

variable {effect : RevId → Atom α → ℕ} {id : RevId} {c : Atom α → ℕ} {s : RevId} {k : Atom α}

theorem extendEffect_of_ne (hk : k.rev ≠ id) (hs : s ≠ id) :
    extendEffect effect id c s k = effect s k := by
  rw [extendEffect, if_neg hk, if_neg hs]

theorem extendEffect_self (hk : k.rev ≠ id) : extendEffect effect id c id k = c k := by
  rw [extendEffect, if_neg hk, if_pos rfl]

theorem extendEffect_own (hk : k.rev = id) : extendEffect effect id c s k = 0 := by
  rw [extendEffect, if_pos hk]

/-- Old revisions contribute what they did. -/
theorem replay_extendEffect {revs : List Revision} (hid : id ∉ revs.map Revision.revId)
    (groups : Finset ℕ) (hk : k.rev ≠ id) :
    replay (extendEffect effect id c) groups revs k = replay effect groups revs k := by
  rw [replay, replay]
  refine congrArg List.sum (List.map_congr_left fun r hr ↦ ?_)
  have hne : r.revId ≠ id := fun heq ↦ hid (List.mem_map.mpr ⟨r, hr, heq⟩)
  rw [contribution, contribution, extendEffect_of_ne hk hne]

end

namespace History

variable {u u' : List (Atom α)} {effect : RevId → Atom α → ℕ} {revs : List Revision}
  {id : RevId} {c : Atom α → ℕ}

/-- Old union strings are not changed by new atoms. -/
theorem unionAt_extend (hu : (u'.filter fun k ↦ !decide (k.rev = id)) = u) {pre : List Revision}
    (hid : id ∉ pre.map Revision.revId) : unionAt u' pre = unionAt u pre := by
  rw [← hu, unionAt, unionAt, List.filter_filter]
  refine List.filter_congr fun k _ ↦ ?_
  by_cases hk : k.rev = id
  · simp [known, hk, hid]
  · simp [hk]

/-- A history with one more revision. -/
theorem extend (h : History u effect revs) (hnodup : u'.Nodup)
    (hu : (u'.filter fun k ↦ !decide (k.rev = id)) = u) {r : Revision} (hrid : r.revId = id)
    (hid : id ∉ revs.map Revision.revId)
    (hedit : ∀ k ∈ u', k.rev = id → r.edit.isEdit = true)
    (hc : ∀ k ∈ u', k.rev = id → c k = 0) (henc : r.Encodes u' c) :
    History u' (extendEffect effect id c) (revs ++ [r]) := by
  have hold : ∀ k ∈ u', k.rev ≠ id → k ∈ u := fun k hk hne ↦ by
    rw [← hu]
    exact List.mem_filter.mpr ⟨hk, by simpa using hne⟩
  have hself : unionAt u' (revs ++ [r]) = u' := by
    refine List.filter_eq_self.mpr fun k hk ↦ ?_
    rw [known_append, known_singleton, hrid]
    by_cases hkid : k.rev = id
    · simp [hkid]
    · obtain ⟨q, hq, hqid, -⟩ := h.inserted k (hold k hk hkid)
      simp only [Bool.or_eq_true]
      exact .inl (decide_eq_true (List.mem_map.mpr ⟨q, hq, hqid⟩))
  refine ⟨hnodup, ?_, ?_, ?_, ?_⟩
  · rw [List.map_append, List.map_singleton, hrid]
    refine List.nodup_append.mpr ⟨h.ids, by simp, fun a ha b hb ↦ ?_⟩
    obtain rfl := List.mem_singleton.mp hb
    exact fun hab ↦ hid (hab ▸ ha)
  · intro k hk
    by_cases hkid : k.rev = id
    · exact ⟨r, by simp, by rw [hrid, hkid], hedit k hk hkid⟩
    · obtain ⟨q, hq, hqid, hqe⟩ := h.inserted k (hold k hk hkid)
      exact ⟨q, by simp [hq], hqid, hqe⟩
  · intro pre q post heq
    rcases append_singleton_eq_append_cons heq with ⟨rfl, rfl, rfl⟩ | ⟨post', -, heq'⟩
    · rw [hself, hrid]
      have hcongr : ∀ k ∈ u', c k = extendEffect effect id c id k := fun k hk ↦ by
        by_cases hkid : k.rev = id
        · rw [extendEffect_own hkid, hc k hk hkid]
        · rw [extendEffect_self hkid]
      rw [Revision.Encodes] at henc ⊢
      cases hq : q.edit with
      | edit p g i d =>
        rw [hq] at henc
        exact ⟨henc.1, henc.2.trans (Subset.label_congr hcongr)⟩
      | undo t b =>
        rw [hq] at henc
        exact Eq.trans henc (Subset.label_congr hcongr)
    · have hmem : ∀ s ∈ pre ++ [q], s.revId ≠ id := fun s hs heqs ↦ hid (by
        rw [heq']
        refine List.mem_map.mpr ⟨s, ?_, heqs⟩
        simp only [List.mem_append, List.mem_cons] at hs ⊢
        tauto)
      have hpre : id ∉ (pre ++ [q]).map Revision.revId := by
        rintro hin
        obtain ⟨s, hs, hsid⟩ := List.mem_map.mp hin
        exact hmem s hs hsid
      rw [unionAt_extend hu hpre]
      have hcongr : ∀ k ∈ unionAt u (pre ++ [q]),
          effect q.revId k = extendEffect effect id c q.revId k := fun k hk ↦ by
        have hku := (mem_unionAt.mp hk).1
        rw [← hu, List.mem_filter] at hku
        rw [extendEffect_of_ne (by simpa using hku.2) (hmem q (by simp))]
      have henc' := h.encodes pre q post' heq'
      rw [Revision.Encodes] at henc' ⊢
      cases hq : q.edit with
      | edit p g i d =>
        rw [hq] at henc'
        exact ⟨henc'.1, henc'.2.trans (Subset.label_congr hcongr)⟩
      | undo t b =>
        rw [hq] at henc'
        exact Eq.trans henc' (Subset.label_congr hcongr)
  · intro pre q post heq k hk hknown
    by_cases hkid : k.rev = id
    · exact extendEffect_own hkid
    · rcases append_singleton_eq_append_cons heq with ⟨rfl, rfl, rfl⟩ | ⟨post', -, heq'⟩
      · -- every old atom is known to the old revisions
        obtain ⟨s, hs, hsid, -⟩ := h.inserted k (hold k hk hkid)
        rw [known, decide_eq_false_iff_not] at hknown
        exact absurd (List.mem_map.mpr ⟨s, hs, hsid⟩) hknown
      · have hne : q.revId ≠ id := fun heqq ↦ hid (by
          rw [heq']
          exact List.mem_map.mpr ⟨q, by simp, heqq⟩)
        rw [extendEffect_of_ne hkid hne]
        exact h.earlier pre q post' heq' k (hold k hk hkid) hknown

end History

theorem BoundsGroups.append {revs : List Revision} (h : BoundsGroups revs) {r : Revision}
    (hlast : ∀ q ∈ revs, ∀ g ∈ q.edit.group?, g ≤ r.maxUndoSoFar)
    (hr : ∀ g ∈ r.edit.group?, g ≤ r.maxUndoSoFar) : BoundsGroups (revs ++ [r]) := by
  intro pre s post heq q hq g hg
  rcases append_singleton_eq_append_cons heq with ⟨rfl, rfl, rfl⟩ | ⟨post', -, heq'⟩
  · rcases List.mem_append.mp hq with hq | hq
    · exact hlast q hq g hg
    · obtain rfl := List.mem_singleton.mp hq
      exact hr g hg
  · exact h pre s post' heq' q hq g hg

theorem BoundsGroups.le_getLast {revs : List Revision} (h : BoundsGroups revs) {r : Revision}
    (hr : revs.getLast? = some r) : ∀ q ∈ revs, ∀ g ∈ q.edit.group?, g ≤ r.maxUndoSoFar := by
  obtain ⟨pre, rfl⟩ := List.getLast?_eq_some_iff.mp hr
  exact fun q hq g hg ↦ h pre r [] rfl q hq g hg

end EeEditor
