import EeEditor.Engine.GcHead
import EeEditor.Engine.Immutable

/-!
# The contents of a saved revision

The contents of one revision `p`, saved when it was the head, along a run with collections. A
collection drops the undos between `p` and the head, so the walk back to `p` no longer restores
every revision on the way; `Engine.SavedAt` says what it still restores at `p` itself.
-/

namespace EeEditor

variable {α : Type}

/-! ## The walk backwards, one atom at a time -/

section

variable {effect effect' : RevId → Atom α → ℕ} {c c' : Atom α → ℕ} {w w' : Finset ℕ}

theorem invertAll_snd (effect : RevId → Atom α → ℕ) (c : Atom α → ℕ) (w : Finset ℕ)
    (revs : List Revision) : (invertAll effect true revs (c, w)).2 = undoneBefore w revs := by
  induction revs with
  | nil => rfl
  | cons r revs ih =>
    rw [History.undoneBefore_cons, ← ih]
    change (invert effect true r (invertAll effect true revs (c, w))).2 = _
    cases hr : r.edit with
    | edit p gr i d =>
      rw [undoneBefore_edit _ (by rw [hr]; rfl), invert, hr]
      dsimp only
      split <;> rfl
    | undo t b =>
      rw [undoneBefore_undo _ hr, invert, hr]
      rfl

/-- Inverting an edit subtracts its effect, if it is done. -/
theorem invert_edit_fst {r : Revision} {p gr : ℕ} {i d : Subset} (hr : r.edit = .edit p gr i d)
    (k : Atom α) :
    (invert effect true r (c, w)).1 k = c k - if gr ∈ w then 0 else effect r.revId k := by
  rw [invert, hr]
  dsimp only
  split <;> rfl

/-- The count of an atom only depends on the effects on it. -/
theorem invertAll_fst_congr {k : Atom α} (hc : c k = c' k) {revs : List Revision}
    (heff : ∀ r ∈ revs, effect r.revId k = effect' r.revId k) :
    (invertAll effect true revs (c, w)).1 k = (invertAll effect' true revs (c', w)).1 k := by
  induction revs with
  | nil => exact hc
  | cons r revs ih =>
    have ih' := ih fun s hs ↦ heff s (by simp [hs])
    have hr := heff r (by simp)
    have hw : (invertAll effect true revs (c, w)).2 = (invertAll effect' true revs (c', w)).2 := by
      rw [invertAll_snd, invertAll_snd]
    change (invert effect true r (invertAll effect true revs (c, w))).1 k
      = (invert effect' true r (invertAll effect' true revs (c', w))).1 k
    rw [invert, invert]
    cases hed : r.edit with
    | edit p gr i d =>
      dsimp only
      rw [hw]
      split
      · exact ih'
      · dsimp only
        rw [ih', hr]
    | undo t b =>
      dsimp only
      rw [if_pos rfl, if_pos rfl]
      dsimp only
      rw [ih', hr]

/-- Groups without edits do not matter. -/
theorem invertAll_fst_congr_groups {revs : List Revision}
    (h : ∀ r ∈ revs, ∀ gr ∈ r.edit.group?, gr ∉ symmDiff w w') :
    (invertAll effect true revs (c, w)).1 = (invertAll effect true revs (c, w')).1 := by
  induction revs with
  | nil => rfl
  | cons r revs ih =>
    have ih' := ih fun s hs ↦ h s (by simp [hs])
    change (invert effect true r (invertAll effect true revs (c, w))).1
      = (invert effect true r (invertAll effect true revs (c, w'))).1
    rw [invert, invert]
    cases hed : r.edit with
    | edit p gr i d =>
      have hgr := h r (by simp) gr (by rw [hed]; rfl)
      rw [← symmDiff_undoneBefore w w' revs, Finset.mem_symmDiff] at hgr
      dsimp only
      rw [invertAll_snd, invertAll_snd, ih']
      by_cases hw : gr ∈ undoneBefore w revs
      · have hw' : gr ∈ undoneBefore w' revs := by tauto
        rw [if_pos hw, if_pos hw', ih']
      · have hw' : gr ∉ undoneBefore w' revs := by tauto
        rw [if_neg hw, if_neg hw']
    | undo t b =>
      dsimp only
      rw [if_pos rfl, if_pos rfl]
      dsimp only
      rw [ih']

/-- Without undos there is nothing to invert but edits. -/
theorem invertAll_edits {revs : List Revision} (h : ∀ r ∈ revs, r.edit.isEdit = true)
    (st : (Atom α → ℕ) × Finset ℕ) :
    invertAll effect true revs st = invertAll effect false revs st := by
  induction revs with
  | nil => rfl
  | cons r revs ih =>
    have ih' := ih fun s hs ↦ h s (by simp [hs])
    have hr := h r (by simp)
    change invert effect true r (invertAll effect true revs st)
      = invert effect false r (invertAll effect false revs st)
    rw [ih', invert, invert]
    cases hed : r.edit with
    | edit p gr i d => rfl
    | undo t b => rw [hed] at hr; cases hr

end

/-- The groups that the undos among `revs` toggle. -/
theorem undoneBefore_eq_symmDiff (w : Finset ℕ) (revs : List Revision) :
    undoneBefore w revs = symmDiff w (undoneBefore ∅ revs) := by
  have h := symmDiff_undoneBefore w ∅ revs
  rw [← Finset.bot_eq_empty, symmDiff_bot] at h
  calc undoneBefore w revs
      = symmDiff (symmDiff (undoneBefore w revs) (undoneBefore ⊥ revs)) (undoneBefore ⊥ revs) :=
        (symmDiff_symmDiff_cancel_right _ _).symm
    _ = symmDiff w (undoneBefore ∅ revs) := by rw [h, Finset.bot_eq_empty]

theorem undoneBefore_edits {revs : List Revision} (h : ∀ r ∈ revs, r.edit.isEdit = true)
    (w : Finset ℕ) : undoneBefore w revs = w := by
  induction revs with
  | nil => rfl
  | cons r revs ih =>
    rw [History.undoneBefore_cons, undoneBefore_edit _ (h r (by simp)),
      ih fun s hs ↦ h s (by simp [hs])]

/-- A revision ID splits a history in only one way. -/
theorem append_cons_inj_of_nodup {revs pre pre' post post' : List Revision} {r r' : Revision}
    (hids : (revs.map Revision.revId).Nodup) (h : revs = pre ++ r :: post)
    (h' : revs = pre' ++ r' :: post') (hid : r.revId = r'.revId) :
    pre = pre' ∧ r = r' ∧ post = post' := by
  have heq : r = r' := List.inj_on_of_nodup_map hids (by simp [h]) (by simp [h']) hid
  subst heq
  have hnodup : revs.Nodup := hids.of_map _
  rw [h, List.nodup_append, List.nodup_cons] at hnodup
  have hnot : r ∉ pre := fun hmem ↦ hnodup.2.2 r hmem r (by simp) rfl
  exact (List.append_cons_inj_of_notMem hnot hnodup.2.1.1).mp (h.symm.trans h')

namespace Engine

variable {e e' : Engine α} {g g' : Ledger α} {p : RevId} {saved : List α}

/-- The walk back to the revision `p`, if it is still there, restores the text `saved`: it leads to
the replay of the revisions up to `p`, and an undo at the head is recorded truly. -/
structure SavedAt (e : Engine α) (g : Ledger α) (p : RevId) (saved : List α) : Prop where
  exact : Exact e g
  /-- The revision ID is not used again. -/
  fresh : p.sessionId = e.session → p.num < e.revIdCounter
  walk : ∀ pre r post, e.revs = pre ++ r :: post → r.revId = p →
    (∀ k ∈ unionAt g.atoms (pre ++ [r]),
      (invertAll g.effect true post (g.count, e.undoneGroups)).1 k
        = replay g.effect (undoneBefore e.undoneGroups post) (pre ++ [r]) k) ∧
    visible (unionAt g.atoms (pre ++ [r]))
      (replay g.effect (undoneBefore e.undoneGroups post) (pre ++ [r])) = saved
  head : ∀ pre r mid l t b, e.revs = pre ++ r :: (mid ++ [l]) → r.revId = p → l.edit = .undo t b →
    ∀ k ∈ g.atoms, g.count k ^^^ g.effect l.revId k
      = replay g.effect (symmDiff e.undoneGroups t) e.revs k

/-- The head has just been saved. -/
theorem Exact.savedAt (h : Exact e g) (hhead : e.getHeadRevId = some p) :
    SavedAt e g p e.text := by
  obtain ⟨last, hlast, hid⟩ := Option.map_eq_some_iff.mp hhead
  obtain ⟨init, hrevs⟩ := List.getLast?_eq_some_iff.mp hlast
  have hpost : ∀ pre r post, e.revs = pre ++ r :: post → r.revId = p →
      pre ++ [r] = e.revs ∧ post = [] := by
    intro pre r post hsplit hr
    obtain ⟨rfl, rfl, rfl⟩ := append_cons_inj_of_nodup h.represents.history.ids hsplit hrevs
      (by rw [hr, hid])
    exact ⟨hrevs.symm, rfl⟩
  refine ⟨h, ?_, ?_, ?_⟩
  · rw [← hid]
    exact h.represents.fresh last (List.mem_of_getLast? hlast)
  · intro pre r post hsplit hr
    obtain ⟨hpre, rfl⟩ := hpost pre r post hsplit hr
    rw [hpre, h.represents.history.unionAt_self]
    refine ⟨h.count, ?_⟩
    rw [h.represents.text]
    exact visible_congr fun k hk ↦ (h.count k hk).symm
  · intro pre r mid l t b hsplit hr
    obtain ⟨-, hnil⟩ := hpost pre r _ hsplit hr
    simp at hnil

/-- The contents of the saved revision, as the walk finds them. -/
theorem SavedAt.visible_eq (h : SavedAt e g p saved) {pre post : List Revision} {r : Revision}
    (hrevs : e.revs = pre ++ r :: post) (hr : r.revId = p) :
    visible g.atoms (Represents.pastCount e g (pre ++ [r]) post) = saved := by
  obtain ⟨hval, hsaved⟩ := h.walk pre r post hrevs hr
  rw [Represents.visible_pastCount, ← hsaved]
  exact visible_congr hval

/-! ## Steps -/

/-- One more revision, which the walk inverts. -/
theorem SavedAt.extend (h : SavedAt e g p saved) {q : Revision} {c : Atom α → ℕ}
    (hex : Exact e' g') (hrevs : e'.revs = e.revs ++ [q]) (hqid : q.revId = e.nextRevId)
    (hsession : e'.session = e.session) (hcounter : e'.revIdCounter = e.revIdCounter + 1)
    (heff : g'.effect = extendEffect g.effect e.nextRevId c)
    (hold : (g'.atoms.filter fun k ↦ !isOwn e.nextRevId k) = g.atoms)
    (hw : undoneBefore e'.undoneGroups [q] = e.undoneGroups)
    (hinv : ∀ k ∈ g.atoms, (invert g'.effect true q (g'.count, e'.undoneGroups)).1 k = g.count k)
    (hhead : ∀ t b, q.edit = .undo t b → ∀ k ∈ g'.atoms, g'.count k ^^^ g'.effect q.revId k
      = replay g'.effect (symmDiff e'.undoneGroups t) e'.revs k) : SavedAt e' g' p saved := by
  have hrep := h.exact.represents
  have hne : p ≠ e.nextRevId := fun heq ↦ by
    have := h.fresh (by rw [heq]; rfl)
    rw [heq] at this
    exact lt_irrefl _ this
  refine ⟨hex, ?_, ?_, ?_⟩
  · rw [hsession, hcounter]
    exact fun hs ↦ Nat.lt_succ_of_lt (h.fresh hs)
  · intro pre r post hsplit hr
    rw [hrevs] at hsplit
    rcases append_singleton_eq_append_cons hsplit with ⟨-, rfl, -⟩ | ⟨post', rfl, hsplit'⟩
    · exact absurd (hr.symm.trans hqid) hne
    · have hid : e.nextRevId ∉ (pre ++ [r]).map Revision.revId := fun hin ↦
        hrep.nextRevId_not_mem (by
          rw [hsplit', show pre ++ r :: post' = pre ++ [r] ++ post' by simp, List.map_append]
          exact List.mem_append_left _ hin)
      have hunion := History.unionAt_extend hold hid
      have hkne : ∀ k ∈ unionAt g.atoms (pre ++ [r]), k.rev ≠ e.nextRevId := fun k hk ↦
        of_decide_eq_false (hrep.history.isOwn_eq_false hrep.nextRevId_not_mem
          (mem_unionAt.mp hk).1)
      have hreplay : ∀ k ∈ unionAt g.atoms (pre ++ [r]), ∀ w,
          replay g'.effect w (pre ++ [r]) k = replay g.effect w (pre ++ [r]) k := fun k hk w ↦ by
        rw [heff, replay_extendEffect hid w (hkne k hk)]
      obtain ⟨hval, hsaved⟩ := h.walk pre r post' hsplit' hr
      rw [hunion, undoneBefore_append, hw]
      refine ⟨fun k hk ↦ ?_, ?_⟩
      · rw [hreplay k hk, ← hval k hk, invertAll_append, invertAll_singleton]
        have hpair : invert g'.effect true q (g'.count, e'.undoneGroups)
            = ((invert g'.effect true q (g'.count, e'.undoneGroups)).1, e.undoneGroups) :=
          Prod.ext rfl ((invertAll_snd g'.effect g'.count e'.undoneGroups [q]).trans hw)
        rw [hpair]
        refine invertAll_fst_congr (hinv k (mem_unionAt.mp hk).1) fun s hs ↦ ?_
        have hsne : s.revId ≠ e.nextRevId := fun heq ↦ hrep.nextRevId_not_mem (by
          rw [hsplit']
          exact List.mem_map.mpr ⟨s, by simp [hs], heq⟩)
        rw [heff, extendEffect_of_ne (hkne k hk) hsne]
      · rw [← hsaved]
        exact visible_congr fun k hk ↦ hreplay k hk _
  · intro pre r mid l t b hsplit hr hl
    have hsplit' : e.revs ++ [q] = (pre ++ r :: mid) ++ [l] := by
      rw [← hrevs, hsplit]
      simp
    obtain ⟨-, hlq⟩ := List.append_inj' hsplit' rfl
    obtain rfl := (List.cons.inj hlq).1
    exact hhead t b hl

theorem SavedAt.edited (h : SavedAt e g p saved) {priority undoGroup : ℕ} {d : Delta α}
    {pre post : List Revision} {u' : List (Atom α)}
    (hed : Edited e g priority undoGroup d pre post u' e') :
    ∃ g', SavedAt e' g' p saved := by
  rcases h.exact.edited hed with rfl | ⟨headMax, rfl, hex⟩
  · exact ⟨g, h⟩
  · refine ⟨_, h.extend hex rfl rfl rfl rfl rfl hed.old (undoneBefore_edit _ rfl) (fun k hk ↦ ?_)
      fun t b hedit ↦ by cases hedit⟩
    have hrep := h.exact.represents
    have hne : k.rev ≠ e.nextRevId := of_decide_eq_false
      (hrep.history.isOwn_eq_false hrep.nextRevId_not_mem hk)
    have hcount : (editedLedger e g undoGroup u' (deletedBy d (baseAtoms e g pre post))).count k
        = g.count k + if undoGroup ∈ e.undoneGroups then 0
          else deletedBy d (baseAtoms e g pre post) k := editCount_old hne
    have heff : (editedLedger e g undoGroup u' (deletedBy d (baseAtoms e g pre post))).effect
        e.nextRevId k = deletedBy d (baseAtoms e g pre post) k := extendEffect_self hne
    refine (invert_edit_fst rfl k).trans ?_
    change _ - (if undoGroup ∈ e.undoneGroups then 0 else _) = _
    rw [hcount, heff]
    split <;> omega

/-- An undo that changes the deletions, or toggles no group of an edit. -/
theorem SavedAt.undo (h : SavedAt e g p saved) {groups : Finset ℕ} (hhonest : Honest e groups)
    (hok : e.undo groups = some e') : ∃ g', SavedAt e' g' p saved := by
  have hrep := h.exact.represents
  rcases h.exact.undo_cases groups with ⟨hsame, hundo, hex⟩ | ⟨-, headMax, -, hundo, hex⟩
  · rw [hok] at hundo
    obtain rfl := Option.some.inj hundo
    have hirrelevant : ∀ r ∈ e.revs, ∀ gr ∈ r.edit.group?, gr ∉ symmDiff groups e.undoneGroups := by
      rw [symmDiff_comm]
      refine hhonest.resolve_left fun hne ↦ hne ?_
      rw [hrep.deletesFromUnionForUndoneGroups_eq, hrep.dels]
      exact congrArg some (Subset.label_congr fun k hk ↦ (hsame k hk).symm)
    have hreplay : ∀ revs post, (∀ r ∈ revs, r ∈ e.revs) → ∀ k,
        replay g.effect (undoneBefore groups post) revs k
          = replay g.effect (undoneBefore e.undoneGroups post) revs k := by
      intro revs post hsub k
      refine replay_congr (fun r hr gr hgr ↦ ?_) k
      have hnot := hirrelevant r (hsub r hr) gr hgr
      rw [← symmDiff_undoneBefore groups e.undoneGroups post, Finset.mem_symmDiff] at hnot
      tauto
    refine ⟨g, hex, h.fresh, fun pre r post hsplit hr ↦ ?_,
      fun pre r mid l t b hsplit hr hl k hk ↦ ?_⟩
    · have hsplit' : e.revs = pre ++ r :: post := hsplit
      have hsub : ∀ s ∈ pre ++ [r], s ∈ e.revs := fun s hs ↦ by
        rw [hsplit']
        simp only [List.mem_append, List.mem_cons] at hs ⊢
        tauto
      obtain ⟨hval, hsaved⟩ := h.walk pre r post hsplit' hr
      dsimp only
      rw [invertAll_fst_congr_groups fun s hs ↦ hirrelevant s (by rw [hsplit']; simp [hs])]
      refine ⟨fun k hk ↦ by rw [hreplay _ _ hsub, hval k hk], ?_⟩
      rw [← hsaved]
      exact visible_congr fun k _ ↦ hreplay _ _ hsub k
    · rw [h.head pre r mid l t b hsplit hr hl k hk]
      have := hreplay e.revs [l] (fun _ hs ↦ hs) k
      rw [undoneBefore_undo _ hl, undoneBefore_undo _ hl] at this
      exact this.symm
  · rw [hok] at hundo
    obtain rfl := Option.some.inj hundo
    have hback : symmDiff groups (symmDiff e.undoneGroups groups) = e.undoneGroups := by
      rw [symmDiff_comm e.undoneGroups, symmDiff_symmDiff_cancel_left]
    have hne : ∀ k ∈ g.atoms, k.rev ≠ e.nextRevId := fun k hk ↦ of_decide_eq_false
      (hrep.history.isOwn_eq_false hrep.nextRevId_not_mem hk)
    have hself : ∀ k ∈ g.atoms, (undoneLedger e g (replay g.effect groups e.revs)).effect
        e.nextRevId k = g.count k ^^^ replay g.effect groups e.revs k := fun k hk ↦ by
      simp only [undoneLedger, extendEffect_self (hne k hk)]
    have hxor : ∀ k ∈ g.atoms, replay g.effect groups e.revs k
        ^^^ (undoneLedger e g (replay g.effect groups e.revs)).effect e.nextRevId k
        = g.count k := fun k hk ↦ by
      rw [hself k hk, Nat.xor_comm (g.count k), ← Nat.xor_assoc, Nat.xor_self, Nat.zero_xor]
    refine ⟨_, h.extend hex rfl rfl rfl rfl rfl (List.filter_eq_self.mpr fun k hk ↦ ?_)
      ((undoneBefore_undo groups rfl).trans hback) (fun k hk ↦ ?_) fun t b hedit k hk ↦ ?_⟩
    · simp [isOwn, hne k hk]
    · rw [invert]
      dsimp only [undoneEngine]
      rw [if_pos rfl]
      exact hxor k hk
    · obtain ⟨rfl, -⟩ := Contents.undo.inj hedit
      change replay g.effect groups e.revs k ^^^ _ = _
      rw [hxor k hk, replay_undone hrep groups _ headMax _ hk, h.exact.count k hk]
      change _ = replay g.effect (symmDiff groups (symmDiff e.undoneGroups groups)) e.revs k
      rw [hback]

/-! ## Collections -/

/-- What a collection must not do to the revision `r` between `pre` and `mid ++ [l]`. -/
structure KeepsSavedAt (e : Engine α) (gcGroups : Finset ℕ) (pre : List Revision) (r : Revision)
    (mid : List Revision) (l : Revision) : Prop where
  /-- The undos that are dropped toggle no group of an edit up to `r`. -/
  toggles : ∀ q ∈ pre ++ [r], ∀ gr ∈ q.edit.group?, gr ∉ undoneBefore ∅ mid
  /-- An undo at the head toggles no collected group of an edit. -/
  head : ∀ t b, l.edit = .undo t b → ∀ q ∈ e.revs, ∀ gr ∈ q.edit.group?, gr ∈ gcGroups → gr ∉ t
  /-- The characters that are collected are deleted at `r`. -/
  chars : ∀ g, e.Represents g → ∀ k ∈ g.atoms, Collected e g gcGroups k →
    Represents.pastCount e g (pre ++ [r]) (mid ++ [l]) k ≠ 0

/-- The collection drops no done edit at the head, and keeps what the walk back to `p` needs. -/
structure GcKeepsSaved (e : Engine α) (p : RevId) (gcGroups : Finset ℕ) : Prop where
  head : ∀ r, e.revs.getLast? = some r → ∀ priority undoGroup inserts deletes,
    r.edit = .edit priority undoGroup inserts deletes → undoGroup ∈ gcGroups →
    inserts.isEmpty = true → undoGroup ∈ e.undoneGroups
  saved : ∀ pre r mid l, e.revs = pre ++ r :: (mid ++ [l]) → r.revId = p →
    KeepsSavedAt e gcGroups pre r mid l

variable {gcGroups : Finset ℕ}

theorem GcKeepsSaved.lostCount_eq_zero (h : GcKeepsSaved e p gcGroups) (k : Atom α) :
    lostCount e g gcGroups k = 0 := by
  rw [lostCount]
  split
  · next id m p gr i d hlast =>
    rw [if_neg]
    rintro ⟨hg, hnot, hi⟩
    exact hnot (h.head _ hlast p gr i d rfl hg hi)
  · rfl

/-- Between the first and the last revision only edits are left. -/
theorem Represents.isEdit_of_survivors (h : e.Represents g) {pre mid : List Revision}
    {l : Revision} (hrevs : e.revs = pre ++ mid ++ [l]) (hpre : pre ≠ []) {u : List (Atom α)} :
    ∀ r ∈ survivors g.effect gcGroups e.retainRevs u pre mid, r.edit.isEdit = true := by
  intro r' hr'
  obtain ⟨mid₁, r, post, hmid, hr⟩ := mem_survivors hr'
  rw [(shrinkRevision_eq_some hr).2.2.2.1]
  by_contra hnot
  cases hed : r.edit with
  | edit p gr i d => rw [hed] at hnot; exact hnot rfl
  | undo t b =>
    rw [shrinkRevision, hed] at hr
    simp only [Option.ite_none_right_eq_some] at hr
    -- an undo is only left when it is the first or the last revision
    obtain ⟨first, rest, rfl⟩ := List.exists_cons_of_ne_nil hpre
    have hids := h.history.ids
    have hnodup : ((first :: rest) ++ mid ++ [l]).Nodup := hrevs ▸ hids.of_map _
    have hmem : r ∈ mid := by simp [hmid]
    have hret := hr.1
    rw [retainRevs, hrevs, List.getLast?_concat] at hret
    simp only [List.cons_append, List.head?_cons, Option.map_some, Option.toList_some,
      List.nil_append, List.mem_cons, List.not_mem_nil, or_false] at hret
    rcases hret with hret | hret
    · have heq : r = first := List.inj_on_of_nodup_map hids (by rw [hrevs]; simp [hmem])
        (by rw [hrevs]; simp) hret
      exact (List.nodup_append.mp (List.nodup_append.mp hnodup).1).2.2 first (by simp) r hmem
        heq.symm
    · have heq : r = l := List.inj_on_of_nodup_map hids (by rw [hrevs]; simp [hmem])
        (by rw [hrevs]; simp) hret
      exact (List.nodup_append.mp hnodup).2.2 r (by simp [hmem]) l (by simp) heq

/-- The groups undone before the head, as they are left by a collection. -/
def leftUndone (e : Engine α) (gcGroups : Finset ℕ) (l : Revision) : Finset ℕ :=
  match l.edit with
  | .edit .. => e.undoneGroups
  | .undo t _ => symmDiff e.undoneGroups (t \ gcGroups)

theorem leftUndone_agrees (e : Engine α) (gcGroups : Finset ℕ) (l : Revision) {gr : ℕ}
    (hgr : gr ∈ gcGroups) : gr ∈ leftUndone e gcGroups l ↔ gr ∈ e.undoneGroups := by
  rw [leftUndone]
  split
  · rfl
  · simp [Finset.mem_symmDiff, hgr]

section

variable {pre mid : List Revision} {r l : Revision}

/-- For the edits up to `r` it makes no difference which undos are dropped. -/
theorem KeepsSavedAt.mem_undoneBefore_iff (h : KeepsSavedAt e gcGroups pre r mid l)
    (hrevs : e.revs = pre ++ r :: (mid ++ [l])) {q : Revision} (hq : q ∈ pre ++ [r]) {gr : ℕ}
    (hgr : gr ∈ q.edit.group?) :
    gr ∈ undoneBefore e.undoneGroups (mid ++ [l]) ↔ gr ∈ leftUndone e gcGroups l := by
  have hnet := h.toggles q hq gr hgr
  have hmem : q ∈ e.revs := by
    rw [hrevs]
    simp only [List.mem_append, List.mem_cons, List.not_mem_nil, or_false] at hq ⊢
    tauto
  rw [undoneBefore_append, undoneBefore_eq_symmDiff, Finset.mem_symmDiff]
  cases hed : l.edit with
  | edit p gr' i d =>
    rw [undoneBefore_edit _ (by rw [hed]; rfl), leftUndone, hed]
    tauto
  | undo t b =>
    have hhead := h.head t b hed q hmem gr hgr
    rw [undoneBefore_undo _ hed, leftUndone, hed]
    simp only [Finset.mem_symmDiff, Finset.mem_sdiff]
    tauto

/-- What the edits up to `r` replay to after the collection. -/
theorem SavedAt.replay_prefix (h : SavedAt e g p saved) (hrevs : e.revs = pre ++ r :: (mid ++ [l]))
    {k : Atom α} (hk : k ∈ (collectedLedger e g gcGroups).atoms) :
    replay g.effect (leftUndone e gcGroups l) (survivors g.effect gcGroups e.retainRevs
      (collectedLedger e g gcGroups).atoms [] (pre ++ [r])) k
      = replay g.effect (leftUndone e gcGroups l) (pre ++ [r]) k := by
  have hrevs' : e.revs = (pre ++ r :: mid) ++ [l] := by rw [hrevs]; simp
  refine replay_survivors fun mid₁ q post hsplit hq ↦ ?_
  have hpre : pre ++ r :: mid = mid₁ ++ q :: (post ++ mid) := by
    rw [show pre ++ r :: mid = pre ++ [r] ++ mid by simp, hsplit]
    simp
  exact h.exact.represents.contribution_dropped hrevs' (fun gr hgr ↦ leftUndone_agrees e _ l hgr)
    hk hpre (by simpa using hq)

/-- An undo at the head is still recorded truly. -/
theorem SavedAt.head_collected (h : SavedAt e g p saved) (hkeeps : GcKeepsSaved e p gcGroups)
    (hrevs : e.revs = pre ++ r :: (mid ++ [l])) (hr : r.revId = p) {t : Finset ℕ} {b : Subset}
    (hl : l.edit = .undo t b) {k : Atom α} (hk : k ∈ (collectedLedger e g gcGroups).atoms) :
    g.count k ^^^ g.effect l.revId k
      = replay g.effect (symmDiff e.undoneGroups (t \ gcGroups)) (collectedRevs e g gcGroups)
        k := by
  have hw : leftUndone e gcGroups l = symmDiff e.undoneGroups (t \ gcGroups) := by
    rw [leftUndone, hl]
  have hcol := h.exact.represents.replay_collected (w := leftUndone e gcGroups l)
    (fun gr hgr ↦ leftUndone_agrees e gcGroups l hgr) hk
  rw [hkeeps.lostCount_eq_zero, Nat.add_zero, hw] at hcol
  rw [h.head pre r mid l t b hrevs hr hl k (mem_collectedLedger.mp hk).1, ← hcol]
  refine replay_congr (fun q hq gr hgr ↦ ?_) k
  have hnot := (hkeeps.saved pre r mid l hrevs hr).head t b hl q hq gr hgr
  simp only [Finset.mem_symmDiff, Finset.mem_sdiff]
  tauto

/-- The walk back to `r` after a collection. -/
theorem SavedAt.walk_collected (h : SavedAt e g p saved) (hkeeps : GcKeepsSaved e p gcGroups)
    (hex : Exact (collectedEngine e g gcGroups) (collectedLedger e g gcGroups))
    (hrevs : e.revs = pre ++ r :: (mid ++ [l])) (hr : r.revId = p)
    (hw : (collectedEngine e g gcGroups).undoneGroups = e.undoneGroups)
    {pre' post' : List Revision}
    (hpre' : pre' = survivors g.effect gcGroups e.retainRevs (collectedLedger e g gcGroups).atoms
      [] (pre ++ [r]))
    (hpost' : post' = survivors g.effect gcGroups e.retainRevs
      (collectedLedger e g gcGroups).atoms (pre ++ [r]) (mid ++ [l])) :
    undoneBefore e.undoneGroups post' = leftUndone e gcGroups l ∧
      ∀ k ∈ unionAt (collectedLedger e g gcGroups).atoms pre',
        (invertAll g.effect true post' (g.count, e.undoneGroups)).1 k
          = replay g.effect (leftUndone e gcGroups l) pre' k := by
  have hrep := h.exact.represents
  have hsplit : collectedRevs e g gcGroups = pre' ++ post' := by
    rw [collectedRevs, hrevs, show pre ++ r :: (mid ++ [l]) = pre ++ [r] ++ (mid ++ [l]) by simp,
      survivors_append, List.nil_append, hpre', hpost']
  have hh : History (collectedLedger e g gcGroups).atoms g.effect (pre' ++ post' ++ []) := by
    rw [List.append_nil, ← hsplit]
    exact hrep.collectedHistory gcGroups
  have hrevs' : e.revs = pre ++ [r] ++ mid ++ [l] := by rw [hrevs]; simp
  have hmid : ∀ q ∈ survivors g.effect gcGroups e.retainRevs (collectedLedger e g gcGroups).atoms
      (pre ++ [r]) mid, q.edit.isEdit = true := hrep.isEdit_of_survivors hrevs' (by simp)
    (u := (collectedLedger e g gcGroups).atoms)
  have hpost : post' = survivors g.effect gcGroups e.retainRevs
      (collectedLedger e g gcGroups).atoms (pre ++ [r]) mid
        ++ (shrinkRevision g.effect gcGroups e.retainRevs
          (unionAt (collectedLedger e g gcGroups).atoms (pre ++ [r] ++ mid ++ [l])) l).toList := by
    rw [hpost', survivors_append, survivors, survivors, List.append_nil]
  cases hl : l.edit with
  | edit p' gr i d =>
    -- only edits are left behind `r`
    have hedits : ∀ q ∈ post', q.edit.isEdit = true := by
      intro q hq
      rw [hpost] at hq
      rcases List.mem_append.mp hq with hq | hq
      · exact hmid q hq
      · rw [Option.mem_toList] at hq
        rw [(shrinkRevision_eq_some hq).2.2.2.1, hl]
        rfl
    have hleft : leftUndone e gcGroups l = e.undoneGroups := by rw [leftUndone, hl]
    refine ⟨by rw [undoneBefore_edits hedits, hleft], ?_⟩
    rw [invertAll_edits hedits, hleft]
    refine (hh.invertAll_false fun k hk ↦ ?_).2.2
    have hcount := hex.count k (mem_unionAt.mp hk).1
    rw [hw] at hcount
    rw [← replay_append, ← hsplit]
    exact hcount
  | undo t b =>
    -- the undo at the head is left
    have hret : l.revId ∈ e.retainRevs := by
      rw [retainRevs, hrevs', List.getLast?_concat]
      simp
    have hleft : leftUndone e gcGroups l = symmDiff e.undoneGroups (t \ gcGroups) := by
      rw [leftUndone, hl]
    obtain ⟨l', hl', hedit'⟩ : ∃ l', shrinkRevision g.effect gcGroups e.retainRevs
        (unionAt (collectedLedger e g gcGroups).atoms (pre ++ [r] ++ mid ++ [l])) l = some l' ∧
        ∃ b', l'.edit = .undo (t \ gcGroups) b' := by
      rw [shrinkRevision, hl]
      dsimp only
      rw [if_pos hret]
      exact ⟨_, rfl, _, rfl⟩
    obtain ⟨b', hedit'⟩ := hedit'
    rw [hl', Option.toList_some] at hpost
    have hinv : invert g.effect true l' (g.count, e.undoneGroups)
        = (fun k ↦ g.count k ^^^ g.effect l.revId k, leftUndone e gcGroups l) := by
      rw [invert, hedit']
      dsimp only
      rw [if_pos rfl, (shrinkRevision_eq_some hl').1, hleft]
    rw [hpost, undoneBefore_append, undoneBefore_undo _ hedit', undoneBefore_edits hmid,
      invertAll_append,
      invertAll_singleton, hinv, invertAll_edits hmid]
    refine ⟨hleft.symm, ?_⟩
    rw [hpost] at hh
    have hh' : History (collectedLedger e g gcGroups).atoms g.effect (pre'
        ++ survivors g.effect gcGroups e.retainRevs (collectedLedger e g gcGroups).atoms
          (pre ++ [r]) mid ++ [l']) := by simpa using hh
    refine (hh'.invertAll_false fun k hk ↦ ?_).2.2
    have hhead := h.head_collected hkeeps hrevs hr hl (mem_unionAt.mp hk).1
    rw [hhead, ← hleft, hsplit, hpost, ← List.append_assoc, replay_append, replay_singleton,
      contribution, hedit', Nat.add_zero, replay_append]

/-- The text at `r` after a collection. -/
theorem SavedAt.visible_collected (h : SavedAt e g p saved) (hkeeps : GcKeepsSaved e p gcGroups)
    (hrevs : e.revs = pre ++ r :: (mid ++ [l])) (hr : r.revId = p) :
    visible (unionAt (collectedLedger e g gcGroups).atoms (pre ++ [r]))
      (replay g.effect (leftUndone e gcGroups l) (pre ++ [r])) = saved := by
  have hsaved := hkeeps.saved pre r mid l hrevs hr
  obtain ⟨hval, rfl⟩ := h.walk pre r _ hrevs hr
  have hreplay : ∀ k, replay g.effect (undoneBefore e.undoneGroups (mid ++ [l])) (pre ++ [r]) k
      = replay g.effect (leftUndone e gcGroups l) (pre ++ [r]) k := fun k ↦
    replay_congr (fun q hq gr hgr ↦ hsaved.mem_undoneBefore_iff hrevs hq hgr) k
  rw [visible, visible, unionAt, unionAt, collectedLedger, List.filter_filter, List.filter_filter,
    List.filter_filter]
  congr 1
  refine List.filter_congr fun k hk ↦ ?_
  rw [hreplay k]
  cases hknown : known (pre ++ [r]) k with
  | false => simp
  | true =>
    by_cases hc : collectCount e g gcGroups k = 0
    · simp [hc]
    · -- what is collected was deleted
      have hpast := hsaved.chars g h.exact.represents k hk
        (h.exact.represents.collected_iff.mpr hc)
      rw [Represents.pastCount, hknown, if_pos rfl, hval k (mem_unionAt.mpr ⟨hk, hknown⟩),
        hreplay k] at hpast
      simp only [hc, hpast, decide_false, Bool.and_false, Bool.false_and]

end

/-- A collection that keeps what the walk back to `p` needs. -/
theorem SavedAt.collected (h : SavedAt e g p saved) (hkeeps : GcKeepsSaved e p gcGroups) :
    e.gc gcGroups = some (collectedEngine e g gcGroups) ∧
      SavedAt (collectedEngine e g gcGroups) (collectedLedger e g gcGroups) p saved := by
  have hrep := h.exact.represents
  obtain ⟨hgc, hacc⟩ := h.exact.accounted.gc_eq gcGroups
  have hex : Exact (collectedEngine e g gcGroups) (collectedLedger e g gcGroups) :=
    ⟨hacc.represents, fun k hk ↦ by
      have := hacc.count k hk
      rwa [hkeeps.lostCount_eq_zero, Nat.zero_add, Nat.add_zero] at this⟩
  refine ⟨hgc, hex, h.fresh, ?_, ?_⟩
  · intro pre' r' post' hsplit' hr'
    obtain ⟨pre, r, post, hsplit, hshrink, rfl, rfl⟩ := survivors_eq_append_cons hsplit'
    rw [List.nil_append] at hshrink
    have hr : r.revId = p := by rw [← (shrinkRevision_eq_some hshrink).1, hr']
    have hpre : survivors g.effect gcGroups e.retainRevs (collectedLedger e g gcGroups).atoms []
        pre ++ [r'] = survivors g.effect gcGroups e.retainRevs
          (collectedLedger e g gcGroups).atoms [] (pre ++ [r]) := by
      rw [survivors_append, survivors, survivors, List.nil_append, hshrink]
      rfl
    have hh : History g.atoms g.effect (pre ++ [r] ++ post) := by
      have := hrep.history
      rw [hsplit] at this
      simpa using this
    have hunion := hh.unionAt_survivors gcGroups e.retainRevs
      fun k (hk : k ∈ (collectedLedger e g gcGroups).atoms) ↦ (mem_collectedLedger.mp hk).1
    rw [hpre, List.nil_append]
    rcases List.eq_nil_or_concat post with rfl | ⟨mid, l, rfl⟩
    · -- `p` is the head
      have hrevs : e.revs = pre ++ [r] := hsplit
      have hall : survivors g.effect gcGroups e.retainRevs (collectedLedger e g gcGroups).atoms
          [] (pre ++ [r]) = (collectedEngine e g gcGroups).revs := by rw [← hrevs]; rfl
      obtain ⟨-, rfl⟩ := h.walk pre r [] hsplit hr
      rw [hall, hex.represents.history.unionAt_self]
      refine ⟨hex.count, ?_⟩
      rw [← hrevs, hrep.history.unionAt_self]
      calc visible (collectedLedger e g gcGroups).atoms _
          = (collectedEngine e g gcGroups).text := by
            rw [hex.represents.text]
            exact visible_congr fun k hk ↦ (hex.count k hk).symm
        _ = visible g.atoms (replay g.effect e.undoneGroups e.revs) := by
            rw [show (collectedEngine e g gcGroups).text = e.text from rfl, hrep.text]
            exact visible_congr h.exact.count
    · rw [List.concat_eq_append] at hsplit ⊢
      have hvisible := h.visible_collected hkeeps hsplit hr
      rw [← hunion] at hvisible
      cases hatoms : (collectedLedger e g gcGroups).atoms with
      | nil =>
        -- nothing is left, so nothing was visible at `p`
        rw [hatoms] at hvisible
        exact ⟨fun k hk ↦ absurd (mem_unionAt.mp hk).1 List.not_mem_nil, hvisible⟩
      | cons k₀ rest =>
        rw [← hatoms]
        have hw := hrep.undoneGroups_collected (hatoms ▸ List.mem_cons_self : k₀ ∈ _)
        obtain ⟨hsnd, hfst⟩ := h.walk_collected hkeeps hex hsplit hr hw rfl rfl
        rw [hw, hsnd]
        refine ⟨hfst, ?_⟩
        rw [← hvisible]
        exact visible_congr fun k hk ↦ h.replay_prefix hsplit (mem_unionAt.mp hk).1
  · intro pre' r' mid' l' t' b' hsplit' hr' hl' k hk
    have hsplit₁ : collectedRevs e g gcGroups = (pre' ++ r' :: mid') ++ l' :: [] := by
      change collectedRevs e g gcGroups = _ at hsplit'
      rw [hsplit']
      simp
    obtain ⟨init, l, post, hrevs, hl, hinit, -⟩ := survivors_eq_append_cons hsplit₁
    rw [List.nil_append] at hl
    have hr'mem : r' ∈ survivors g.effect gcGroups e.retainRevs
        (collectedLedger e g gcGroups).atoms [] init := by rw [← hinit]; simp
    obtain ⟨pre, r, mid, rfl, hshrink⟩ := mem_survivors hr'mem
    have hr : r.revId = p := by rw [← (shrinkRevision_eq_some hshrink).1, hr']
    rcases List.eq_nil_or_concat post with rfl | ⟨mid₂, l₀, rfl⟩
    · have hrevs' : e.revs = pre ++ r :: (mid ++ [l]) := by rw [hrevs]; simp
      rw [(shrinkRevision_eq_some hl).1, hrep.undoneGroups_collected hk]
      rw [shrinkRevision] at hl
      split at hl
      · next hed =>
        split at hl
        · obtain rfl := Option.some.inj hl
          cases hl'
        · cases hl
      · next t b hed =>
        split at hl
        · obtain rfl := Option.some.inj hl
          obtain ⟨rfl, -⟩ := Contents.undo.inj hl'
          exact h.head_collected hkeeps hrevs' hr hed hk
        · cases hl
    · -- an undo in the middle is not left
      have hrevs' : e.revs = (pre ++ r :: mid) ++ (l :: mid₂) ++ [l₀] := by rw [hrevs]; simp
      have := hrep.isEdit_of_survivors hrevs' (by simp) l'
        (by rw [survivors, hl]; exact List.mem_cons_self)
      rw [hl'] at this
      cases this

end Engine

end EeEditor
