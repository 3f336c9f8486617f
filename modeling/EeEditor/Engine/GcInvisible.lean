import EeEditor.Engine.GcHead

/-!
# Garbage collection and later undos

An engine that is edited at its head, undone and then collected, compared with the same engine
without the collection under the same later undos. Both replay the same revisions, except for a
head revision that is dropped although it is done: its deletions stay in the counts only until
an undo starts before the characters that it deleted.
-/

namespace EeEditor

variable {α : Type}

namespace Engine

variable {e e' : Engine α} {g : Ledger α} {x : Atom α → ℕ}

/-! ## The first candidate -/

/-- `max_undo_so_far` grows along the history. -/
def Monotone (revs : List Revision) : Prop :=
  (revs.map Revision.maxUndoSoFar).Pairwise (· ≤ ·)

theorem Monotone.append (h : Monotone e.revs) {r : Revision} {headMax : ℕ}
    (hmax : e.maxUndoGroupId = some headMax) (hr : headMax ≤ r.maxUndoSoFar) :
    Monotone (e.revs ++ [r]) := by
  obtain ⟨last, hlast, rfl⟩ := Option.map_eq_some_iff.mp hmax
  obtain ⟨init, hrevs⟩ := List.getLast?_eq_some_iff.mp hlast
  rw [Monotone, List.map_append, List.pairwise_append]
  refine ⟨h, List.pairwise_singleton _ _, fun m hm n hn ↦ ?_⟩
  rw [List.map_singleton, List.mem_singleton] at hn
  rw [hn]
  refine le_trans ?_ hr
  rw [hrevs, List.map_append, List.mem_append] at hm
  rcases hm with hm | hm
  · rw [Monotone, hrevs, List.map_append, List.pairwise_append] at h
    exact h.2.2 m hm last.maxUndoSoFar (by simp)
  · rw [List.map_singleton, List.mem_singleton] at hm
    exact hm.le

/-- The revisions before the first candidate are those below all toggled groups. -/
theorem Monotone.mem_candidate_iff (h : Monotone e.revs) {toggled : Finset ℕ}
    {pre post : List Revision} (hrevs : e.revs = pre ++ post)
    (hlen : pre.length = e.findFirstUndoCandidateIndex toggled) {r : Revision}
    (hr : r ∈ e.revs) : r ∈ pre ↔ ∀ j ∈ toggled, r.maxUndoSoFar < j := by
  rw [findFirstUndoCandidateIndex] at hlen
  split at hlen
  · next lowest hmin =>
    have hlowest : (∀ j ∈ toggled, r.maxUndoSoFar < j) ↔ r.maxUndoSoFar < lowest :=
      ⟨fun hall ↦ hall lowest (Finset.mem_of_min hmin), fun hlt j hj ↦
        hlt.trans_le (Finset.min_le_of_eq hj hmin)⟩
    rw [hlowest]
    obtain ⟨pre', post', hrevs', hlen', hpre, hpost⟩ := firstUndoCandidate_split e.revs lowest
    rw [hlen'] at hlen
    obtain ⟨rfl, rfl⟩ := List.append_inj (hrevs.symm.trans hrevs') hlen
    constructor
    · intro hmem
      rcases hpre with rfl | ⟨init, s, rfl, hs⟩
      · cases hmem
      · rcases List.mem_append.mp hmem with hmem | hmem
        · rw [Monotone, hrevs, List.append_assoc, List.map_append, List.pairwise_append] at h
          exact (h.2.2 r.maxUndoSoFar (List.mem_map.mpr ⟨r, hmem, rfl⟩) s.maxUndoSoFar
            (by simp)).trans_lt hs
        · rwa [List.mem_singleton.mp hmem]
    · intro hlt
      rw [hrevs] at hr
      rcases List.mem_append.mp hr with hr | hr
      · exact hr
      · exact absurd (hpost r hr) (not_le.mpr hlt)
  · next hmin =>
    have hempty : toggled = ∅ := Finset.min_eq_top.mp hmin
    obtain ⟨rfl, rfl⟩ := List.append_inj (hrevs.symm.trans (List.append_nil _).symm) hlen
    simp [hempty, hr]

/-! ## Sequences of undos -/

/-- The texts after each of a sequence of undos. -/
def undoTexts (self : Engine α) : List (Finset ℕ) → Option (List (List α))
  | [] => some []
  | groups :: rest => do
    let self ← self.undo groups
    let texts ← self.undoTexts rest
    return self.getHead :: texts

/-- Without unaccounted deletions every undo shows the replay for its groups. -/
theorem Exact.undoTexts_eq (undos : List (Finset ℕ)) : ∀ {e : Engine α} {g : Ledger α},
    Exact e g → e.undoTexts undos
      = some (undos.map fun groups ↦ visible g.atoms (replay g.effect groups e.revs)) := by
  induction undos with
  | nil => intro e g _; rfl
  | cons groups rest ih =>
    intro e g h
    obtain ⟨e', g', hundo, hex, hatoms, htext, hreplay⟩ := h.undo_eq groups
    rw [undoTexts, hundo, Option.bind_eq_bind, Option.bind_some, ih hex, Option.bind_eq_bind,
      Option.bind_some, getHead, htext, List.map_cons, hatoms]
    congr 2
    exact List.map_congr_left fun groups' _ ↦ visible_congr fun k hk ↦ hreplay groups' k hk

/-- The unaccounted deletions that are left after an undo from the groups `w` to `groups`, when
`m` is `max_undo_so_far` of the revision of an atom. -/
def leftOver (m : Atom α → ℕ) (w groups : Finset ℕ) (x : Atom α → ℕ) (k : Atom α) : ℕ :=
  if ∀ j ∈ symmDiff w groups, m k < j then x k else 0

/-- The texts after each of a sequence of undos, with the unaccounted deletions `x`. -/
def leftTexts (u : List (Atom α)) (rep : Finset ℕ → Atom α → ℕ) (m : Atom α → ℕ) :
    Finset ℕ → (Atom α → ℕ) → List (Finset ℕ) → List (List α)
  | _, _, [] => []
  | w, x, groups :: rest =>
    visible u (fun k ↦ rep groups k + leftOver m w groups x k)
      :: leftTexts u rep m groups (leftOver m w groups x) rest

/-- The accounts of an engine between undos: `rep` is what its revisions replay to. -/
structure Settled (e : Engine α) (u : List (Atom α)) (rep : Finset ℕ → Atom α → ℕ)
    (m x : Atom α → ℕ) : Prop where
  accounted : ∃ g, Accounted e g x ∧ g.atoms = u ∧
    ∀ groups, ∀ k ∈ u, replay g.effect groups e.revs k = rep groups k
  monotone : Monotone e.revs
  owner : ∀ k ∈ u, ∃ r ∈ e.revs, r.revId = k.rev ∧ r.maxUndoSoFar = m k

theorem Settled.undo_eq {u : List (Atom α)} {rep : Finset ℕ → Atom α → ℕ} {m : Atom α → ℕ}
    (h : Settled e u rep m x) (groups : Finset ℕ) : ∃ e', e.undo groups = some e' ∧
      Settled e' u rep m (leftOver m e.undoneGroups groups x) ∧ e'.undoneGroups = groups ∧
      e'.getHead = visible u fun k ↦ rep groups k + leftOver m e.undoneGroups groups x k := by
  obtain ⟨⟨g, hacc, rfl, hrep⟩, hmono, howner⟩ := h
  obtain ⟨pre, post, hrevs, hlen, hcases⟩ := hacc.undo_cases groups
  have hknown : ∀ k ∈ g.atoms, (if known pre k then x k else 0)
      = leftOver m e.undoneGroups groups x k := by
    intro k hk
    obtain ⟨r, hr, hid, hm⟩ := howner k hk
    have hiff := hmono.mem_candidate_iff hrevs hlen hr
    rw [hm] at hiff
    have hpre : known pre k = true ↔ r ∈ pre := by
      rw [known, decide_eq_true_iff, List.mem_map]
      refine ⟨fun hs ↦ ?_, fun hmem ↦ ⟨r, hmem, hid⟩⟩
      obtain ⟨s, hs, hsid⟩ := hs
      have heq : s = r := List.inj_on_of_nodup_map hacc.represents.history.ids
        (by rw [hrevs]; simp [hs]) hr (by rw [hsid, hid])
      rwa [← heq]
    rw [leftOver]
    exact if_congr (hpre.trans hiff) rfl rfl
  have hcount : ∀ k ∈ g.atoms, undoCount e g groups pre x k
      = rep groups k + leftOver m e.undoneGroups groups x k := fun k hk ↦ by
    rw [undoCount, hrep groups k hk, hknown k hk]
  rcases hcases with ⟨hsame, hundo, hacc'⟩ | ⟨-, headMax, hmax, hundo, hacc'⟩
  · refine ⟨_, hundo, ⟨⟨g, ⟨hacc'.represents, fun k hk ↦ ?_⟩, rfl, hrep⟩, hmono, howner⟩, rfl, ?_⟩
    · rw [← hknown k hk]
      exact hacc'.count k hk
    · rw [getHead, hacc.represents.text]
      exact visible_congr fun k hk ↦ (hsame k hk).trans (hcount k hk)
  · refine ⟨_, hundo, ⟨⟨undoneLedger e g _, ⟨hacc'.represents, fun k hk ↦ ?_⟩, rfl, ?_⟩, ?_, ?_⟩,
      rfl, visible_congr hcount⟩
    · rw [← hknown k hk]
      exact hacc'.count k hk
    · intro groups' k hk
      rw [replay_undone hacc.represents groups groups' headMax _ hk]
      exact hrep groups' k hk
    · exact hmono.append hmax le_rfl
    · intro k hk
      obtain ⟨r, hr, hid, hm⟩ := howner k hk
      exact ⟨r, List.mem_append_left _ hr, hid, hm⟩

theorem Settled.undoTexts_eq {u : List (Atom α)} {rep : Finset ℕ → Atom α → ℕ} {m : Atom α → ℕ}
    (undos : List (Finset ℕ)) : ∀ {e : Engine α} {x : Atom α → ℕ}, Settled e u rep m x →
      e.undoTexts undos = some (leftTexts u rep m e.undoneGroups x undos) := by
  induction undos with
  | nil => intro e x _; rfl
  | cons groups rest ih =>
    intro e x h
    obtain ⟨e', hundo, hsettled, hw, htext⟩ := h.undo_eq groups
    rw [undoTexts, hundo, Option.bind_eq_bind, Option.bind_some, ih hsettled, Option.bind_eq_bind,
      Option.bind_some, htext, hw]
    rfl

/-! ## Edits at the head -/

/-- One edit of the head revision, or one undo. -/
inductive HeadEditUndo (token : RevId → RevToken) : Engine α → Engine α → Prop
  | edit {e e' : Engine α} {headRevId : RevId} (priority undoGroup : ℕ) (d : Delta α)
      (hhead : e.getHeadRevId = some headRevId) (hd : d.WellFormed)
      (h : e.tryEditRev token priority undoGroup (token headRevId) d = some (.ok e')) :
      HeadEditUndo token e e'
  | undo {e e' : Engine α} (groups : Finset ℕ) (h : e.undo groups = some e') :
      HeadEditUndo token e e'

/-- Reachable from some initial contents by edits of the head and undos. -/
def HeadReachable (token : RevId → RevToken) (e : Engine α) : Prop :=
  ∃ text e₀, Engine.new token text = some e₀ ∧ Relation.ReflTransGen (HeadEditUndo token) e₀ e

/-- The history of edits at the head. An edit only deletes characters that are visible, and no
deletion is added before the next revision. -/
structure HeadEdited (e : Engine α) (g : Ledger α) : Prop where
  exact : Exact e g
  monotone : Monotone e.revs
  last : ∀ init last, e.revs = init ++ [last] → last.edit.isEdit = true → ∀ k ∈ g.atoms,
    g.effect last.revId k ≠ 0 → g.count k ≤ g.effect last.revId k

theorem headEdited_empty : HeadEdited (empty : Engine α) emptyLedger :=
  ⟨exact_empty, List.pairwise_singleton _ _, fun _ _ _ _ _ hk ↦ absurd hk (List.not_mem_nil)⟩

theorem HeadEdited.edited (h : HeadEdited e g) {priority undoGroup : ℕ} {d : Delta α}
    {u' : List (Atom α)} (hed : Edited e g priority undoGroup d e.revs [] u' e') :
    ∃ g', HeadEdited e' g' := by
  rcases hed.cases h.exact.represents with ⟨rfl, -⟩ | ⟨headMax, hmax, he', -⟩
  · exact ⟨g, h⟩
  rcases h.exact.edited hed with rfl | ⟨headMax', he'', hex⟩
  · exact ⟨g, h⟩
  refine ⟨_, hex, ?_, ?_⟩
  · rw [he']
    exact h.monotone.append hmax (le_max_right _ _)
  · intro init last hrevs _ k _ hne
    rw [he'] at hrevs
    obtain ⟨-, hlast⟩ := List.append_inj' hrevs rfl
    obtain rfl := List.cons.inj hlast |>.1
    -- the new revision deletes what has not been deleted
    by_cases hown : k.rev = e.nextRevId
    · exact absurd (extendEffect_own hown) hne
    · have heff : (editedLedger e g undoGroup u' (deletedBy d (baseAtoms e g e.revs []))).effect
          e.nextRevId k = deletedBy d (baseAtoms e g e.revs []) k := extendEffect_self hown
      rw [heff] at hne ⊢
      have hzero : g.count k = 0 := by
        rw [deletedBy] at hne
        split at hne
        · next hmem => exact of_decide_eq_true (List.mem_filter.mp hmem.1).2
        · exact absurd rfl hne
      change editCount e g undoGroup _ k ≤ _
      rw [editCount_old hown, hzero, Nat.zero_add]
      split
      · exact Nat.zero_le _
      · exact le_rfl

theorem HeadEdited.step {token : RevId → RevToken} (h : HeadEdited e g)
    (hs : HeadEditUndo token e e') : ∃ g', HeadEdited e' g' := by
  cases hs with
  | edit priority undoGroup d hhead hd hok =>
    obtain ⟨pre, r, post, u', -, hfind, hed⟩ := h.exact.represents.tryEditRev_ok hd hok
    obtain ⟨last, hlast, -, hhead'⟩ := h.exact.represents.exists_getLast
    obtain ⟨init, hrevs⟩ := List.getLast?_eq_some_iff.mp hlast
    rw [hhead] at hhead'
    obtain rfl := Option.some.inj hhead'
    -- the head is found as the last revision
    rw [findRevToken_head token hrevs] at hfind
    have heq : pre ++ [r] ++ post = init ++ [last] ++ [] := by
      rw [List.append_nil, ← hrevs, hed.revs]
    obtain ⟨hpre, rfl⟩ := List.append_inj heq (by simp [Option.some.inj hfind])
    rw [hpre, ← hrevs] at hed
    exact h.edited hed
  | undo groups hok =>
    rcases h.exact.undo_cases groups with ⟨hsame, hundo, hex⟩ | ⟨-, headMax, hmax, hundo, hex⟩
    · rw [hok] at hundo
      obtain rfl := Option.some.inj hundo
      exact ⟨g, hex, h.monotone, h.last⟩
    · rw [hok] at hundo
      obtain rfl := Option.some.inj hundo
      refine ⟨_, hex, ?_, ?_⟩
      · exact h.monotone.append hmax le_rfl
      · intro init last hrevs hedit
        obtain ⟨-, hlast⟩ := List.append_inj' hrevs rfl
        obtain rfl := List.cons.inj hlast |>.1
        cases hedit

theorem HeadReachable.headEdited {token : RevId → RevToken} (h : HeadReachable token e) :
    ∃ g, HeadEdited e g := by
  obtain ⟨text, e₀, hnew, hrun⟩ := h
  induction hrun with
  | refl =>
    obtain ⟨e₁, he₁, hcases⟩ := new_eq token text
    rw [hnew] at he₁
    obtain rfl := Option.some.inj he₁
    rcases hcases with rfl | ⟨d, u', -, hed⟩
    · exact ⟨_, headEdited_empty⟩
    · exact headEdited_empty.edited hed
  | tail _ hs ih =>
    obtain ⟨g, hg⟩ := ih
    exact hg.step hs

/-! ## The collected engine under undos -/

/-- The sets of undone groups agree on the collected groups. -/
def AgreeOn (gcGroups w groups : Finset ℕ) : Prop := ∀ gr ∈ gcGroups, gr ∈ groups ↔ gr ∈ w

/-- `max_undo_so_far` of the revision of an atom. -/
def ownerMax (revs : List Revision) (k : Atom α) : ℕ :=
  match revs.find? fun r ↦ r.revId = k.rev with
  | some r => r.maxUndoSoFar
  | none => 0

theorem ownerMax_eq {revs : List Revision} (hids : (revs.map Revision.revId).Nodup) {r : Revision}
    (hr : r ∈ revs) {k : Atom α} (hid : r.revId = k.rev) : ownerMax revs k = r.maxUndoSoFar := by
  rw [ownerMax]
  split
  · next s hs =>
    have hsid : s.revId = k.rev := by simpa using List.find?_some hs
    rw [List.inj_on_of_nodup_map hids (List.mem_of_find?_eq_some hs) hr (by rw [hsid, hid])]
  · next hs =>
    have := List.find?_eq_none.mp hs r hr
    simp [hid] at this

theorem Monotone.collected (h : Monotone e.revs) (gcGroups : Finset ℕ) :
    Monotone (collectedRevs e g gcGroups) :=
  h.sublist (survivors_map_sublist _ (fun _ _ _ hr ↦ (shrinkRevision_eq_some hr).2.1) _ _)

section

variable {gcGroups : Finset ℕ}

/-- The collected engine replays what is left, with the deletions of a dropped head left over. -/
theorem HeadEdited.settled (h : HeadEdited e g) (gcGroups : Finset ℕ) :
    e.gc gcGroups = some (collectedEngine e g gcGroups) ∧
      Settled (collectedEngine e g gcGroups) (collectedLedger e g gcGroups).atoms
        (fun w ↦ replay g.effect w (collectedRevs e g gcGroups)) (ownerMax e.revs)
        (lostCount e g gcGroups) := by
  obtain ⟨hgc, hacc⟩ := h.exact.accounted.gc_eq gcGroups
  refine ⟨hgc, ⟨⟨_, ?_, rfl, fun _ _ _ ↦ rfl⟩, h.monotone.collected gcGroups, fun k hk ↦ ?_⟩⟩
  · simpa only [Nat.zero_add] using hacc
  · obtain ⟨r', hr', hid', -⟩ := hacc.represents.history.inserted k hk
    obtain ⟨mid, r, post, hrevs, hr⟩ := mem_survivors hr'
    obtain ⟨hid, hmax, -⟩ := shrinkRevision_eq_some hr
    refine ⟨r', hr', hid', ?_⟩
    rw [hmax, ownerMax_eq h.exact.represents.history.ids (r := r) (by rw [hrevs]; simp)
      (by rw [← hid, hid'])]

/-- Collected atoms stay deleted for every set of groups that agrees on the collected ones. -/
theorem replay_ne_zero_of_collected {groups : Finset ℕ}
    (hagree : AgreeOn gcGroups e.undoneGroups groups) {k : Atom α}
    (hk : collectCount e g gcGroups k ≠ 0) : replay g.effect groups e.revs k ≠ 0 := by
  have hsame : collectCount e g gcGroups k
      = gcCount g.effect groups gcGroups e.retainRevs e.revs k := by
    rw [collectCount, gcCount, gcCount]
    refine congrArg List.sum (List.map_congr_left fun r _ ↦ ?_)
    cases hed : r.edit with
    | undo t b => simp [gcCollects, hed]
    | edit p gr i d =>
      rw [gcCollects, contribution, contribution, hed]
      by_cases hg : gr ∈ gcGroups
      · simp only [hagree gr hg]
      · simp [hg]
  have hle : gcCount g.effect groups gcGroups e.retainRevs e.revs k
      ≤ replay g.effect groups e.revs k := gcCount_le_replay
  omega

/-- The text without the collection, in terms of what is left. -/
theorem Represents.visible_replay_eq (h : e.Represents g) {groups : Finset ℕ}
    (hagree : AgreeOn gcGroups e.undoneGroups groups) :
    visible g.atoms (replay g.effect groups e.revs)
      = visible (collectedLedger e g gcGroups).atoms fun k ↦
          replay g.effect groups (collectedRevs e g gcGroups) k + lostCount e g gcGroups k := by
  rw [visible, visible, collectedLedger, List.filter_filter]
  congr 1
  refine List.filter_congr fun k hk ↦ ?_
  by_cases hc : collectCount e g gcGroups k = 0
  · have := h.replay_collected hagree (mem_collectedLedger.mpr ⟨hk, hc⟩)
    simp [hc, this]
  · simp [hc, replay_ne_zero_of_collected hagree hc]

/-- When the left-over deletions are below all groups that may be toggled, they stay. -/
theorem leftTexts_eq {u : List (Atom α)} {rep : Finset ℕ → Atom α → ℕ} {m x : Atom α → ℕ}
    {w₀ : Finset ℕ} (hx : ∀ k ∈ u, x k ≠ 0 → ∀ j ∉ gcGroups, m k < j) :
    ∀ (undos : List (Finset ℕ)) {w : Finset ℕ} {y : Atom α → ℕ},
      (∀ groups ∈ undos, AgreeOn gcGroups w₀ groups) → (u ≠ [] → AgreeOn gcGroups w₀ w) →
      (∀ k ∈ u, y k = x k) →
      leftTexts u rep m w y undos
        = undos.map fun groups ↦ visible u fun k ↦ rep groups k + x k := by
  intro undos
  induction undos with
  | nil => intro w y _ _ _; rfl
  | cons groups rest ih =>
    intro w y hundos hw hy
    have hgroups := hundos groups (by simp)
    have hleft : ∀ k ∈ u, leftOver m w groups y k = x k := by
      intro k hk
      rw [leftOver, hy k hk]
      by_cases hxk : x k = 0
      · rw [hxk, ite_self]
      · rw [if_pos]
        intro j hj
        refine hx k hk hxk j fun hjg ↦ ?_
        have h1 := hgroups j hjg
        have h2 := hw (List.ne_nil_of_mem hk) j hjg
        rw [Finset.mem_symmDiff] at hj
        tauto
    rw [leftTexts, List.map_cons, ih (fun groups' hg' ↦ hundos groups' (by simp [hg']))
      (fun _ ↦ hgroups) hleft]
    congr 1
    exact visible_congr fun k hk ↦ by rw [hleft k hk]

/-! ## When a collection is invisible -/

/-- After the collection every sequence of undos that leaves the collected groups alone shows the
same texts as without it. -/
def GcInvisible (e : Engine α) (gcGroups : Finset ℕ) : Prop :=
  ∃ e', e.gc gcGroups = some e' ∧ ∀ undos : List (Finset ℕ),
    (∀ groups ∈ undos, AgreeOn gcGroups e.undoneGroups groups) →
    ∃ texts, e.undoTexts undos = some texts ∧ e'.undoTexts undos = some texts

/-- The head revision is a done edit of a collected group that only deletes, and it deletes a
character that is not younger than a group that can still be toggled. -/
def LosesDeletion (e : Engine α) (g : Ledger α) (gcGroups : Finset ℕ) : Prop :=
  ∃ r, e.revs.getLast? = some r ∧
    match r.edit with
    | .undo .. => False
    | .edit _ undoGroup inserts _ =>
      inserts.isEmpty = true ∧ undoGroup ∈ gcGroups ∧ undoGroup ∉ e.undoneGroups ∧
        ∃ k ∈ g.atoms, g.effect r.revId k ≠ 0 ∧
          ∃ q ∈ e.revs, q.revId = k.rev ∧ ∃ j ∉ gcGroups, j ≤ q.maxUndoSoFar

theorem Represents.losesDeletion_iff (h : e.Represents g) : LosesDeletion e g gcGroups ↔
    ∃ k ∈ g.atoms, lostCount e g gcGroups k ≠ 0 ∧ ∃ j ∉ gcGroups, j ≤ ownerMax e.revs k := by
  obtain ⟨⟨id, m, edit⟩, hlast, -⟩ := h.exists_getLast
  rw [LosesDeletion, hlast]
  simp only [Option.some.injEq, exists_eq_left', lostCount, hlast]
  have howner : ∀ k ∈ g.atoms, (∃ q ∈ e.revs, q.revId = k.rev ∧ ∃ j ∉ gcGroups,
      j ≤ q.maxUndoSoFar) ↔ ∃ j ∉ gcGroups, j ≤ ownerMax e.revs k := by
    intro k hk
    obtain ⟨q, hq, hid, -⟩ := h.history.inserted k hk
    constructor
    · rintro ⟨q', hq', hid', hj⟩
      rwa [ownerMax_eq h.history.ids hq' hid']
    · intro hj
      exact ⟨q, hq, hid, by rwa [ownerMax_eq h.history.ids hq hid] at hj⟩
  cases edit with
  | undo t b => simp
  | edit p gr i d =>
    dsimp only
    constructor
    · rintro ⟨hi, hg, hw, k, hk, hne, hj⟩
      exact ⟨k, hk, by rwa [if_pos ⟨hg, hw, hi⟩], (howner k hk).mp hj⟩
    · rintro ⟨k, hk, hne, hj⟩
      split at hne
      · next hcond => exact ⟨hcond.2.2, hcond.1, hcond.2.1, k, hk, hne, (howner k hk).mpr hj⟩
      · exact absurd rfl hne

/-- What a dropped head deleted was not deleted by anything else, so it is left. -/
theorem HeadEdited.replay_lost (h : HeadEdited e g) {k : Atom α} (hk : k ∈ g.atoms)
    (hlost : lostCount e g gcGroups k ≠ 0) : collectCount e g gcGroups k = 0 ∧
      replay g.effect e.undoneGroups (collectedRevs e g gcGroups) k = 0 := by
  obtain ⟨last, hlast, -⟩ := h.exact.represents.exists_getLast
  obtain ⟨init, hrevs⟩ := List.getLast?_eq_some_iff.mp hlast
  -- the count is what the head contributes
  have hinit : replay g.effect e.undoneGroups init k = 0 ∧
      lostCount e g gcGroups k = g.effect last.revId k := by
    have hcount := h.exact.count k hk
    have hle := h.last init last hrevs
    rw [lostCount, hlast] at hlost ⊢
    obtain ⟨id, m, edit⟩ := last
    cases edit with
    | undo t b => exact absurd rfl hlost
    | edit p gr i d =>
      dsimp only at hlost hle ⊢
      split at hlost
      · next hcond =>
        have := hle rfl k hk hlost
        rw [hrevs, replay_append, replay_singleton, contribution] at hcount
        simp only [hcond.2.1, if_false] at hcount
        rw [if_pos hcond]
        exact ⟨by omega, rfl⟩
      · exact absurd rfl hlost
  have hzero : collectCount e g gcGroups k = 0 := by
    rw [collectCount, gcCount_eq_zero_iff]
    intro r hr hcollects
    rw [hrevs] at hr
    rcases List.mem_append.mp hr with hr | hr
    · exact List.sum_eq_zero_iff_forall_eq_nat.mp hinit.1 _ (List.mem_map.mpr ⟨r, hr, rfl⟩)
    · -- the head is retained
      obtain rfl := List.mem_singleton.mp hr
      have hret : r.revId ∈ e.retainRevs := by simp [retainRevs, hrevs]
      rw [gcCollects] at hcollects
      split at hcollects
      · exact absurd hret (of_decide_eq_true hcollects).1
      · cases hcollects
  refine ⟨hzero, ?_⟩
  have hkept := h.exact.represents.replay_collected (w := e.undoneGroups) (fun _ _ ↦ Iff.rfl)
    (mem_collectedLedger.mpr ⟨hk, hzero⟩)
  have hcount := h.exact.count k hk
  have hle : g.count k ≤ g.effect last.revId k := by
    refine h.last init last hrevs ?_ k hk (hinit.2 ▸ hlost)
    rw [lostCount, hlast] at hlost
    obtain ⟨id, m, edit⟩ := last
    cases edit with
    | undo t b => exact absurd rfl hlost
    | edit p gr i d => rfl
  have := hinit.2
  omega

/-- More deletions show a shorter text. -/
theorem length_visible_lt {u : List (Atom α)} {c c' : Atom α → ℕ} (hle : ∀ k ∈ u, c k ≤ c' k)
    {k : Atom α} (hk : k ∈ u) (hc : c k = 0) (hc' : c' k ≠ 0) :
    (visible u c').length < (visible u c).length := by
  rw [visible, visible, List.length_map, List.length_map, ← List.countP_eq_length_filter,
    ← List.countP_eq_length_filter]
  obtain ⟨l, r, rfl⟩ := List.append_of_mem hk
  have hmono : ∀ v : List (Atom α), (∀ i ∈ v, c i ≤ c' i) →
      v.countP (fun i ↦ c' i = 0) ≤ v.countP fun i ↦ c i = 0 := fun v hv ↦
    List.countP_mono_left fun i hi hzero ↦ by
      have := hv i hi
      simp only [decide_eq_true_eq] at hzero ⊢
      omega
  have h1 := hmono l fun i hi ↦ hle i (by simp [hi])
  have h2 := hmono r fun i hi ↦ hle i (by simp [hi])
  simp only [List.countP_append, List.countP_cons, hc, hc', decide_true, decide_false, if_true,
    Bool.false_eq_true, if_false]
  omega

theorem HeadEdited.gcInvisible_of_not_losesDeletion (h : HeadEdited e g)
    (hnot : ¬ LosesDeletion e g gcGroups) : GcInvisible e gcGroups := by
  obtain ⟨hgc, hsettled⟩ := h.settled gcGroups
  refine ⟨_, hgc, fun undos hundos ↦ ⟨_, h.exact.undoTexts_eq undos, ?_⟩⟩
  rw [h.exact.represents.losesDeletion_iff] at hnot
  push Not at hnot
  have hleft : ∀ k ∈ (collectedLedger e g gcGroups).atoms, lostCount e g gcGroups k ≠ 0 →
      ∀ j ∉ gcGroups, ownerMax e.revs k < j := fun k hk ↦ hnot k (mem_collectedLedger.mp hk).1
  have hw : (collectedLedger e g gcGroups).atoms ≠ [] →
      AgreeOn gcGroups e.undoneGroups (collectedEngine e g gcGroups).undoneGroups := by
    intro hne
    obtain ⟨k, hk⟩ := List.exists_mem_of_ne_nil _ hne
    rw [h.exact.represents.undoneGroups_collected hk]
    exact fun _ _ ↦ Iff.rfl
  rw [hsettled.undoTexts_eq undos, leftTexts_eq hleft undos hundos hw fun _ _ ↦ rfl]
  refine congrArg some (List.map_congr_left fun groups hgroups ↦ ?_)
  exact (h.exact.represents.visible_replay_eq (hundos groups hgroups)).symm

/-- Toggling a group and toggling it back shows the deleted characters again. -/
theorem HeadEdited.not_gcInvisible_of_losesDeletion (h : HeadEdited e g)
    (hloses : LosesDeletion e g gcGroups) : ¬ GcInvisible e gcGroups := by
  obtain ⟨k, hk, hlost, j, hj, hmax⟩ := h.exact.represents.losesDeletion_iff.mp hloses
  obtain ⟨hcol, hrep⟩ := h.replay_lost hk hlost
  have hk' : k ∈ (collectedLedger e g gcGroups).atoms := mem_collectedLedger.mpr ⟨hk, hcol⟩
  rintro ⟨e', hgc, hsame⟩
  obtain ⟨hgc', hsettled⟩ := h.settled gcGroups
  rw [hgc] at hgc'
  obtain rfl := Option.some.inj hgc'
  have hagree : ∀ groups ∈ [symmDiff e.undoneGroups {j}, e.undoneGroups],
      AgreeOn gcGroups e.undoneGroups groups := by
    intro groups hgroups gr hgr
    simp only [List.mem_cons, List.not_mem_nil, or_false] at hgroups
    rcases hgroups with rfl | rfl
    · have : gr ≠ j := fun heq ↦ hj (heq ▸ hgr)
      simp [Finset.mem_symmDiff, this]
    · exact Iff.rfl
  obtain ⟨texts, h1, h2⟩ := hsame _ hagree
  rw [h.exact.undoTexts_eq] at h1
  rw [hsettled.undoTexts_eq, ← Option.some.inj h1,
    h.exact.represents.undoneGroups_collected hk'] at h2
  have heq := (List.cons.inj (List.cons.inj (Option.some.inj h2)).2).1
  dsimp only at heq
  rw [h.exact.represents.visible_replay_eq (hagree _ (by simp))] at heq
  -- the first undo starts before the character
  have hzero : leftOver (ownerMax e.revs) e.undoneGroups (symmDiff e.undoneGroups {j})
      (lostCount e g gcGroups) k = 0 := by
    rw [leftOver, if_neg]
    intro hall
    refine absurd (hall j ?_) (not_lt.mpr hmax)
    rw [symmDiff_symmDiff_cancel_left]
    exact Finset.mem_singleton_self j
  have hle : ∀ i w groups (x : Atom α → ℕ), leftOver (ownerMax e.revs) w groups x i ≤ x i := by
    intro i w groups x
    rw [leftOver]
    split
    · exact le_rfl
    · exact Nat.zero_le _
  refine absurd (congrArg List.length heq) (ne_of_gt (length_visible_lt (fun i _ ↦ ?_) hk' ?_ ?_))
  · exact Nat.add_le_add_left ((hle i _ _ _).trans (hle i _ _ _)) _
  · have := hle k (symmDiff e.undoneGroups {j}) e.undoneGroups
      (leftOver (ownerMax e.revs) e.undoneGroups (symmDiff e.undoneGroups {j})
        (lostCount e g gcGroups))
    omega
  · omega

end

/-- **Garbage collection and later undos.** In every state reached by edits of the head and undos,
a collection is invisible to later undos exactly when it does not lose the deletions of the head
revision. -/
theorem HeadReachable.gcInvisible_iff {token : RevId → RevToken} (h : HeadReachable token e) :
    ∃ g, e.Represents g ∧ ∀ gcGroups,
      GcInvisible e gcGroups ↔ ¬ LosesDeletion e g gcGroups := by
  obtain ⟨g, hg⟩ := h.headEdited
  refine ⟨g, hg.exact.represents, fun gcGroups ↦ ⟨fun hinv hloses ↦ ?_, fun hnot ↦ ?_⟩⟩
  · exact hg.not_gcInvisible_of_losesDeletion hloses hinv
  · exact hg.gcInvisible_of_not_losesDeletion hnot

/-- A replacement of the initial contents, before its collection. -/
theorem gcInvisible_iff_replace : ∃ e : Engine ℕ, e.getHead = [8] ∧ ∃ g, e.Represents g ∧
    ∀ gcGroups, GcInvisible e gcGroups ↔ ¬ LosesDeletion e g gcGroups := by
  obtain ⟨e₀, e, hnew, hok, hhead, htext⟩ := exists_replaced [8]
    (p := fun e₀ e ↦ e₀.getHeadRevId = some ⟨1, 0, 1⟩ ∧ e.getHead = [8]) (by decide +kernel)
  have h : HeadReachable RevId.num e :=
    ⟨[7], e₀, hnew, .tail .refl (.edit 0 1 _ hhead (by decide) hok)⟩
  exact ⟨e, htext, h.gcInvisible_iff⟩

/-- The initial contents are deleted and the deletion is collected. Toggling a group that was
never used brings them back. -/
theorem gc_revives_deleted : ¬ ∀ e : Engine ℕ, HeadReachable RevId.num e → ∀ gcGroups,
    GcInvisible e gcGroups := by
  intro h
  obtain ⟨e₀, e, hnew, hok, hhead, hw, hne⟩ := exists_replaced []
    (p := fun e₀ e ↦ e₀.getHeadRevId = some ⟨1, 0, 1⟩ ∧ e.undoneGroups = ∅ ∧
      (e.gc {1}).bind (undoTexts · [{0}, ∅]) ≠ e.undoTexts [{0}, ∅]) (by decide +kernel)
  obtain ⟨e', hgc, hsame⟩ :=
    h e ⟨[7], e₀, hnew, .tail .refl (.edit 0 1 _ hhead (by decide) hok)⟩ {1}
  obtain ⟨texts, h1, h2⟩ := hsame [{0}, ∅] (by simp [AgreeOn, hw])
  exact hne (by rw [hgc, Option.bind_some, h1, h2])

end Engine

end EeEditor
