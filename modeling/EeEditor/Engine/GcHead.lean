import EeEditor.Engine.GcSpec
import EeEditor.Engine.Exact

/-!
# Garbage collection and the head revision

Runs of an engine that is edited, undone and collected. A collection never changes the text. It
puts the head revision among those to retain, and then may drop it all the same: an edit that
inserts nothing is dropped with its group, or when all that it deleted is collected.
-/

namespace EeEditor

variable {α : Type}

namespace Engine

variable {e e' : Engine α} {g : Ledger α} {x : Atom α → ℕ}

/-! ## Runs -/

/-- A collection keeps the accounts, apart from the deletions of a dropped last revision. -/
theorem Accounted.gc_eq (h : Accounted e g x) (gcGroups : Finset ℕ) :
    e.gc gcGroups = some (collectedEngine e g gcGroups) ∧
      Accounted (collectedEngine e g gcGroups) (collectedLedger e g gcGroups)
        fun k ↦ x k + lostCount e g gcGroups k := by
  have hcount : ∀ k ∈ g.atoms, collectCount e g gcGroups k ≠ 0 → g.count k ≠ 0 := by
    intro k hk hne
    have hle : collectCount e g gcGroups k ≤ replay g.effect e.undoneGroups e.revs k :=
      gcCount_le_replay
    rw [h.count k hk]
    omega
  refine ⟨h.represents.gc_eq gcGroups hcount, h.represents.collected gcGroups hcount,
    fun k hk ↦ ?_⟩
  have hkept := h.represents.replay_collected (w := e.undoneGroups) (fun _ _ ↦ Iff.rfl) hk
  rw [h.represents.undoneGroups_collected hk]
  change g.count k = replay g.effect e.undoneGroups (collectedRevs e g gcGroups) k
    + (x k + lostCount e g gcGroups k)
  rw [h.count k (mem_collectedLedger.mp hk).1, hkept]
  omega

/-- One edit, one undo or one collection. -/
inductive EditUndoGc (token : RevId → RevToken) : Engine α → Engine α → Prop
  | edit {e e' : Engine α} (priority undoGroup : ℕ) (baseRev : RevToken) (d : Delta α)
      (hd : d.WellFormed) (h : e.tryEditRev token priority undoGroup baseRev d = some (.ok e')) :
      EditUndoGc token e e'
  | undo {e e' : Engine α} (groups : Finset ℕ) (h : e.undo groups = some e') :
      EditUndoGc token e e'
  | gc {e e' : Engine α} (gcGroups : Finset ℕ) (h : e.gc gcGroups = some e') :
      EditUndoGc token e e'

/-- Reachable from some initial contents by edits, undos and collections. -/
def ReachableGc (token : RevId → RevToken) (e : Engine α) : Prop :=
  ∃ text e₀, Engine.new token text = some e₀ ∧ Relation.ReflTransGen (EditUndoGc token) e₀ e

theorem Accounted.step {token : RevId → RevToken} (h : Accounted e g x)
    (hs : EditUndoGc token e e') : ∃ g' x', Accounted e' g' x' := by
  cases hs with
  | edit priority undoGroup baseRev d hd hok =>
    obtain ⟨pre, r, post, u', -, -, hed⟩ := h.represents.tryEditRev_ok hd hok
    rcases h.edited hed with rfl | ⟨headMax, -, hacc⟩
    · exact ⟨g, x, h⟩
    · exact ⟨_, _, hacc⟩
  | undo groups hok =>
    obtain ⟨pre, post, -, -, ⟨-, hundo, hacc⟩ | ⟨-, headMax, -, hundo, hacc⟩⟩ := h.undo_cases groups
    · rw [hok] at hundo
      obtain rfl := Option.some.inj hundo
      exact ⟨_, _, hacc⟩
    · rw [hok] at hundo
      obtain rfl := Option.some.inj hundo
      exact ⟨_, _, hacc⟩
  | gc gcGroups hok =>
    obtain ⟨hgc, hacc⟩ := h.gc_eq gcGroups
    rw [hok] at hgc
    obtain rfl := Option.some.inj hgc
    exact ⟨_, _, hacc⟩

theorem ReachableGc.accounted {token : RevId → RevToken} (h : ReachableGc token e) :
    ∃ g x, Accounted e g x := by
  obtain ⟨text, e₀, hnew, hrun⟩ := h
  induction hrun with
  | refl =>
    obtain ⟨g, hg⟩ := exact_new hnew
    exact ⟨g, _, hg.accounted⟩
  | tail _ hs ih =>
    obtain ⟨g, x, hacc⟩ := ih
    exact hacc.step hs

/-! ## The head -/

/-- The head revision can be looked up, whatever the other tokens are. -/
theorem Represents.tryDeltaRevHead_head (h : e.Represents g) (token : RevId → RevToken)
    {init : List Revision} {last : Revision} (hrevs : e.revs = init ++ [last]) :
    ∃ d, e.tryDeltaRevHead token (token last.revId) = some (.ok d) := by
  have hdels := (h.deletesFromCurUnionForIndex_eq_some_iff
    (hrevs.trans (List.append_nil _).symm) _).mpr ⟨invertibleAll_nil, rfl⟩
  obtain ⟨d, hd, -⟩ := synthesize_apply g.atoms
    (Represents.pastCount e g (init ++ [last]) []) g.count
  refine ⟨d, ?_⟩
  rw [tryDeltaRevHead, findRevToken_head token hrevs]
  simp only [hdels, h.text, h.tombstones, h.dels, shuffleTombstones_eq, hd, Option.bind_eq_bind,
    Option.bind_some]
  rfl

/-- The character is collected with `gcGroups`: an edit of a collected group, other than the head
revision, is undone and inserted it, or is done and deleted it. -/
def Collected (e : Engine α) (g : Ledger α) (gcGroups : Finset ℕ) (k : Atom α) : Prop :=
  ∃ r ∈ e.revs, e.getHeadRevId ≠ some r.revId ∧ ∃ undoGroup ∈ r.edit.group?,
    undoGroup ∈ gcGroups ∧
      if undoGroup ∈ e.undoneGroups then k.rev = r.revId else g.effect r.revId k ≠ 0

theorem Represents.collected_iff (h : e.Represents g) {gcGroups : Finset ℕ} {k : Atom α} :
    Collected e g gcGroups k ↔ collectCount e g gcGroups k ≠ 0 := by
  obtain ⟨last, hlast, -, hhead⟩ := h.exists_getLast
  obtain ⟨init, hrevs⟩ := List.getLast?_eq_some_iff.mp hlast
  rw [collectCount, ne_eq, gcCount_eq_zero_iff]
  push Not
  rw [Collected, hhead]
  refine exists_congr fun r ↦ and_congr_right fun hr ↦ ?_
  cases hed : r.edit with
  | undo t b => simp [gcCollects, hed, Contents.group?]
  | edit p gr i d =>
    have hret : r.revId ∈ e.retainRevs ↔ last.revId = r.revId := by
      constructor
      · intro hret
        rw [hrevs] at hr
        rcases List.mem_append.mp hr with hr | hr
        · exact absurd hret (h.not_mem_retainRevs hrevs hr (by rw [hed]; rfl))
        · rw [List.mem_singleton.mp hr]
      · intro heq
        simp [retainRevs, hrevs, ← heq]
    rw [gcCollects, contribution, hed]
    by_cases hg : gr ∈ e.undoneGroups <;>
      simp [Contents.group?, hret, hg, own, and_assoc]

/-- The head revision is an undo, or inserts something, or its group is not collected and it
deletes a character that is not collected. -/
def HeadKept (e : Engine α) (g : Ledger α) (gcGroups : Finset ℕ) : Prop :=
  ∃ r, e.revs.getLast? = some r ∧
    match r.edit with
    | .undo .. => True
    | .edit _ undoGroup inserts _ => inserts.isEmpty = false ∨
      undoGroup ∉ gcGroups ∧ ∃ k ∈ g.atoms, g.effect r.revId k ≠ 0 ∧ ¬ Collected e g gcGroups k

/-- The text and the head revision are the same, and the head revision can still be looked up. -/
def KeepsHead (token : RevId → RevToken) (e e' : Engine α) : Prop :=
  e'.getHead = e.getHead ∧ e'.getHeadRevId = e.getHeadRevId ∧
    ∀ id, e.getHeadRevId = some id → ∃ d, e'.tryDeltaRevHead token (token id) = some (.ok d)

theorem Represents.headKept_iff (h : e.Represents g) {gcGroups : Finset ℕ} {init : List Revision}
    {last : Revision} (hrevs : e.revs = init ++ [last]) :
    HeadKept e g gcGroups ↔ shrinkRevision g.effect gcGroups e.retainRevs
      (unionAt (collectedLedger e g gcGroups).atoms (init ++ [last])) last ≠ none := by
  rw [ne_eq, h.shrinkRevision_last gcGroups hrevs, HeadKept, hrevs, List.getLast?_concat]
  simp only [Option.some.injEq, exists_eq_left']
  cases hed : last.edit with
  | undo t b => simp
  | edit p gr i d =>
    simp only [Contents.edit.injEq]
    constructor
    · rintro hkept ⟨_, _, _, _, ⟨rfl, rfl, rfl, rfl⟩, hi, hall⟩
      rcases hkept with hkept | ⟨hg, k, hk, hne, hcol⟩
      · rw [hkept] at hi
        cases hi
      · rw [h.collected_iff, not_not] at hcol
        exact hne (hall hg k (mem_collectedLedger.mpr ⟨hk, hcol⟩))
    · intro hnot
      by_contra hdrop
      push Not at hdrop
      obtain ⟨hi, hdrop⟩ := hdrop
      refine hnot ⟨p, gr, i, d, ⟨rfl, rfl, rfl, rfl⟩, by simpa using hi, fun hg k hk ↦ ?_⟩
      by_contra hne
      obtain ⟨hku, hzero⟩ := mem_collectedLedger.mp hk
      exact h.collected_iff.mp (hdrop hg k hku hne) hzero

/-- A collection keeps the head revision exactly when there is something left of it. -/
theorem Represents.getHeadRevId_collected (h : e.Represents g) {gcGroups : Finset ℕ} :
    (collectedEngine e g gcGroups).getHeadRevId = e.getHeadRevId ↔ HeadKept e g gcGroups := by
  obtain ⟨last, hlast, -, hhead⟩ := h.exists_getLast
  obtain ⟨init, hrevs⟩ := List.getLast?_eq_some_iff.mp hlast
  rw [h.headKept_iff hrevs, hhead, getHeadRevId, show (collectedEngine e g gcGroups).revs
    = collectedRevs e g gcGroups from rfl, collectedRevs, hrevs, survivors_append]
  simp only [survivors, List.nil_append, List.append_nil]
  cases hs : shrinkRevision g.effect gcGroups e.retainRevs
      (unionAt (collectedLedger e g gcGroups).atoms (init ++ [last])) last with
  | some r' =>
    have hid := (shrinkRevision_eq_some hs).1
    simp [hid]
  | none =>
    refine iff_of_false (fun heq ↦ ?_) (by simp)
    -- the new head is one of the older revisions
    obtain ⟨r', hr', hid⟩ := Option.map_eq_some_iff.mp heq
    rw [Option.toList_none, List.append_nil] at hr'
    obtain ⟨mid, r, post, hinit, hr⟩ := mem_survivors (List.mem_of_getLast? hr')
    have hids := h.history.ids
    rw [hrevs, List.map_append, List.nodup_append] at hids
    refine hids.2.2 r.revId (by simp [hinit]) last.revId (by simp) ?_
    rw [← (shrinkRevision_eq_some hr).1, hid]

/-- **Garbage collection and the head.** In every reachable state a collection keeps the text, and
it keeps the head revision exactly when that is an undo, inserts something, or is of a group that
is not collected and deletes a character that stays. -/
theorem ReachableGc.gc_keepsHead_iff {token : RevId → RevToken} (h : ReachableGc token e) :
    ∃ g, e.Represents g ∧ ∀ gcGroups, ∃ e', e.gc gcGroups = some e' ∧
      e'.getHead = e.getHead ∧ (KeepsHead token e e' ↔ HeadKept e g gcGroups) := by
  obtain ⟨g, x, hacc⟩ := h.accounted
  refine ⟨g, hacc.represents, fun gcGroups ↦ ?_⟩
  obtain ⟨hgc, hacc'⟩ := hacc.gc_eq gcGroups
  refine ⟨_, hgc, rfl, ?_⟩
  rw [← hacc.represents.getHeadRevId_collected]
  refine ⟨fun hkeep ↦ hkeep.2.1, fun hid ↦ ⟨rfl, hid, fun id hhead ↦ ?_⟩⟩
  obtain ⟨last, hlast, -, hhead'⟩ := hacc'.represents.exists_getLast
  obtain ⟨init, hrevs⟩ := List.getLast?_eq_some_iff.mp hlast
  rw [← hid, hhead'] at hhead
  obtain rfl := Option.some.inj hhead
  exact hacc'.represents.tryDeltaRevHead_head token hrevs

/-- The collection of a group that replaced the initial contents. -/
theorem gc_keepsHead_iff_replace : ∃ e : Engine ℕ, e.getHead = [8] ∧ ∃ g, e.Represents g ∧
    ∀ gcGroups, ∃ e', e.gc gcGroups = some e' ∧ e'.getHead = e.getHead ∧
      (KeepsHead RevId.num e e' ↔ HeadKept e g gcGroups) := by
  obtain ⟨e₀, e, hnew, hok, htext⟩ :=
    exists_replaced [8] (p := fun _ e ↦ e.getHead = [8]) (by decide +kernel)
  have h : ReachableGc RevId.num e := ⟨[7], e₀, hnew, .tail .refl (.edit 0 1 1 _ (by decide) hok)⟩
  exact ⟨e, htext, h.gc_keepsHead_iff⟩

/-- The head revision deletes the initial contents. It is dropped with its group. -/
theorem gc_loses_head : ¬ ∀ e : Engine ℕ, ReachableGc RevId.num e → ∀ gcGroups,
    ∃ e', e.gc gcGroups = some e' ∧ KeepsHead RevId.num e e' := by
  intro h
  obtain ⟨e₀, e, hnew, hok, hne⟩ := exists_replaced []
    (p := fun _ e ↦ (e.gc {1}).bind getHeadRevId ≠ e.getHeadRevId) (by decide +kernel)
  obtain ⟨e', he', -, hid, -⟩ :=
    h e ⟨[7], e₀, hnew, .tail .refl (.edit 0 1 1 _ (by decide) hok)⟩ {1}
  exact hne (by rw [he', Option.bind_some, hid])

end Engine

end EeEditor
