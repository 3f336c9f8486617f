import Mathlib.Data.Nat.Bitwise
import EeEditor.Engine.EditSpec

/-!
# What an undo does to the ledger

`Engine::compute_undo` un-applies the revisions from the first candidate on and replays them for
the new set of undone groups. On the ledger the deletions become the replay of all revisions, up
to the part `x` of the deletion counts that no revision accounts for any more: the suffix is
replayed without it.
-/

namespace EeEditor

variable {α : Type}

/-- Sets of undone groups that agree on the groups of the edits replay to the same deletions. -/
theorem replay_congr {effect : RevId → Atom α → ℕ} {groups groups' : Finset ℕ}
    {revs : List Revision} (h : ∀ r ∈ revs, ∀ gr ∈ r.edit.group?, gr ∈ groups ↔ gr ∈ groups')
    (k : Atom α) : replay effect groups revs k = replay effect groups' revs k := by
  rw [replay, replay]
  refine congrArg List.sum (List.map_congr_left fun r hr ↦ ?_)
  rw [contribution, contribution]
  cases hed : r.edit with
  | undo t b => rfl
  | edit p gr i d =>
    have hiff := h r hr gr (by rw [hed]; rfl)
    by_cases hg : gr ∈ groups
    · simp [hg, hiff.mp hg]
    · simp [hg, mt hiff.mpr hg]

namespace History

variable {u : List (Atom α)} {effect : RevId → Atom α → ℕ} {pre : List Revision}

/-- What a revision knew is known after it. -/
theorem mem_unionAt_concat {mid : List Revision} {k : Atom α} (r : Revision)
    (hk : k ∈ unionAt u mid) : k ∈ unionAt u (mid ++ [r]) := by
  obtain ⟨h1, h2⟩ := mem_unionAt.mp hk
  exact mem_unionAt.mpr ⟨h1, by rw [known_append, h2, Bool.true_or]⟩

/-- Inverting an edit takes back what it contributed, whichever the walk is. -/
theorem invert_edit {w : Finset ℕ} {mid post : List Revision} {r : Revision} {v c : Atom α → ℕ}
    (h : History u effect (mid ++ r :: post)) (invertUndos : Bool) {p gr : ℕ} {i d : Subset}
    (hr : r.edit = .edit p gr i d)
    (hc : ∀ k ∈ unionAt u (mid ++ [r]), c k = v k + contribution effect w r k) :
    Invertible effect (unionAt u (mid ++ [r])) r (c, w) ∧
      (invert effect invertUndos r (c, w)).2 = w ∧
      ∀ k ∈ unionAt u mid, (invert effect invertUndos r (c, w)).1 k = v k := by
  by_cases hg : gr ∈ w
  · refine ⟨by simp [Invertible, hr, hg], by simp [invert, hr, hg], fun k hk ↦ ?_⟩
    have hown : own r.revId k = 0 := by
      rcases h.own_cases (mem_unionAt_concat r hk) with ⟨-, h2⟩ | ⟨h1, -⟩
      · exact h2
      · rw [(mem_unionAt.mp hk).2] at h1
        cases h1
    have := hc k (mem_unionAt_concat r hk)
    simpa [invert, hr, hg, contribution, hown] using this
  · refine ⟨?_, by simp [invert, hr, hg], fun k hk ↦ ?_⟩
    · rw [Invertible, hr]
      intro _ k hk
      have := hc k hk
      rw [contribution, hr] at this
      simp only [hg, if_false] at this
      dsimp only
      omega
    · have := hc k (mem_unionAt_concat r hk)
      rw [contribution, hr] at this
      simp only [hg, if_false] at this
      simp only [invert, hr, hg, if_false]
      omega

/-- Inverting edits takes back what they contributed, for one set of undone groups. -/
theorem invertAll_false {w : Finset ℕ} : ∀ {mid post : List Revision} {b c : Atom α → ℕ}
    (_ : History u effect (pre ++ mid ++ post))
    (_ : ∀ k ∈ unionAt u (pre ++ mid), c k = b k + replay effect w mid k),
    InvertibleAll effect u false pre mid (c, w) ∧
      (invertAll effect false mid (c, w)).2 = w ∧
      ∀ k ∈ unionAt u pre, (invertAll effect false mid (c, w)).1 k = b k := by
  intro mid
  induction mid using List.reverseRecOn with
  | nil =>
    intro post b c _ hc
    rw [List.append_nil] at hc
    exact ⟨invertibleAll_nil, rfl, fun k hk ↦ by simpa using hc k hk⟩
  | append_singleton mid r ih =>
    intro post b c h hc
    have h₁ : History u effect (pre ++ mid ++ r :: post) := by simpa using h
    rw [← List.append_assoc] at hc
    rw [invertibleAll_append_singleton, invertAll_append, invertAll_singleton]
    -- before `r`, its own contribution is taken back
    have hstate : invert effect false r (c, w) = ((invert effect false r (c, w)).1, w) ∧
        Invertible effect (unionAt u (pre ++ mid ++ [r])) r (c, w) ∧
        ∀ k ∈ unionAt u (pre ++ mid),
          (invert effect false r (c, w)).1 k = b k + replay effect w mid k := by
      cases hr : r.edit with
      | undo t bx =>
        refine ⟨by simp [invert, hr], by simp [Invertible, hr], fun k hk ↦ ?_⟩
        have hval := hc k (mem_unionAt_concat r hk)
        rw [replay_append, replay_singleton, contribution, hr] at hval
        simpa [invert, hr] using hval
      | edit p gr i d =>
        have hsum : ∀ k ∈ unionAt u (pre ++ mid ++ [r]),
            c k = b k + replay effect w mid k + contribution effect w r k := fun k hk ↦ by
          rw [hc k hk, replay_append, replay_singleton, Nat.add_assoc]
        obtain ⟨hinv, hgroups, hval⟩ := invert_edit h₁ false hr hsum
        exact ⟨Prod.ext rfl hgroups, hinv, hval⟩
    obtain ⟨hpair, hinv, hval⟩ := hstate
    rw [hpair]
    obtain ⟨h1, h2, h3⟩ := ih h₁ hval
    exact ⟨⟨hinv, h1⟩, h2, h3⟩

end History

namespace Engine

/-! ## The first candidate -/

/-- The candidate is the first revision behind the last one below the lowest group. -/
theorem firstUndoCandidate_split (revs : List Revision) (lowest : ℕ) :
    ∃ pre post, revs = pre ++ post ∧ firstUndoCandidate revs lowest = pre.length ∧
      (pre = [] ∨ ∃ init r, pre = init ++ [r] ∧ r.maxUndoSoFar < lowest) ∧
      ∀ q ∈ post, lowest ≤ q.maxUndoSoFar := by
  rw [firstUndoCandidate]
  split
  · next i hi =>
    have hfind : rfindIdx (fun rev ↦ rev.maxUndoSoFar < lowest) revs
        = some (revs.length - 1 - i) := by rw [rfindIdx, hi, Option.map_some]
    obtain ⟨hlt, -⟩ := List.findIdx?_eq_some_iff_getElem.mp hi
    rw [List.length_reverse] at hlt
    obtain ⟨init, r, post, hrevs, hlen, hr, hpost⟩ := rfindIdx_eq_some hfind
    refine ⟨init ++ [r], post, hrevs, ?_, .inr ⟨init, r, rfl, of_decide_eq_true hr⟩, ?_⟩
    · rw [List.length_append, List.length_singleton]
      omega
    · exact fun q hq ↦ not_lt.mp (of_decide_eq_false (hpost q hq))
  · next hi =>
    refine ⟨[], revs, rfl, rfl, .inl rfl, fun q hq ↦ ?_⟩
    have := List.findIdx?_eq_none_iff.mp hi q (by simpa using hq)
    exact not_lt.mp (of_decide_eq_false this)

theorem firstUndoCandidate_spec {revs : List Revision} (hb : BoundsGroups revs) (lowest : ℕ) :
    ∃ pre post, revs = pre ++ post ∧ firstUndoCandidate revs lowest = pre.length ∧
      ∀ q ∈ pre, ∀ gr ∈ q.edit.group?, gr < lowest := by
  obtain ⟨pre, post, hrevs, hlen, hpre, -⟩ := firstUndoCandidate_split revs lowest
  refine ⟨pre, post, hrevs, hlen, fun q hq gr hgr ↦ ?_⟩
  rcases hpre with rfl | ⟨init, r, rfl, hr⟩
  · cases hq
  · exact (hb init r post (by rw [hrevs, List.append_assoc]; rfl) q hq gr hgr).trans_lt hr

/-- Before the first candidate no edit belongs to a toggled group. -/
theorem findFirstUndoCandidateIndex_spec {e : Engine α} (hb : BoundsGroups e.revs)
    (toggled : Finset ℕ) : ∃ pre post, e.revs = pre ++ post ∧
      e.findFirstUndoCandidateIndex toggled = pre.length ∧
      ∀ q ∈ pre, ∀ gr ∈ q.edit.group?, gr ∉ toggled := by
  rw [findFirstUndoCandidateIndex]
  split
  · next lowest hmin =>
    obtain ⟨pre, post, hrevs, hlen, hlt⟩ := firstUndoCandidate_spec hb lowest
    refine ⟨pre, post, hrevs, hlen, fun q hq gr hgr hmem ↦ ?_⟩
    exact absurd (Finset.min_le_of_eq hmem hmin) (not_le.mpr (hlt q hq gr hgr))
  · next hmin =>
    have hempty : toggled = ∅ := Finset.min_eq_top.mp hmin
    exact ⟨e.revs, [], by simp, rfl, fun q _ gr _ ↦ by simp [hempty]⟩

/-! ## The new deletions -/

variable {e : Engine α} {g : Ledger α}

theorem unionAt_nil (u : List (Atom α)) : unionAt u [] = [] :=
  List.filter_eq_nil_iff.mpr fun k _ ↦ by simp

theorem Represents.emptySubsetBeforeFirstRev_eq (h : e.Represents g) (c : Atom α → ℕ) :
    e.emptySubsetBeforeFirstRev = some (.label (unionAt g.atoms []) c) := by
  have hlabel : Subset.label (unionAt g.atoms []) c = Subset.new 0 := by
    rw [unionAt_nil]
    exact Subset.ext_counts (by simp)
  rw [hlabel, emptySubsetBeforeFirstRev]
  have hh := h.history
  cases hrevs : e.revs with
  | nil => exact absurd hrevs h.nonempty
  | cons r rest =>
    rw [hrevs] at hh
    have h₁ : History g.atoms g.effect ([] ++ r :: rest) := hh
    have henc := h₁.encodes _ _ _ rfl
    rw [Revision.Encodes] at henc
    dsimp only
    cases hr : r.edit with
    | edit p gr i d =>
      rw [hr] at henc
      obtain ⟨rfl, rfl⟩ := henc
      have hlen := Subset.lenAfterDelete_label (unionAt g.atoms ([] ++ [r])) (own r.revId)
      rw [h₁.filter_own, unionAt_nil, Subset.lenAfterDelete] at hlen
      dsimp only
      rw [hlen]
      rfl
    | undo t b =>
      rw [hr] at henc
      obtain rfl := henc
      have hlen := Subset.len_label (unionAt g.atoms ([] ++ [r])) (g.effect r.revId)
      rw [h₁.unionAt_append_undo (by rw [hr]; rfl), unionAt_nil, Subset.len] at hlen
      rw [h₁.unionAt_append_undo (by rw [hr]; rfl), unionAt_nil]
      dsimp only
      rw [hlen]
      rfl

/-- The replay from the beginning. -/
theorem Represents.deletesFromUnionForUndoneGroups_eq (h : e.Represents g) (groups : Finset ℕ) :
    e.deletesFromUnionForUndoneGroups groups
      = some (.label g.atoms (replay g.effect groups e.revs)) := by
  have hh : History g.atoms g.effect ([] ++ e.revs ++ []) := by simpa using h.history
  rw [deletesFromUnionForUndoneGroups, h.emptySubsetBeforeFirstRev_eq fun _ ↦ 0,
    Option.bind_eq_bind, Option.bind_some, hh.foldlM_reapply, List.nil_append,
    h.history.unionAt_self]
  exact congrArg some (Subset.label_congr fun k _ ↦ by simp)

/-- The deletions for the undone groups `groups`, when the revisions before the first candidate
are `pre` and `x` is the part of the counts that no revision accounts for. -/
def undoCount (e : Engine α) (g : Ledger α) (groups : Finset ℕ) (pre : List Revision)
    (x : Atom α → ℕ) (k : Atom α) : ℕ :=
  replay g.effect groups e.revs k + if known pre k then x k else 0

/-- **Undo by re-computation.** -/
theorem Represents.computeUndo_eq (h : e.Represents g) {x : Atom α → ℕ}
    (hcount : ∀ k ∈ g.atoms, g.count k = replay g.effect e.undoneGroups e.revs k + x k)
    (groups : Finset ℕ) : ∃ pre post headMax, e.revs = pre ++ post ∧
      pre.length = e.findFirstUndoCandidateIndex (symmDiff e.undoneGroups groups) ∧
      e.maxUndoGroupId = some headMax ∧
      e.computeUndo groups = some
        (⟨e.nextRevId, headMax, .undo (symmDiff e.undoneGroups groups)
          (.label g.atoms fun k ↦ g.count k ^^^ undoCount e g groups pre x k)⟩,
        .label g.atoms (undoCount e g groups pre x)) := by
  obtain ⟨pre, post, hrevs, hlen, hpre⟩ :=
    findFirstUndoCandidateIndex_spec h.bounds (symmDiff e.undoneGroups groups)
  obtain ⟨last, -, hmax, -⟩ := h.exists_getLast
  have hh := h.history
  have hself := hh.unionAt_self
  rw [hrevs] at hself
  rw [hrevs, ← List.append_nil (pre ++ post)] at hh
  -- un-apply the suffix for the old groups
  have hcount' : ∀ k ∈ unionAt g.atoms (pre ++ post), g.count k
      = replay g.effect e.undoneGroups pre k + x k + replay g.effect e.undoneGroups post k := by
    intro k hk
    rw [hcount k (mem_unionAt.mp hk).1, hrevs, replay_append]
    omega
  obtain ⟨hinv, -, hval⟩ := hh.invertAll_false hcount'
  have hbefore : e.deletesFromUnionBeforeIndex pre.length false = some (.label
      (unionAt g.atoms pre) fun k ↦ replay g.effect groups pre k + x k) := by
    rw [h.deletesFromUnionBeforeIndex_eq_some_iff hrevs]
    refine ⟨hinv, Subset.label_congr fun k hk ↦ ?_⟩
    -- the prefix has no toggled group
    have hagree : replay g.effect groups pre k = replay g.effect e.undoneGroups pre k := by
      refine replay_congr (fun r hr gr hgr ↦ ?_) k
      have := hpre r hr gr hgr
      rw [Finset.mem_symmDiff] at this
      tauto
    rw [hval k hk, hagree]
  have hslice : sliceFrom e.revs pre.length = some post := by rw [hrevs, sliceFrom_append]
  -- replay it for the new ones
  have hreplay : post.foldlM (reapply groups) (.label (unionAt g.atoms pre) fun k ↦
      replay g.effect groups pre k + x k) = some (.label (unionAt g.atoms (pre ++ post)) fun k ↦
        (if known pre k then replay g.effect groups pre k + x k else 0)
          + replay g.effect groups post k) := hh.foldlM_reapply _
  rw [hself] at hreplay
  have hundo : (Subset.label g.atoms fun k ↦ (if known pre k then
      replay g.effect groups pre k + x k else 0) + replay g.effect groups post k)
      = .label g.atoms (undoCount e g groups pre x) := by
    refine Subset.label_congr fun k hk ↦ ?_
    rw [undoCount, hrevs, replay_append]
    cases hkn : known pre k with
    | true => simp; omega
    | false =>
      have hz : replay g.effect groups pre k = 0 := by
        rw [List.append_assoc] at hh
        exact hh.replay_eq_zero hk hkn
      simp [hz]
  rw [hundo] at hreplay
  refine ⟨pre, post, last.maxUndoSoFar, hrevs, hlen.symm, hmax, ?_⟩
  rw [computeUndo]
  simp only [hlen, hbefore, hslice, hreplay, h.dels, Subset.bitxor_label, hmax,
    Option.bind_eq_bind, Option.bind_some]
  rfl

/-! ## The engine after an undo -/

/-- The ledger after a recorded undo. -/
def undoneLedger (e : Engine α) (g : Ledger α) (c : Atom α → ℕ) : Ledger α where
  atoms := g.atoms
  effect := extendEffect g.effect e.nextRevId fun k ↦ g.count k ^^^ c k
  count := c

/-- The engine after a recorded undo. -/
def undoneEngine (e : Engine α) (g : Ledger α) (groups : Finset ℕ) (headMax : ℕ)
    (c : Atom α → ℕ) : Engine α :=
  { e with
    text := visible g.atoms c
    tombstones := hidden g.atoms c
    deletesFromUnion := .label g.atoms c
    undoneGroups := groups
    revs := e.revs ++ [⟨e.nextRevId, headMax, .undo (symmDiff e.undoneGroups groups)
      (.label g.atoms fun k ↦ g.count k ^^^ c k)⟩]
    revIdCounter := e.revIdCounter + 1 }

/-- **Undo.** An undo never panics. When it does not change the deletions it only changes the set
of undone groups, otherwise it is recorded. -/
theorem Represents.undo_eq (h : e.Represents g) {x : Atom α → ℕ}
    (hcount : ∀ k ∈ g.atoms, g.count k = replay g.effect e.undoneGroups e.revs k + x k)
    (groups : Finset ℕ) : ∃ pre post headMax, e.revs = pre ++ post ∧
      pre.length = e.findFirstUndoCandidateIndex (symmDiff e.undoneGroups groups) ∧
      e.maxUndoGroupId = some headMax ∧
      ((∀ k ∈ g.atoms, g.count k = undoCount e g groups pre x k) ∧
          e.undo groups = some { e with undoneGroups := groups } ∨
        ¬ (∀ k ∈ g.atoms, g.count k = undoCount e g groups pre x k) ∧
          e.undo groups = some (undoneEngine e g groups headMax (undoCount e g groups pre x))) := by
  obtain ⟨pre, post, headMax, hrevs, hlen, hmax, hundo⟩ := h.computeUndo_eq hcount groups
  refine ⟨pre, post, headMax, hrevs, hlen, hmax, ?_⟩
  have hsilent : (Subset.label g.atoms fun k ↦ g.count k ^^^ undoCount e g groups pre x k).isEmpty
      = true ↔ ∀ k ∈ g.atoms, g.count k = undoCount e g groups pre x k := by
    rw [Subset.isEmpty_label]
    exact forall₂_congr fun k _ ↦ Nat.xor_eq_zero_iff
  by_cases hs : ∀ k ∈ g.atoms, g.count k = undoCount e g groups pre x k
  · refine .inl ⟨hs, ?_⟩
    rw [Engine.undo, hundo]
    simp only [Option.bind_eq_bind, Option.bind_some, isSilent, hsilent.mpr hs, if_true]
    rfl
  · refine .inr ⟨hs, ?_⟩
    have hs' := mt hsilent.mp hs
    rw [Engine.undo, hundo]
    simp only [Option.bind_eq_bind, Option.bind_some, isSilent, hs', Bool.false_eq_true, if_false,
      h.text, h.tombstones, h.dels, shuffle_eq]
    rfl

theorem Represents.withUndone (h : e.Represents g) (groups : Finset ℕ) :
    ({ e with undoneGroups := groups } : Engine α).Represents g :=
  ⟨h.history, h.first, h.dels, h.text, h.tombstones, h.fresh, h.bounds⟩

theorem Represents.undone (h : e.Represents g) (groups : Finset ℕ) {headMax : ℕ}
    (hmax : e.maxUndoGroupId = some headMax) (c : Atom α → ℕ) :
    (undoneEngine e g groups headMax c).Represents (undoneLedger e g c) := by
  obtain ⟨last, hlast, hmax', -⟩ := h.exists_getLast
  rw [hmax'] at hmax
  obtain rfl := Option.some.inj hmax
  have hown : ∀ k ∈ g.atoms, k.rev ≠ e.nextRevId := fun k hk ↦
    of_decide_eq_false (h.history.isOwn_eq_false h.nextRevId_not_mem hk)
  refine ⟨?_, h.first_append _, rfl, rfl, rfl, ?_, ?_⟩
  · refine h.history.extend h.history.nodup ?_ rfl h.nextRevId_not_mem
      (fun k hk hkid ↦ absurd hkid (hown k hk)) (fun k hk hkid ↦ absurd hkid (hown k hk)) rfl
    exact List.filter_eq_self.mpr fun k hk ↦ by simp [hown k hk]
  · intro r hr hs
    rcases List.mem_append.mp hr with hr | hr
    · exact Nat.lt_succ_of_lt (h.fresh r hr hs)
    · obtain rfl := List.mem_singleton.mp hr
      exact Nat.lt_succ_self _
  · refine h.bounds.append (fun q hq gr hgr ↦ h.bounds.le_getLast hlast q hq gr hgr) ?_
    intro gr hgr
    cases hgr

end Engine

end EeEditor
