import Mathlib.Logic.Relation
import EeEditor.Engine.UndoSpec

/-!
# Edits and undos: undo by re-computation is exact

Runs of an engine that is edited and undone, without garbage collection and without merges. All
along such a run the deletions are the replay of all revisions for the current set of undone
groups (`Engine.Exact`), so the shortcut of `compute_undo` computes the same as the replay from the
beginning.
-/

namespace EeEditor

variable {α : Type}

namespace Engine

/-! ## The start -/

/-- The ledger of the empty document. -/
def emptyLedger : Ledger α := ⟨[], fun _ _ ↦ 0, fun _ ↦ 0⟩

theorem represents_empty : (empty : Engine α).Represents emptyLedger := by
  have hlabel : Subset.new 0 = Subset.label ([] : List (Atom α)) fun _ ↦ 0 :=
    Subset.ext_counts (by simp)
  have hsplit : ∀ pre (r : Revision) post, (empty : Engine α).revs = pre ++ r :: post →
      pre = [] ∧ r = ⟨⟨0, 0, 0⟩, 0, .undo ∅ (Subset.new 0)⟩ ∧ post = [] := by
    intro pre r post h
    cases pre with
    | nil =>
      obtain ⟨h1, h2⟩ := List.cons.inj h
      exact ⟨rfl, h1.symm, h2.symm⟩
    | cons q pre => simp [empty] at h
  refine ⟨⟨List.nodup_nil, by simp [empty], by simp [emptyLedger], ?_, ?_⟩, ⟨0, _, [], rfl⟩,
    hlabel, rfl, rfl, ?_, ?_⟩
  · intro pre r post h
    obtain ⟨rfl, rfl, rfl⟩ := hsplit pre r post h
    exact hlabel
  · intro _ _ _ _ k hk
    cases hk
  · intro r hr _
    obtain rfl := List.mem_singleton.mp hr
    exact Nat.zero_lt_one
  · intro pre r post h q hq
    obtain ⟨rfl, rfl, rfl⟩ := hsplit pre r post h
    obtain rfl := List.mem_singleton.mp hq
    intro gr hgr
    cases hgr

theorem wellFormed_simpleEdit_nil {text : List α} (h : text ≠ []) :
    (Delta.simpleEdit 0 0 text 0).WellFormed := by
  have hempty : text.isEmpty = false := by simpa using h
  simp [Delta.WellFormed, Delta.simpleEdit, hempty, Ascending, h]

/-- The head revision is found by its own token. -/
theorem findRevToken_head (token : RevId → RevToken) {e : Engine α} {pre : List Revision}
    {r : Revision} (h : e.revs = pre ++ [r]) :
    e.findRevToken token (token r.revId) = some pre.length := by
  rw [findRevToken, h, ← List.append_nil (pre ++ [r])]
  exact rfindIdx_append_cons pre (by simp) (by simp)

/-- A document with initial contents: the empty one, or the empty one with one edit. -/
theorem new_eq (token : RevId → RevToken) (text : List α) :
    ∃ e, Engine.new token text = some e ∧ (e = empty ∨ ∃ d u', d.WellFormed ∧
      Edited empty emptyLedger 0 0 d (empty : Engine α).revs [] u' e) := by
  rw [Engine.new]
  by_cases ht : text = []
  · rw [ht]
    exact ⟨empty, rfl, .inl rfl⟩
  · have hrevs : (empty : Engine α).revs
      = [] ++ [⟨⟨0, 0, 0⟩, 0, .undo ∅ (Subset.new 0)⟩] ++ [] := rfl
    obtain ⟨u', e, hok, hed⟩ := represents_empty.tryEditRev_eq hrevs
      (findRevToken_head token (List.nil_append _).symm) invertibleAll_nil
        (wellFormed_simpleEdit_nil ht)
      rfl 0 0
    refine ⟨e, ?_, .inr ⟨_, u', wellFormed_simpleEdit_nil ht, hed⟩⟩
    rw [if_neg (by simpa using ht)]
    change (empty : Engine α).editRev token 0 0 (token ⟨0, 0, 0⟩) _ = _
    rw [editRev, hok]
    rfl

/-! ## Runs -/

/-- One edit, or one undo that is `allowed`. -/
inductive EditUndo (token : RevId → RevToken) (allowed : Engine α → Finset ℕ → Prop) :
    Engine α → Engine α → Prop
  | edit {e e' : Engine α} (priority undoGroup : ℕ) (baseRev : RevToken) (d : Delta α)
      (hd : d.WellFormed) (h : e.tryEditRev token priority undoGroup baseRev d = some (.ok e')) :
      EditUndo token allowed e e'
  | undo {e e' : Engine α} (groups : Finset ℕ) (hallowed : allowed e groups)
      (h : e.undo groups = some e') : EditUndo token allowed e e'

/-- Reachable from some initial contents by edits and undos. -/
def Reachable (token : RevId → RevToken) (e : Engine α) : Prop :=
  ∃ text e₀, Engine.new token text = some e₀ ∧
    Relation.ReflTransGen (EditUndo token fun _ _ ↦ True) e₀ e

/-- The deletions are the replay of all revisions for the undone groups. -/
structure Exact (e : Engine α) (g : Ledger α) : Prop where
  represents : e.Represents g
  count : ∀ k ∈ g.atoms, g.count k = replay g.effect e.undoneGroups e.revs k

variable {e e' : Engine α} {g : Ledger α}

theorem exact_empty : Exact (empty : Engine α) emptyLedger :=
  ⟨represents_empty, by simp [emptyLedger]⟩

/-- The deletions are the replay of all revisions, up to a part `x` of the counts that no revision
accounts for. -/
structure Accounted (e : Engine α) (g : Ledger α) (x : Atom α → ℕ) : Prop where
  represents : e.Represents g
  count : ∀ k ∈ g.atoms, g.count k = replay g.effect e.undoneGroups e.revs k + x k

theorem Exact.accounted (h : Exact e g) : Accounted e g fun _ ↦ 0 := ⟨h.represents, h.count⟩

/-- An edit adds its own contribution. -/
theorem Accounted.edited {x : Atom α → ℕ} (h : Accounted e g x) {priority undoGroup : ℕ}
    {d : Delta α} {pre post : List Revision} {u' : List (Atom α)}
    (hed : Edited e g priority undoGroup d pre post u' e') :
    e' = e ∨ ∃ headMax, e' = editedEngine e g priority undoGroup headMax u'
        (deletedBy d (baseAtoms e g pre post)) ∧
      Accounted e' (editedLedger e g undoGroup u' (deletedBy d (baseAtoms e g pre post)))
        fun k ↦ if own e.nextRevId k = 0 then x k else 0 := by
  rcases hed.cases h.represents with ⟨rfl, -, -⟩ | ⟨headMax, hmax, rfl, hrep⟩
  · exact .inl rfl
  · refine .inr ⟨headMax, rfl, hrep, fun k hk ↦ ?_⟩
    have hmem : own e.nextRevId k = 0 → k ∈ g.atoms := fun hown ↦ by
      rw [← hed.old]
      refine List.mem_filter.mpr ⟨hk, ?_⟩
      rw [own_eq_isOwn] at hown
      cases hi : isOwn e.nextRevId k <;> simp_all
    have hreplay := replay_edited h.represents e.undoneGroups priority undoGroup headMax u'
      (fun k hk ↦ deletedBy_eq_zero_of_own h.represents d pre post hk) k
    refine Eq.trans ?_ (congrArg (· + _) hreplay.symm)
    change editCount e g undoGroup _ k = _
    rw [editCount]
    split
    · next hown =>
      rw [h.count k (hmem hown)]
      omega
    · rfl

theorem Exact.edited (h : Exact e g) {priority undoGroup : ℕ} {d : Delta α}
    {pre post : List Revision} {u' : List (Atom α)}
    (hed : Edited e g priority undoGroup d pre post u' e') :
    e' = e ∨ ∃ headMax, e' = editedEngine e g priority undoGroup headMax u'
        (deletedBy d (baseAtoms e g pre post)) ∧
      Exact e' (editedLedger e g undoGroup u' (deletedBy d (baseAtoms e g pre post))) := by
  rcases h.accounted.edited hed with rfl | ⟨headMax, he', hacc⟩
  · exact .inl rfl
  · exact .inr ⟨headMax, he', hacc.represents, fun k hk ↦ by simpa using hacc.count k hk⟩

/-- Edits replay the same with an undo behind them. -/
theorem replay_undone (h : e.Represents g) (groups groups' : Finset ℕ) (headMax : ℕ)
    (c : Atom α → ℕ) {k : Atom α} (hk : k ∈ g.atoms) :
    replay (undoneLedger e g c).effect groups' (undoneEngine e g groups headMax c).revs k
      = replay g.effect groups' e.revs k := by
  have hne : k.rev ≠ e.nextRevId :=
    of_decide_eq_false (h.history.isOwn_eq_false h.nextRevId_not_mem hk)
  rw [undoneEngine, undoneLedger, replay_append, replay_singleton, contribution, Nat.add_zero,
    replay_extendEffect h.nextRevId_not_mem groups' hne]

/-- What an undo leads to: the replay for the new groups, with the part of `x` on the atoms before
the first candidate. -/
theorem Accounted.undo_cases {x : Atom α → ℕ} (h : Accounted e g x) (groups : Finset ℕ) :
    ∃ pre post, e.revs = pre ++ post ∧
      pre.length = e.findFirstUndoCandidateIndex (symmDiff e.undoneGroups groups) ∧
      ((∀ k ∈ g.atoms, g.count k = undoCount e g groups pre x k) ∧
          e.undo groups = some { e with undoneGroups := groups } ∧
          Accounted { e with undoneGroups := groups } g (fun k ↦ if known pre k then x k else 0) ∨
        ¬ (∀ k ∈ g.atoms, g.count k = undoCount e g groups pre x k) ∧ ∃ headMax,
          e.maxUndoGroupId = some headMax ∧
          e.undo groups = some (undoneEngine e g groups headMax (undoCount e g groups pre x)) ∧
          Accounted (undoneEngine e g groups headMax (undoCount e g groups pre x))
            (undoneLedger e g (undoCount e g groups pre x))
            fun k ↦ if known pre k then x k else 0) := by
  obtain ⟨pre, post, headMax, hrevs, hlen, hmax, hundo⟩ := h.represents.undo_eq h.count groups
  refine ⟨pre, post, hrevs, hlen, ?_⟩
  rcases hundo with ⟨hsame, hundo⟩ | ⟨hne, hundo⟩
  · exact .inl ⟨hsame, hundo, h.represents.withUndone groups, hsame⟩
  · refine .inr ⟨hne, headMax, hmax, hundo, h.represents.undone groups hmax _, fun k hk ↦ ?_⟩
    rw [show (undoneEngine e g groups headMax (undoCount e g groups pre x)).undoneGroups = groups
      from rfl, replay_undone h.represents groups groups headMax _ hk]
    rfl

/-- What an undo leads to, when the deletions are exact: the replay for the new groups. -/
theorem Exact.undo_cases (h : Exact e g) (groups : Finset ℕ) :
    (∀ k ∈ g.atoms, g.count k = replay g.effect groups e.revs k) ∧
        e.undo groups = some { e with undoneGroups := groups } ∧
        Exact { e with undoneGroups := groups } g ∨
      ¬ (∀ k ∈ g.atoms, g.count k = replay g.effect groups e.revs k) ∧ ∃ headMax,
        e.maxUndoGroupId = some headMax ∧
        e.undo groups = some (undoneEngine e g groups headMax (replay g.effect groups e.revs)) ∧
        Exact (undoneEngine e g groups headMax (replay g.effect groups e.revs))
          (undoneLedger e g (replay g.effect groups e.revs)) := by
  obtain ⟨pre, post, -, -, hundo⟩ := h.accounted.undo_cases groups
  have hcount : undoCount e g groups pre (fun _ ↦ 0) = replay g.effect groups e.revs := by
    funext k
    simp [undoCount]
  rw [hcount] at hundo
  rcases hundo with ⟨hsame, hundo, hacc⟩ | ⟨hne, headMax, hmax, hundo, hacc⟩
  · exact .inl ⟨hsame, hundo, hacc.represents, hsame⟩
  · refine .inr ⟨hne, headMax, hmax, hundo, hacc.represents, fun k hk ↦ ?_⟩
    simpa using hacc.count k hk

/-- The text after an undo, and what later undos will replay to. -/
theorem Exact.undo_eq (h : Exact e g) (groups : Finset ℕ) : ∃ e' g', e.undo groups = some e' ∧
    Exact e' g' ∧ g'.atoms = g.atoms ∧
    e'.text = visible g.atoms (replay g.effect groups e.revs) ∧
    ∀ groups', ∀ k ∈ g.atoms,
      replay g'.effect groups' e'.revs k = replay g.effect groups' e.revs k := by
  rcases h.undo_cases groups with ⟨hsame, hundo, hex⟩ | ⟨-, headMax, -, hundo, hex⟩
  · refine ⟨_, g, hundo, hex, rfl, ?_, fun _ _ _ ↦ rfl⟩
    rw [← visible_congr hsame]
    exact h.represents.text
  · exact ⟨_, _, hundo, hex, rfl, rfl, fun groups' k hk ↦
      replay_undone h.represents groups groups' headMax _ hk⟩

theorem Exact.step {token : RevId → RevToken} {allowed : Engine α → Finset ℕ → Prop}
    (h : Exact e g) (hs : EditUndo token allowed e e') : ∃ g', Exact e' g' := by
  cases hs with
  | edit priority undoGroup baseRev d hd hok =>
    obtain ⟨pre, r, post, u', -, -, hed⟩ := h.represents.tryEditRev_ok hd hok
    rcases h.edited hed with rfl | ⟨headMax, -, hex⟩
    · exact ⟨g, h⟩
    · exact ⟨_, hex⟩
  | undo groups _ hok =>
    obtain ⟨e₁, g₁, hundo, hex, -⟩ := h.undo_eq groups
    rw [hok] at hundo
    obtain rfl := Option.some.inj hundo
    exact ⟨g₁, hex⟩

theorem exact_new {token : RevId → RevToken} {text : List α}
    (h : Engine.new token text = some e) : ∃ g, Exact e g := by
  obtain ⟨e₀, he₀, hcases⟩ := new_eq token text
  rw [h] at he₀
  obtain rfl := Option.some.inj he₀
  rcases hcases with rfl | ⟨d, u', hd, hed⟩
  · exact ⟨_, exact_empty⟩
  · rcases exact_empty.edited hed with rfl | ⟨headMax, -, hex⟩
    · exact ⟨_, exact_empty⟩
    · exact ⟨_, hex⟩

theorem Reachable.exact {token : RevId → RevToken} (h : Reachable token e) : ∃ g, Exact e g := by
  obtain ⟨text, e₀, hnew, hrun⟩ := h
  induction hrun with
  | refl => exact exact_new hnew
  | tail _ hs ih =>
    obtain ⟨g, hg⟩ := ih
    exact hg.step hs

/-! ## Undo by re-computation -/

/-- **Undo by re-computation is exact.** In every reachable state the deletions are the replay of
all revisions from scratch, `compute_undo` returns that replay for every set of groups, and of two
undos only the second one counts. -/
theorem Reachable.undo_exact {token : RevId → RevToken} (h : Reachable token e) :
    e.deletesFromUnionForUndoneGroups e.undoneGroups = some e.deletesFromUnion ∧
    (∀ groups, ∃ rev dels, e.computeUndo groups = some (rev, dels) ∧
      e.deletesFromUnionForUndoneGroups groups = some dels) ∧
    ∀ a b, ∃ e₁ e₂ e₃, e.undo a = some e₁ ∧ e₁.undo b = some e₂ ∧ e.undo b = some e₃ ∧
      e₂.getHead = e₃.getHead := by
  obtain ⟨g, hg⟩ := h.exact
  refine ⟨?_, fun groups ↦ ?_, fun a b ↦ ?_⟩
  · rw [hg.represents.deletesFromUnionForUndoneGroups_eq, hg.represents.dels]
    exact congrArg some (Subset.label_congr fun k hk ↦ (hg.count k hk).symm)
  · obtain ⟨pre, post, headMax, -, -, -, hundo⟩ := hg.represents.computeUndo_eq (x := fun _ ↦ 0)
      (fun k hk ↦ by rw [hg.count k hk, Nat.add_zero]) groups
    refine ⟨_, _, hundo, ?_⟩
    rw [hg.represents.deletesFromUnionForUndoneGroups_eq]
    exact congrArg some (Subset.label_congr fun k _ ↦ by simp [undoCount])
  · obtain ⟨e₁, g₁, h₁, hex₁, hatoms, -, hreplay⟩ := hg.undo_eq a
    obtain ⟨e₂, g₂, h₂, -, -, htext₂, -⟩ := hex₁.undo_eq b
    obtain ⟨e₃, g₃, h₃, -, -, htext₃, -⟩ := hg.undo_eq b
    refine ⟨e₁, e₂, e₃, h₁, h₂, h₃, ?_⟩
    rw [getHead, getHead, htext₂, htext₃, hatoms]
    exact visible_congr fun k hk ↦ hreplay b k hk

/-- What is evaluated of an engine whose initial contents are replaced. -/
theorem exists_replaced (s : List ℕ) {p : Engine ℕ → Engine ℕ → Prop}
    (h : ∃ e₀ ∈ Engine.new RevId.num [7],
      ∃ r ∈ e₀.tryEditRev RevId.num 0 1 1 (Delta.simpleEdit 0 1 s 1), ∃ e ∈ r.toOption, p e₀ e) :
    ∃ e₀ e, Engine.new RevId.num [7] = some e₀ ∧
      e₀.tryEditRev RevId.num 0 1 1 (Delta.simpleEdit 0 1 s 1) = some (.ok e) ∧ p e₀ e := by
  obtain ⟨e₀, hnew, r, hr, e, he, hp⟩ := h
  cases r with
  | error => cases he
  | ok e' =>
    obtain rfl : e' = e := Option.some.inj he
    exact ⟨e₀, e', hnew, hr, hp⟩

/-- The initial contents, undone. -/
theorem undo_exact_undone : ∃ e : Engine ℕ, e.getHead = [] ∧ e.undoneGroups = {0} ∧
    e.deletesFromUnionForUndoneGroups e.undoneGroups = some e.deletesFromUnion ∧
    (∀ groups, ∃ rev dels, e.computeUndo groups = some (rev, dels) ∧
      e.deletesFromUnionForUndoneGroups groups = some dels) ∧
    ∀ a b, ∃ e₁ e₂ e₃, e.undo a = some e₁ ∧ e₁.undo b = some e₂ ∧ e.undo b = some e₃ ∧
      e₂.getHead = e₃.getHead := by
  obtain ⟨e, h, htext, hw⟩ : ∃ e : Engine ℕ, Reachable RevId.num e ∧ e.getHead = [] ∧
      e.undoneGroups = {0} :=
    ⟨_, ⟨[7], _, rfl, .tail .refl (.undo {0} trivial rfl)⟩, rfl, rfl⟩
  exact ⟨e, htext, hw, h.undo_exact⟩

end Engine

end EeEditor
