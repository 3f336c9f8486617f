import Mathlib.Algebra.Order.BigOperators.Group.List
import EeEditor.Engine.UndoSpec

/-!
# What garbage collection does to the ledger

`Engine::gc` counts what the collected revisions contribute to the deletions, removes the atoms
with a positive count from the union string, and drops the revisions that have lost all of their
atoms. On the ledger it is a filter of the atoms and of the revisions: the effects and the counts
of the atoms that are left do not change.
-/

namespace EeEditor

variable {α : Type}

/-! ## The collected atoms -/

/-- The characters of a revision are collected: it is an edit of a collected group, and it is not
retained. -/
def gcCollects (gcGroups : Finset ℕ) (retainRevs : List RevId) (r : Revision) : Bool :=
  match r.edit with
  | .edit _ undoGroup _ _ => decide (r.revId ∉ retainRevs ∧ undoGroup ∈ gcGroups)
  | .undo .. => false

/-- How often the collected revisions delete an atom. -/
def gcCount (effect : RevId → Atom α → ℕ) (undoneGroups gcGroups : Finset ℕ)
    (retainRevs : List RevId) (revs : List Revision) (k : Atom α) : ℕ :=
  (revs.map fun r ↦
    if gcCollects gcGroups retainRevs r then contribution effect undoneGroups r k else 0).sum

section

variable {effect : RevId → Atom α → ℕ} {undoneGroups gcGroups : Finset ℕ}
  {retainRevs : List RevId} {revs : List Revision} {k : Atom α}

theorem gcCount_le_replay : gcCount effect undoneGroups gcGroups retainRevs revs k
    ≤ replay effect undoneGroups revs k := by
  refine List.sum_le_sum fun r _ ↦ ?_
  split
  · exact le_rfl
  · exact Nat.zero_le _

theorem gcCount_eq_zero_iff : gcCount effect undoneGroups gcGroups retainRevs revs k = 0 ↔
    ∀ r ∈ revs, gcCollects gcGroups retainRevs r = true →
      contribution effect undoneGroups r k = 0 := by
  rw [gcCount, List.sum_eq_zero_iff_forall_eq_nat]
  simp only [List.mem_map, forall_exists_index, and_imp, forall_apply_eq_imp_iff₂]
  refine forall₂_congr fun r _ ↦ ?_
  cases gcCollects gcGroups retainRevs r <;> simp

end

namespace History

variable {u : List (Atom α)} {effect : RevId → Atom α → ℕ} {pre post : List Revision}
  {r : Revision} {undoneGroups gcGroups : Finset ℕ} {retainRevs : List RevId}

/-- One step of the loop that collects the atoms. -/
theorem gcDelsStep_eq (h : History u effect (pre ++ r :: post)) (c : Atom α → ℕ) :
    Engine.gcDelsStep undoneGroups gcGroups retainRevs (.label (unionAt u pre) c) r
      = some (.label (unionAt u (pre ++ [r])) fun k ↦ (if known pre k then c k else 0)
          + if gcCollects gcGroups retainRevs r then contribution effect undoneGroups r k
            else 0) := by
  have henc := h.encodes _ _ _ rfl
  have hreapply := @reapply_eq _ _ _ _ _ _ undoneGroups h c
  rw [Engine.gcDelsStep, gcCollects]
  rw [Engine.reapply] at hreapply
  rw [Revision.Encodes] at henc
  cases hr : r.edit with
  | undo toggled bitxor =>
    rw [h.unionAt_append_undo (by rw [hr]; rfl)]
    refine congrArg some (Subset.label_congr fun k hk ↦ ?_)
    simp [(mem_unionAt.mp hk).2]
  | edit priority undoGroup inserts deletes =>
    rw [hr] at henc hreapply
    obtain ⟨rfl, rfl⟩ := henc
    dsimp only at hreapply ⊢
    by_cases hc : r.revId ∉ retainRevs ∧ undoGroup ∈ gcGroups
    · -- a collected edit is replayed
      rw [if_pos hc, hreapply]
      simp [hc]
    · rw [if_neg hc, ← h.filter_own, Subset.transformExpand_or_skip]
      refine congrArg some (Subset.label_congr fun k hk ↦ ?_)
      rcases h.own_cases hk with ⟨h1, h2⟩ | ⟨h1, h2⟩ <;> simp [hc, h1, h2]

/-- The loop that collects the atoms. -/
theorem foldlM_gcDelsStep {mid pre : List Revision} (h : History u effect (pre ++ mid ++ post))
    (c : Atom α → ℕ) :
    mid.foldlM (Engine.gcDelsStep undoneGroups gcGroups retainRevs) (.label (unionAt u pre) c)
      = some (.label (unionAt u (pre ++ mid)) fun k ↦ (if known pre k then c k else 0)
          + gcCount effect undoneGroups gcGroups retainRevs mid k) := by
  refine foldlM_add (fun h c ↦ h.gcDelsStep_eq c) (fun h hk hnot ↦ ?_) h c
  rw [h.contribution_eq_zero hk hnot, ite_self]

end History

/-! ## The revisions that are left -/

/-- What is left of a revision, when `u` is what is left of the union string after it. -/
def shrinkRevision (effect : RevId → Atom α → ℕ) (gcGroups : Finset ℕ) (retainRevs : List RevId)
    (u : List (Atom α)) (r : Revision) : Option Revision :=
  match r.edit with
  | .edit priority undoGroup _ _ =>
    if !(Subset.label u (own r.revId)).isEmpty
        || (!decide (undoGroup ∈ gcGroups) && !(Subset.label u (effect r.revId)).isEmpty) then
      some ⟨r.revId, r.maxUndoSoFar,
        .edit priority undoGroup (.label u (own r.revId)) (.label u (effect r.revId))⟩
    else none
  | .undo toggledGroups _ =>
    if r.revId ∈ retainRevs then
      some ⟨r.revId, r.maxUndoSoFar,
        .undo (toggledGroups \ gcGroups) (.label u (effect r.revId))⟩
    else none

/-- What is left of the revisions `revs` after `pre`, when `u` is what is left of the union
string. -/
def survivors (effect : RevId → Atom α → ℕ) (gcGroups : Finset ℕ) (retainRevs : List RevId)
    (u : List (Atom α)) : List Revision → List Revision → List Revision
  | _, [] => []
  | pre, r :: revs =>
    (shrinkRevision effect gcGroups retainRevs (unionAt u (pre ++ [r])) r).toList
      ++ survivors effect gcGroups retainRevs u (pre ++ [r]) revs

section

variable {effect : RevId → Atom α → ℕ} {gcGroups : Finset ℕ} {retainRevs : List RevId}
  {u : List (Atom α)}

theorem survivors_append (effect : RevId → Atom α → ℕ) (gcGroups : Finset ℕ)
    (retainRevs : List RevId) (u : List (Atom α)) : ∀ (revs pre revs' : List Revision),
    survivors effect gcGroups retainRevs u pre (revs ++ revs')
      = survivors effect gcGroups retainRevs u pre revs
        ++ survivors effect gcGroups retainRevs u (pre ++ revs) revs' := by
  intro revs
  induction revs with
  | nil => intro pre revs'; simp [survivors]
  | cons r revs ih => intro pre revs'; simp [survivors, ih]

/-- What is left of a revision keeps its identity. -/
theorem shrinkRevision_eq_some {r r' : Revision}
    (h : shrinkRevision effect gcGroups retainRevs u r = some r') :
    r'.revId = r.revId ∧ r'.maxUndoSoFar = r.maxUndoSoFar ∧ r'.edit.group? = r.edit.group? ∧
      r'.edit.isEdit = r.edit.isEdit ∧ r'.Encodes u (effect r.revId) := by
  rw [shrinkRevision] at h
  split at h
  · next hr =>
    split at h
    · obtain rfl := Option.some.inj h
      simp [hr, Contents.group?, Contents.isEdit, Revision.Encodes]
    · cases h
  · next hr =>
    split at h
    · obtain rfl := Option.some.inj h
      simp [hr, Contents.group?, Contents.isEdit, Revision.Encodes]
    · cases h

/-- A revision that is left splits the old revisions. -/
theorem survivors_eq_append_cons : ∀ {revs pre pre' post' : List Revision} {r' : Revision},
    survivors effect gcGroups retainRevs u pre revs = pre' ++ r' :: post' →
    ∃ mid r post, revs = mid ++ r :: post ∧
      shrinkRevision effect gcGroups retainRevs (unionAt u (pre ++ mid ++ [r])) r = some r' ∧
      pre' = survivors effect gcGroups retainRevs u pre mid ∧
      post' = survivors effect gcGroups retainRevs u (pre ++ mid ++ [r]) post := by
  intro revs
  induction revs with
  | nil => intro pre pre' post' r' h; simp [survivors] at h
  | cons r revs ih =>
    intro pre pre' post' r' h
    rw [survivors] at h
    cases hr : shrinkRevision effect gcGroups retainRevs (unionAt u (pre ++ [r])) r with
    | none =>
      rw [hr] at h
      obtain ⟨mid, s, post, rfl, hs, hpre', hpost'⟩ := ih h
      exact ⟨r :: mid, s, post, rfl, by simpa using hs, by simp [survivors, hr, hpre'],
        by simpa using hpost'⟩
    | some r₁ =>
      rw [hr] at h
      cases pre' with
      | nil =>
        obtain ⟨rfl, rfl⟩ := List.cons.inj h
        exact ⟨[], r, revs, rfl, by simpa using hr, rfl, by simp⟩
      | cons q pre' =>
        obtain ⟨rfl, htail⟩ := List.cons.inj h
        obtain ⟨mid, s, post, rfl, hs, hpre', hpost'⟩ := ih htail
        exact ⟨r :: mid, s, post, rfl, by simpa using hs, by simp [survivors, hr, hpre'],
          by simpa using hpost'⟩

theorem mem_survivors {pre revs : List Revision} {r' : Revision}
    (h : r' ∈ survivors effect gcGroups retainRevs u pre revs) : ∃ mid r post,
      revs = mid ++ r :: post ∧
      shrinkRevision effect gcGroups retainRevs (unionAt u (pre ++ mid ++ [r])) r = some r' := by
  obtain ⟨pre', post', heq⟩ := List.append_of_mem h
  obtain ⟨mid, r, post, hrevs, hr, -⟩ := survivors_eq_append_cons heq
  exact ⟨mid, r, post, hrevs, hr⟩

/-- What revisions keep when they shrink is kept in order. -/
theorem survivors_map_sublist {β : Type} (f : Revision → β)
    (hf : ∀ u r r', shrinkRevision effect gcGroups retainRevs u r = some r' → f r' = f r) :
    ∀ revs pre : List Revision,
      ((survivors effect gcGroups retainRevs u pre revs).map f).Sublist (revs.map f) := by
  intro revs
  induction revs with
  | nil => intro pre; exact List.Sublist.slnil
  | cons r revs ih =>
    intro pre
    rw [survivors]
    cases hr : shrinkRevision effect gcGroups retainRevs (unionAt u (pre ++ [r])) r with
    | none => exact (ih _).cons _
    | some r' =>
      have hfr := hf _ _ _ hr
      simpa [hfr] using ih (pre ++ [r])

theorem survivors_revIds_sublist (revs pre : List Revision) :
    ((survivors effect gcGroups retainRevs u pre revs).map Revision.revId).Sublist
      (revs.map Revision.revId) :=
  survivors_map_sublist Revision.revId (fun _ _ _ h ↦ (shrinkRevision_eq_some h).1) revs pre

end

namespace History

variable {u u' : List (Atom α)} {effect : RevId → Atom α → ℕ} {pre post revs : List Revision}
  {r : Revision} {gcGroups : Finset ℕ} {retainRevs : List RevId}

/-- The revision of an atom that is left is left. -/
theorem known_survivors (h : History u effect (pre ++ post)) (gcGroups : Finset ℕ)
    (retainRevs : List RevId) (hsub : ∀ k ∈ u', k ∈ u)
    {k : Atom α} (hk : k ∈ u') :
    known (survivors effect gcGroups retainRevs u' [] pre) k = known pre k := by
  rw [Bool.eq_iff_iff, known, known, decide_eq_true_iff, decide_eq_true_iff]
  refine ⟨fun hmem ↦ (survivors_revIds_sublist _ _).subset hmem, fun hmem ↦ ?_⟩
  obtain ⟨r, hr, hid⟩ := List.mem_map.mp hmem
  obtain ⟨mid, rest, rfl⟩ := List.append_of_mem hr
  obtain ⟨s, hs, hsid, hedit⟩ := h.inserted k (hsub k hk)
  have heq : s = r := List.inj_on_of_nodup_map h.ids hs (by simp) (by rw [hsid, hid])
  subst heq
  have hkept : ∃ r', shrinkRevision effect gcGroups retainRevs (unionAt u' (mid ++ [s])) s
      = some r' := by
    rw [shrinkRevision]
    cases hed : s.edit with
    | undo t b => rw [hed] at hedit; cases hedit
    | edit p gr i d =>
      have hne : (Subset.label (unionAt u' (mid ++ [s])) (own s.revId)).isEmpty = false := by
        rw [Bool.eq_false_iff, ne_eq, Subset.isEmpty_label]
        intro hall
        have := hall k (mem_unionAt.mpr ⟨hk, by simp [hid]⟩)
        simp [own, hid] at this
      simp [hne]
  obtain ⟨r', hr'⟩ := hkept
  refine List.mem_map.mpr ⟨r', ?_, by rw [(shrinkRevision_eq_some hr').1, hid]⟩
  rw [survivors_append, survivors]
  simp [hr']

theorem unionAt_survivors (h : History u effect (pre ++ post)) (gcGroups : Finset ℕ)
    (retainRevs : List RevId) (hsub : ∀ k ∈ u', k ∈ u) :
    unionAt u' (survivors effect gcGroups retainRevs u' [] pre) = unionAt u' pre :=
  List.filter_congr fun _ hk ↦ h.known_survivors gcGroups retainRevs hsub hk

/-- What is left is a history of the atoms that are left, with the same effects. -/
theorem collect (h : History u effect revs) (gcGroups : Finset ℕ) (retainRevs : List RevId)
    (hu' : u'.Sublist u) :
    History u' effect (survivors effect gcGroups retainRevs u' [] revs) := by
  have hsub : ∀ k ∈ u', k ∈ u := fun k hk ↦ hu'.subset hk
  refine ⟨h.nodup.sublist hu', h.ids.sublist (survivors_revIds_sublist _ _), ?_, ?_, ?_⟩
  · intro k hk
    obtain ⟨r, hr, hid, hedit⟩ := h.inserted k (hsub k hk)
    have h₁ : History u effect (revs ++ []) := by simpa using h
    have hknown : known revs k = true := decide_eq_true (List.mem_map.mpr ⟨r, hr, hid⟩)
    rw [← h₁.known_survivors gcGroups retainRevs hsub hk, known,
      decide_eq_true_iff] at hknown
    obtain ⟨r', hr', hid'⟩ := List.mem_map.mp hknown
    obtain ⟨mid, s, post, rfl, hs⟩ := mem_survivors hr'
    obtain ⟨hsid, -, -, hse, -⟩ := shrinkRevision_eq_some hs
    have heq : s = r := List.inj_on_of_nodup_map h.ids (by simp) hr (by rw [← hsid, hid', hid])
    exact ⟨r', hr', hid', by rw [hse, heq, hedit]⟩
  · intro pre' r' post' heq
    obtain ⟨mid, r, post, rfl, hr, rfl, -⟩ := survivors_eq_append_cons heq
    rw [List.nil_append] at hr
    obtain ⟨hid, -, -, -, henc⟩ := shrinkRevision_eq_some hr
    have h₁ : History u effect (mid ++ [r] ++ post) := by simpa using h
    have hunion := h₁.unionAt_survivors gcGroups retainRevs hsub
    rw [survivors_append, survivors, List.nil_append, hr, survivors, List.append_nil] at hunion
    rw [hid]
    rwa [← hunion] at henc
  · intro pre' r' post' heq k hk hnot
    obtain ⟨mid, r, post, rfl, hr, rfl, -⟩ := survivors_eq_append_cons heq
    have h₁ : History u effect (mid ++ r :: post) := h
    rw [h₁.known_survivors gcGroups retainRevs hsub hk] at hnot
    rw [(shrinkRevision_eq_some hr).1]
    exact h.earlier mid r post rfl k (hsub k hk) hnot

/-- The union strings without the removed atoms. -/
theorem filter_unionAt {p : Atom α → Bool} (u : List (Atom α)) (revs : List Revision) :
    (unionAt u revs).filter p = unionAt (u.filter p) revs := List.filter_comm _ _ _

/-- One step of the loop that shrinks the revisions. -/
theorem gcRevStep_eq (h : History u effect (pre ++ r :: post)) (c : Atom α → ℕ) :
    Engine.gcRevStep gcGroups retainRevs (.label (unionAt u (pre ++ [r])) c) r
      = some (.label (unionAt u pre) c, shrinkRevision effect gcGroups retainRevs
          (unionAt (u.filter fun k ↦ c k = 0) (pre ++ [r])) r) := by
  have henc := h.encodes _ _ _ rfl
  rw [Engine.gcRevStep, shrinkRevision]
  rw [Revision.Encodes] at henc
  cases hr : r.edit with
  | undo toggled bitxor =>
    rw [hr] at henc
    subst henc
    dsimp only
    rw [Subset.transformShrink_or_skip, filter_unionAt]
    rw [h.unionAt_append_undo (by rw [hr]; rfl)]
    by_cases hret : r.revId ∈ retainRevs <;> simp [hret]
  | edit priority undoGroup inserts deletes =>
    rw [hr] at henc
    obtain ⟨rfl, rfl⟩ := henc
    dsimp only
    have hshrink : (if (Subset.label (unionAt u (pre ++ [r])) c).isEmpty then
        some (Subset.label (unionAt u (pre ++ [r])) (own r.revId),
          Subset.label (unionAt u (pre ++ [r])) (effect r.revId))
        else do
          let inserts ← (Subset.label (unionAt u (pre ++ [r])) (own r.revId)).transformShrink
            (.label (unionAt u (pre ++ [r])) c)
          let deletes ← (Subset.label (unionAt u (pre ++ [r])) (effect r.revId)).transformShrink
            (.label (unionAt u (pre ++ [r])) c)
          return (inserts, deletes))
        = some (.label (unionAt (u.filter fun k ↦ c k = 0) (pre ++ [r])) (own r.revId),
          .label (unionAt (u.filter fun k ↦ c k = 0) (pre ++ [r])) (effect r.revId)) := by
      have h1 := Subset.transformShrink_or_skip (unionAt u (pre ++ [r])) (own r.revId) c
      have h2 := Subset.transformShrink_or_skip (unionAt u (pre ++ [r])) (effect r.revId) c
      rw [filter_unionAt] at h1 h2
      split
      · next he =>
        rw [if_pos he] at h1 h2
        rw [Option.some.inj h1, Option.some.inj h2]
      · next he =>
        rw [if_neg he] at h1 h2
        rw [h1, h2]
        rfl
    rw [Subset.transformShrink_or_skip, h.filter_own, hshrink]
    simp only [Option.bind_eq_bind, Option.bind_some]
    -- the tests for a retained revision and for a collected group reduce to one
    congr 3
    generalize (Subset.label (unionAt (u.filter fun k ↦ c k = 0) (pre ++ [r]))
      (own r.revId)).isEmpty = a
    generalize (Subset.label (unionAt (u.filter fun k ↦ c k = 0) (pre ++ [r]))
      (effect r.revId)).isEmpty = b
    by_cases hret : r.revId ∈ retainRevs <;> by_cases hg : undoGroup ∈ gcGroups <;>
      cases a <;> cases b <;> simp [hret, hg]

/-- The loop that shrinks the revisions. -/
theorem gcRevs_eq (gcGroups : Finset ℕ) (retainRevs : List RevId) (c : Atom α → ℕ) :
    ∀ {revs post : List Revision}
    (_ : History u effect (revs ++ post)),
    Engine.gcRevs gcGroups retainRevs revs.reverse (.label (unionAt u revs) c)
      = some (survivors effect gcGroups retainRevs (u.filter fun k ↦ c k = 0) [] revs).reverse := by
  intro revs
  induction revs using List.reverseRecOn with
  | nil => intro post _; rfl
  | append_singleton revs r ih =>
    intro post h
    have h₁ : History u effect (revs ++ r :: post) := by simpa using h
    rw [List.reverse_append, List.reverse_singleton, List.singleton_append, Engine.gcRevs,
      h₁.gcRevStep_eq, Option.bind_eq_bind, Option.bind_some]
    dsimp only
    rw [ih h₁, Option.bind_eq_bind, Option.bind_some, survivors_append, List.reverse_append]
    simp only [survivors, List.nil_append, List.append_nil]
    cases shrinkRevision effect gcGroups retainRevs
      (unionAt (u.filter fun k ↦ c k = 0) (revs ++ [r])) r <;> rfl

end History

/-! ## The engine after a collection -/

namespace Engine

variable {e : Engine α} {g : Ledger α}

/-- The first and the last revision are retained. -/
def retainRevs (e : Engine α) : List RevId :=
  (e.revs.head?.map Revision.revId).toList ++ (e.revs.getLast?.map Revision.revId).toList

/-- How often the revisions collected with `gcGroups` delete an atom. -/
def collectCount (e : Engine α) (g : Ledger α) (gcGroups : Finset ℕ) : Atom α → ℕ :=
  gcCount g.effect e.undoneGroups gcGroups e.retainRevs e.revs

/-- The ledger after a collection. -/
def collectedLedger (e : Engine α) (g : Ledger α) (gcGroups : Finset ℕ) : Ledger α :=
  { g with atoms := g.atoms.filter fun k ↦ collectCount e g gcGroups k = 0 }

/-- The revisions after a collection. -/
def collectedRevs (e : Engine α) (g : Ledger α) (gcGroups : Finset ℕ) : List Revision :=
  survivors g.effect gcGroups e.retainRevs (collectedLedger e g gcGroups).atoms [] e.revs

/-- The engine after a collection. -/
def collectedEngine (e : Engine α) (g : Ledger α) (gcGroups : Finset ℕ) : Engine α :=
  { e with
    tombstones := hidden (collectedLedger e g gcGroups).atoms g.count
    deletesFromUnion := .label (collectedLedger e g gcGroups).atoms g.count
    undoneGroups := if (collectedRevs e g gcGroups).any (fun r ↦ r.edit.isEdit) then e.undoneGroups
      else ∅
    revs := collectedRevs e g gcGroups }

section

variable (h : e.Represents g) (gcGroups : Finset ℕ)
  (hcount : ∀ k ∈ g.atoms, collectCount e g gcGroups k ≠ 0 → g.count k ≠ 0)

include h

theorem Represents.collectedHistory :
    History (collectedLedger e g gcGroups).atoms g.effect (collectedRevs e g gcGroups) :=
  h.history.collect gcGroups e.retainRevs List.filter_sublist

/-- When no edit is left, no atom is left. -/
theorem Represents.collected_eq_nil
    (hnone : (collectedRevs e g gcGroups).any (fun r ↦ r.edit.isEdit) = false) :
    (collectedLedger e g gcGroups).atoms = [] := by
  refine List.eq_nil_iff_forall_not_mem.mpr fun k hk ↦ ?_
  obtain ⟨r, hr, -, hedit⟩ := (h.collectedHistory gcGroups).inserted k hk
  have := List.any_eq_false.mp hnone r hr
  exact this hedit

include hcount

/-- Only deleted atoms are collected. -/
theorem Represents.collected_text :
    visible (collectedLedger e g gcGroups).atoms g.count = e.text := by
  rw [h.text, visible, visible, collectedLedger, List.filter_filter]
  congr 1
  refine List.filter_congr fun k hk ↦ ?_
  by_cases hk0 : g.count k = 0
  · have : collectCount e g gcGroups k = 0 := by
      by_contra hne
      exact hcount k hk hne hk0
    simp [hk0, this]
  · simp [hk0]

/-- **Garbage collection.** A collection does not panic, and removes atoms and revisions from the
ledger. -/
theorem Represents.gc_eq : e.gc gcGroups = some (collectedEngine e g gcGroups) := by
  have htext := h.collected_text gcGroups hcount
  have hh : History g.atoms g.effect ([] ++ e.revs ++ []) := by simpa using h.history
  have hdels : e.revs.foldlM (gcDelsStep e.undoneGroups gcGroups e.retainRevs)
      (.label (unionAt g.atoms []) fun _ ↦ 0)
      = some (.label g.atoms (collectCount e g gcGroups)) := by
    rw [hh.foldlM_gcDelsStep, List.nil_append, h.history.unionAt_self]
    exact congrArg some (Subset.label_congr fun k _ ↦ by simp [collectCount])
  have hstate : (if !(Subset.label g.atoms (collectCount e g gcGroups)).isEmpty then do
        let notInTombstones ← e.deletesFromUnion.complement
        let delsFromTombstones ← (Subset.label g.atoms (collectCount e g gcGroups)).transformShrink
          notInTombstones
        let tombstones ← delsFromTombstones.deleteFrom e.tombstones
        let deletesFromUnion ← e.deletesFromUnion.transformShrink
          (.label g.atoms (collectCount e g gcGroups))
        return (tombstones, deletesFromUnion)
      else some (e.tombstones, e.deletesFromUnion))
      = some (hidden (collectedLedger e g gcGroups).atoms g.count,
        .label (collectedLedger e g gcGroups).atoms g.count) := by
    rw [h.dels, h.tombstones]
    cases he : (Subset.label g.atoms (collectCount e g gcGroups)).isEmpty with
    | true =>
      have hzero := Subset.isEmpty_label.mp he
      have hself : (collectedLedger e g gcGroups).atoms = g.atoms :=
        List.filter_eq_self.mpr fun k hk ↦ decide_eq_true (hzero k hk)
      rw [hself]
      rfl
    | false =>
      have hflip : (g.atoms.filter fun k ↦ (if g.count k = 0 then 1 else 0) = 0)
          = g.atoms.filter fun k ↦ g.count k ≠ 0 :=
        List.filter_congr fun k _ ↦ by by_cases hk : g.count k = 0 <;> simp [hk]
      have htomb : hidden (collectedLedger e g gcGroups).atoms g.count
          = ((g.atoms.filter fun k ↦ g.count k ≠ 0).filter
              fun k ↦ collectCount e g gcGroups k = 0).map Atom.val := by
        rw [hidden, collectedLedger, List.filter_comm]
      rw [Subset.complement_label, htomb]
      simp only [Bool.not_false, if_true, Option.bind_eq_bind, Option.bind_some,
        Subset.transformShrink_label, hflip, hidden, Subset.deleteFrom_label]
      rfl
  have hrevs : gcRevs gcGroups e.retainRevs e.revs.reverse
      (.label g.atoms (collectCount e g gcGroups))
      = some (collectedRevs e g gcGroups).reverse := by
    have h₁ : History g.atoms g.effect (e.revs ++ []) := by simpa using h.history
    have := History.gcRevs_eq gcGroups e.retainRevs
      (collectCount e g gcGroups) h₁
    rwa [h.history.unionAt_self] at this
  rw [gc, h.emptySubsetBeforeFirstRev_eq fun _ ↦ 0, Option.bind_eq_bind, Option.bind_some]
  change (e.revs.foldlM (gcDelsStep e.undoneGroups gcGroups e.retainRevs)
    (.label (unionAt g.atoms []) fun _ ↦ 0)).bind _ = _
  rw [hdels, Option.bind_some]
  dsimp only
  rw [hstate, Option.bind_eq_bind, Option.bind_some]
  dsimp only
  change (gcRevs gcGroups e.retainRevs e.revs.reverse _).bind _ = _
  rw [hrevs, Option.bind_some, List.reverse_reverse]
  cases hany : (collectedRevs e g gcGroups).any fun r ↦ r.edit.isEdit with
  | true =>
    simp only [Bool.not_true, Bool.false_eq_true, if_false]
    rw [collectedEngine, hany, if_pos rfl]
    rfl
  | false =>
    have hnil := h.collected_eq_nil gcGroups hany
    rw [hnil] at htext
    have hnew : Subset.new 0 = Subset.label ([] : List (Atom α)) g.count :=
      Subset.ext_counts (by simp)
    simp only [Bool.not_false, if_true]
    rw [collectedEngine, hany, if_neg (by simp), hnil, ← hnew, ← htext]
    rfl

theorem Represents.collected :
    (collectedEngine e g gcGroups).Represents (collectedLedger e g gcGroups) := by
  refine ⟨h.collectedHistory gcGroups, ?_, rfl, (h.collected_text gcGroups hcount).symm, rfl,
    ?_, ?_⟩
  · obtain ⟨m, b, rest, hrevs⟩ := h.first
    have hret : (⟨0, 0, 0⟩ : RevId) ∈ e.retainRevs := by simp [retainRevs, hrevs]
    have hshrink := survivors_append g.effect gcGroups e.retainRevs
      (collectedLedger e g gcGroups).atoms [⟨⟨0, 0, 0⟩, m, .undo ∅ b⟩] [] rest
    rw [List.singleton_append, ← hrevs, survivors, shrinkRevision] at hshrink
    simp only [hret, if_true, Option.toList_some, Finset.empty_sdiff] at hshrink
    exact ⟨m, _, _, hshrink⟩
  · intro r hr hs
    obtain ⟨mid, q, post, hrevs, hq⟩ := mem_survivors hr
    obtain ⟨hid, -⟩ := shrinkRevision_eq_some hq
    rw [hid] at hs ⊢
    exact h.fresh q (by rw [hrevs]; simp) hs
  · intro pre' r' post' heq q' hq' gr hgr
    obtain ⟨mid, r, post, hrevs, hr, rfl, -⟩ := survivors_eq_append_cons heq
    obtain ⟨-, hmax, hgroup, -, -⟩ := shrinkRevision_eq_some hr
    rw [hmax]
    rcases List.mem_append.mp hq' with hq' | hq'
    · obtain ⟨mid', q, post', rfl, hq⟩ := mem_survivors hq'
      rw [(shrinkRevision_eq_some hq).2.2.1] at hgr
      exact h.bounds _ r post hrevs q (by simp) gr hgr
    · obtain rfl := List.mem_singleton.mp hq'
      rw [hgroup] at hgr
      exact h.bounds _ r post hrevs r (by simp) gr hgr

end

/-! ## What is left to replay -/

section

variable {gcGroups w : Finset ℕ} {init : List Revision} {last : Revision} {k : Atom α}

theorem mem_collectedLedger :
    k ∈ (collectedLedger e g gcGroups).atoms ↔ k ∈ g.atoms ∧ collectCount e g gcGroups k = 0 := by
  rw [collectedLedger, List.mem_filter, decide_eq_true_iff]

/-- The undone groups are only reset when no atom is left. -/
theorem Represents.undoneGroups_collected (h : e.Represents g)
    (hk : k ∈ (collectedLedger e g gcGroups).atoms) :
    (collectedEngine e g gcGroups).undoneGroups = e.undoneGroups := by
  cases hany : (collectedRevs e g gcGroups).any fun r ↦ r.edit.isEdit with
  | true => rw [collectedEngine, hany, if_pos rfl]
  | false =>
    rw [h.collected_eq_nil gcGroups hany] at hk
    cases hk

/-- Only the first and the last revision are retained, and the first one is an undo. -/
theorem Represents.not_mem_retainRevs (h : e.Represents g) (hrevs : e.revs = init ++ [last])
    {r : Revision} (hr : r ∈ init) (hedit : r.edit.isEdit = true) : r.revId ∉ e.retainRevs := by
  have hids := h.history.ids
  obtain ⟨m, b, rest, hfirst⟩ := h.first
  have hmem : r ∈ e.revs := by simp [hrevs, hr]
  intro hret
  rw [retainRevs, hrevs, List.getLast?_concat, ← hrevs, hfirst] at hret
  simp only [List.head?_cons, Option.map_some, Option.toList_some, List.cons_append,
    List.nil_append, List.mem_cons, List.not_mem_nil, or_false] at hret
  rcases hret with hret | hret
  · have heq : r = ⟨⟨0, 0, 0⟩, m, .undo ∅ b⟩ :=
      List.inj_on_of_nodup_map hids hmem (by simp [hfirst]) hret
    rw [heq] at hedit
    cases hedit
  · rw [hrevs, List.map_append, List.nodup_append] at hids
    exact hids.2.2 r.revId (List.mem_map.mpr ⟨r, hr, rfl⟩) last.revId (by simp) hret

/-- The edits before the last one that are dropped contribute nothing to the atoms that are left,
for every set of undone groups that agrees on the collected groups. -/
theorem Represents.contribution_dropped (h : e.Represents g) (hrevs : e.revs = init ++ [last])
    (hw : ∀ gr ∈ gcGroups, gr ∈ w ↔ gr ∈ e.undoneGroups)
    (hk : k ∈ (collectedLedger e g gcGroups).atoms) {mid post : List Revision} {r : Revision}
    (hinit : init = mid ++ r :: post) (hr : shrinkRevision g.effect gcGroups e.retainRevs
      (unionAt (collectedLedger e g gcGroups).atoms (mid ++ [r])) r = none) :
    contribution g.effect w r k = 0 := by
  obtain ⟨hku, hzero⟩ := mem_collectedLedger.mp hk
  have hh : History g.atoms g.effect (mid ++ r :: (post ++ [last])) := by
    have := h.history
    rwa [hrevs, hinit, List.append_assoc, List.cons_append] at this
  have hmem : r ∈ e.revs := by simp [hrevs, hinit]
  cases hed : r.edit with
  | undo t b => rw [contribution, hed]
  | edit p gr i d =>
    by_cases hg : gr ∈ gcGroups
    · -- its contribution has been collected
      have hcollects : gcCollects gcGroups e.retainRevs r = true := by
        rw [gcCollects, hed]
        exact decide_eq_true
          ⟨h.not_mem_retainRevs hrevs (by simp [hinit]) (by rw [hed]; rfl), hg⟩
      rw [collectCount, gcCount_eq_zero_iff] at hzero
      have := hzero r hmem hcollects
      rw [contribution, hed] at this ⊢
      simpa only [hw gr hg] using this
    · -- it has lost all of its atoms
      rw [shrinkRevision, hed] at hr
      simp only [hg, decide_false, Bool.not_false, Bool.true_and, ite_eq_right_iff, reduceCtorEq,
        imp_false, Bool.or_eq_true, Bool.not_eq_true', not_or, Bool.not_eq_false] at hr
      have hown := Subset.isEmpty_label.mp hr.1
      have heff := Subset.isEmpty_label.mp hr.2
      cases hknown : known (mid ++ [r]) k with
      | false => exact hh.contribution_eq_zero hku hknown
      | true =>
        have hk' := mem_unionAt.mpr ⟨hk, hknown⟩
        rw [contribution, hed]
        simp [hown k hk', heff k hk']

theorem replay_survivors {effect : RevId → Atom α → ℕ} {retainRevs : List RevId}
    {u : List (Atom α)} : ∀ {revs pre : List Revision},
    (∀ mid r post, revs = mid ++ r :: post →
      shrinkRevision effect gcGroups retainRevs (unionAt u (pre ++ mid ++ [r])) r = none →
      contribution effect w r k = 0) →
    replay effect w (survivors effect gcGroups retainRevs u pre revs) k = replay effect w revs
    k := by
  intro revs
  induction revs with
  | nil => intro pre _; rfl
  | cons r revs ih =>
    intro pre hzero
    rw [survivors, replay_append, show r :: revs = [r] ++ revs from rfl, replay_append,
      ih fun mid s post hrevs hs ↦ hzero (r :: mid) s post (by rw [hrevs]; rfl) (by simpa using hs)]
    congr 1
    cases hr : shrinkRevision effect gcGroups retainRevs (unionAt u (pre ++ [r])) r with
    | none =>
      rw [replay_singleton, hzero [] r revs rfl (by simpa using hr)]
      rfl
    | some r' =>
      obtain ⟨hid, -, hgroup, -, -⟩ := shrinkRevision_eq_some hr
      rw [Option.toList_some, replay_singleton, replay_singleton, contribution, contribution, hid]
      cases hed : r.edit <;> cases hed' : r'.edit <;>
        simp_all [Contents.group?]

/-- The atoms of the last revision are not collected. -/
theorem Represents.collectCount_last (h : e.Represents g) (hrevs : e.revs = init ++ [last])
    (hk : k ∈ g.atoms) (hlast : k.rev = last.revId) : collectCount e g gcGroups k = 0 := by
  rw [collectCount, gcCount_eq_zero_iff]
  intro r hr hcollects
  rw [hrevs] at hr
  rcases List.mem_append.mp hr with hr | hr
  · obtain ⟨mid, post, rfl⟩ := List.append_of_mem hr
    have hh : History g.atoms g.effect (mid ++ r :: (post ++ [last])) := by
      have := h.history
      rwa [hrevs, List.append_assoc, List.cons_append] at this
    have hh' : History g.atoms g.effect (mid ++ r :: post ++ last :: []) := by
      have := h.history
      rwa [hrevs] at this
    refine hh.contribution_eq_zero hk ?_
    have := hh'.known_pre_eq_false hlast
    rw [show mid ++ r :: post = mid ++ [r] ++ post by simp, known_append,
      Bool.or_eq_false_iff] at this
    exact this.1
  · obtain rfl := List.mem_singleton.mp hr
    -- the last revision is retained
    have hret : r.revId ∈ e.retainRevs := by simp [retainRevs, hrevs]
    rw [gcCollects] at hcollects
    split at hcollects
    · exact absurd hret (of_decide_eq_true hcollects).1
    · cases hcollects

/-- When the last revision is a done edit of a collected group that only deletes, it is dropped
and its deletions are no longer accounted for. -/
def lostCount (e : Engine α) (g : Ledger α) (gcGroups : Finset ℕ) (k : Atom α) : ℕ :=
  match e.revs.getLast? with
  | some ⟨revId, _, .edit _ undoGroup inserts _⟩ =>
    if undoGroup ∈ gcGroups ∧ undoGroup ∉ e.undoneGroups ∧ inserts.isEmpty then g.effect revId k
    else 0
  | _ => 0

/-- What is left of the last revision. -/
theorem Represents.shrinkRevision_last (h : e.Represents g) (gcGroups : Finset ℕ)
    (hrevs : e.revs = init ++ [last]) :
    shrinkRevision g.effect gcGroups e.retainRevs
      (unionAt (collectedLedger e g gcGroups).atoms (init ++ [last])) last = none ↔
    ∃ p gr i d, last.edit = .edit p gr i d ∧ i.isEmpty = true ∧
      (gr ∉ gcGroups → ∀ k ∈ (collectedLedger e g gcGroups).atoms,
        g.effect last.revId k = 0) := by
  have hself : unionAt (collectedLedger e g gcGroups).atoms (init ++ [last])
      = (collectedLedger e g gcGroups).atoms := by
    refine List.filter_eq_self.mpr fun k hk ↦ ?_
    obtain ⟨r, hr, hid, -⟩ := h.history.inserted k (mem_collectedLedger.mp hk).1
    rw [hrevs] at hr
    exact decide_eq_true (List.mem_map.mpr ⟨r, hr, hid⟩)
  have hret : last.revId ∈ e.retainRevs := by simp [retainRevs, hrevs]
  have henc := h.history.encodes init last [] hrevs
  rw [← hrevs, h.history.unionAt_self, Revision.Encodes] at henc
  rw [shrinkRevision, hself]
  cases hed : last.edit with
  | undo t b => simp [hret]
  | edit p gr i d =>
    rw [hed] at henc
    obtain ⟨rfl, -⟩ := henc
    have hins : (Subset.label (collectedLedger e g gcGroups).atoms (own last.revId)).isEmpty
        = (Subset.label g.atoms (own last.revId)).isEmpty := by
      rw [Bool.eq_iff_iff, Subset.isEmpty_label, Subset.isEmpty_label]
      refine ⟨fun hall k hk ↦ ?_, fun hall k hk ↦ hall k (mem_collectedLedger.mp hk).1⟩
      by_cases hown : k.rev = last.revId
      · exact hall k (mem_collectedLedger.mpr ⟨hk, h.collectCount_last hrevs hk hown⟩)
      · simp [own, hown]
    dsimp only
    rw [hins]
    simp only [Contents.edit.injEq, ite_eq_right_iff, reduceCtorEq, imp_false, Bool.or_eq_true,
      Bool.not_eq_true', Bool.and_eq_true, decide_eq_false_iff_not, not_or, not_and,
      Bool.not_eq_false, Subset.isEmpty_label]
    constructor
    · rintro ⟨h1, h2⟩
      exact ⟨p, gr, _, d, ⟨rfl, rfl, rfl, rfl⟩, Subset.isEmpty_label.mpr h1, h2⟩
    · rintro ⟨_, _, _, _, ⟨rfl, rfl, rfl, rfl⟩, h1, h2⟩
      exact ⟨Subset.isEmpty_label.mp h1, h2⟩

/-- What is left replays to the same on the atoms that are left, apart from a dropped last
revision. -/
theorem Represents.replay_collected (h : e.Represents g)
    (hw : ∀ gr ∈ gcGroups, gr ∈ w ↔ gr ∈ e.undoneGroups)
    (hk : k ∈ (collectedLedger e g gcGroups).atoms) :
    replay g.effect w e.revs k
      = replay g.effect w (collectedRevs e g gcGroups) k + lostCount e g gcGroups k := by
  obtain ⟨last, hlast, -⟩ := h.exists_getLast
  obtain ⟨init, hrevs⟩ := List.getLast?_eq_some_iff.mp hlast
  have hinit : replay g.effect w (survivors g.effect gcGroups e.retainRevs
      (collectedLedger e g gcGroups).atoms [] init) k = replay g.effect w init k :=
    replay_survivors fun mid r post hinit hr ↦ h.contribution_dropped hrevs hw hk hinit
      (by simpa using hr)
  have henc := h.history.encodes init last [] hrevs
  rw [← hrevs, h.history.unionAt_self, Revision.Encodes] at henc
  rw [collectedRevs, hrevs, survivors_append, List.nil_append, replay_append, replay_append, hinit,
    replay_singleton, Nat.add_assoc, survivors, survivors, List.append_nil, lostCount, hrevs,
    List.getLast?_concat]
  congr 1
  have hshrink := h.shrinkRevision_last gcGroups hrevs
  cases hs : shrinkRevision g.effect gcGroups e.retainRevs
      (unionAt (collectedLedger e g gcGroups).atoms (init ++ [last])) last with
  | none =>
    obtain ⟨p, gr, i, d, hed, hi, heff⟩ := hshrink.mp hs
    rw [hed] at henc
    have hown : own last.revId k = 0 :=
      Subset.isEmpty_label.mp (henc.1 ▸ hi) k (mem_collectedLedger.mp hk).1
    obtain ⟨id, m, edit⟩ := last
    obtain rfl : edit = .edit p gr i d := hed
    rw [Option.toList_none, replay_nil, Nat.zero_add, contribution]
    dsimp only at hown heff ⊢
    by_cases hg : gr ∈ gcGroups
    · by_cases hu : gr ∈ e.undoneGroups <;> simp [hg, hu, hi, hown, hw gr hg]
    · simp [hg, hown, heff hg k hk]
  | some r' =>
    obtain ⟨hid, -, hgroup, -, -⟩ := shrinkRevision_eq_some hs
    have hkept : ∀ p gr i d, last.edit = .edit p gr i d → ¬ (gr ∈ gcGroups ∧ i.isEmpty = true) := by
      rintro p gr i d hed ⟨hg, hi⟩
      rw [hshrink.mpr ⟨p, gr, i, d, hed, hi, fun hng ↦ absurd hg hng⟩] at hs
      cases hs
    rw [Option.toList_some, replay_singleton, contribution, contribution, hid]
    obtain ⟨id, m, edit⟩ := last
    cases edit with
    | undo t b => cases hed' : r'.edit <;> simp_all [Contents.group?]
    | edit p gr i d =>
      have := hkept p gr i d rfl
      cases hed' : r'.edit with
      | undo t b => simp [hed', Contents.group?] at hgroup
      | edit p' gr' i' d' =>
        simp only [hed', Contents.group?, Option.some.injEq] at hgroup
        subst hgroup
        have hnot : ¬ (gr' ∈ gcGroups ∧ gr' ∉ e.undoneGroups ∧ i.isEmpty = true) := fun hall ↦
          this ⟨hall.1, hall.2.2⟩
        simp [hnot]

end

end Engine

end EeEditor
