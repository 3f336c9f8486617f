import EeEditor.Editor.Basic
import EeEditor.Engine.GcHead

/-!
# The undo state of an editor

The editor keeps the groups that can be undone in `liveUndos`, of which those from `curUndo` on are
undone. This bookkeeping is consistent in every run. That a redo restores the text also needs the
engine to agree with the editor about the undone groups, which a collection can break.
-/

namespace EeEditor

variable {α : Type}

namespace Editor

/-! ## Bookkeeping -/

/-- The undo groups of an editor fit together. -/
structure UndoState (ed : Editor α) : Prop where
  pos : 1 ≤ ed.curUndo
  le : ed.curUndo ≤ ed.liveUndos.length
  max : ed.liveUndos.length ≤ maxUndos
  done : ∀ gr ∈ ed.liveUndos.take ed.curUndo, gr ∉ ed.undos
  undone : ∀ gr ∈ ed.liveUndos.drop ed.curUndo, gr ∈ ed.undos
  nodup : ed.liveUndos.Nodup
  /-- All groups have been given out. -/
  live_lt : ∀ gr ∈ ed.liveUndos, gr < ed.undoGroupId
  undos_lt : ∀ gr ∈ ed.undos, gr < ed.undoGroupId
  gc_lt : ∀ gr ∈ ed.gcUndos, gr < ed.undoGroupId
  /-- Live groups are not collected. -/
  live_not_gc : ∀ gr ∈ ed.liveUndos, gr ∉ ed.gcUndos

variable {ed ed' : Editor α}

/-- Everything but the groups stays. -/
theorem UndoState.congr (h : UndoState ed) (hlive : ed'.liveUndos = ed.liveUndos)
    (hcur : ed'.curUndo = ed.curUndo) (hundos : ed'.undos = ed.undos)
    (hgc : ed'.gcUndos = ed.gcUndos) (hid : ed'.undoGroupId = ed.undoGroupId) : UndoState ed' := by
  obtain ⟨h1, h2, h3, h4, h5, h6, h7, h8, h9, h10⟩ := h
  constructor <;> simp only [hlive, hcur, hundos, hgc, hid] <;> assumption

/-- What `calculateUndoGroup` does: the group is live, it is the last one or a new one, and nothing
but the groups changes. -/
structure GroupCalculated (ed ed' : Editor α) (gr : ℕ) : Prop where
  state : UndoState ed'
  mem : gr ∈ ed'.liveUndos
  cases : gr ∈ ed.liveUndos ∨ gr = ed.undoGroupId
  live : ∀ g ∈ ed'.liveUndos, g ∈ ed.liveUndos ∨ g = ed.undoGroupId
  engine : ed'.engine = ed.engine
  text : ed'.text = ed.text
  undos : ed'.undos = ed.undos
  pristine : ed'.pristineRevId = ed.pristineRevId
  undoGroupId : ed.undoGroupId ≤ ed'.undoGroupId

/-- A new group is opened. Of the live groups those of `live`, which are done, are kept, and only
groups that are not kept are collected. -/
theorem UndoState.opened (h : UndoState ed) {live : List ℕ} {gc : Finset ℕ}
    (hsub : live.Sublist (ed.liveUndos.take ed.curUndo)) (hmax : live.length < maxUndos)
    (hgc : ∀ gr ∈ gc, gr ∈ ed.gcUndos ∨ gr ∈ ed.liveUndos ∧ gr ∉ live) :
    GroupCalculated ed { ed with
      liveUndos := live ++ [ed.undoGroupId]
      curUndo := live.length + 1
      gcUndos := gc
      undoGroupId := ed.undoGroupId + 1 } ed.undoGroupId := by
  have hmem : ∀ gr ∈ live, gr ∈ ed.liveUndos := fun gr hgr ↦
    List.mem_of_mem_take (hsub.subset hgr)
  have hnew : ed.undoGroupId ∉ ed.liveUndos := fun hgr ↦ lt_irrefl _ (h.live_lt _ hgr)
  have hlength : (live ++ [ed.undoGroupId]).length = live.length + 1 := by simp
  have hcases : ∀ gr ∈ live ++ [ed.undoGroupId], gr ∈ live ∨ gr = ed.undoGroupId := by simp
  have hlt : ∀ gr ∈ ed.liveUndos, gr < ed.undoGroupId + 1 := fun gr hgr ↦
    Nat.lt_succ_of_lt (h.live_lt gr hgr)
  refine ⟨⟨Nat.le_add_left 1 _, hlength.ge, hlength.trans_le hmax, ?_, ?_, ?_, ?_, ?_, ?_, ?_⟩,
    by simp, .inr rfl, fun gr hgr ↦ (hcases gr hgr).imp_left (hmem gr), rfl, rfl, rfl, rfl,
    Nat.le_succ _⟩
  · intro gr hgr hundone
    rcases hcases gr (List.mem_of_mem_take hgr) with hgr | rfl
    · exact h.done gr (hsub.subset hgr) hundone
    · exact lt_irrefl _ (h.undos_lt _ hundone)
  · intro gr hgr
    rw [List.drop_of_length_le hlength.le] at hgr
    cases hgr
  · refine List.nodup_append.mpr ⟨h.nodup.sublist (hsub.trans (List.take_sublist _ _)),
      List.nodup_singleton _, fun gr hgr new hsingle heq ↦ hnew ?_⟩
    rw [← List.mem_singleton.mp hsingle, ← heq]
    exact hmem gr hgr
  · intro gr hgr
    rcases hcases gr hgr with hgr | rfl
    · exact hlt gr (hmem gr hgr)
    · exact Nat.lt_succ_self _
  · exact fun gr hgr ↦ Nat.lt_succ_of_lt (h.undos_lt gr hgr)
  · intro gr hgr
    rcases hgc gr hgr with hgr | ⟨hgr, -⟩
    · exact Nat.lt_succ_of_lt (h.gc_lt gr hgr)
    · exact hlt gr hgr
  · intro gr hgr hcollected
    rcases hgc gr hcollected with hcollected | ⟨hlive, hnot⟩ <;>
      rcases hcases gr hgr with hgr | rfl
    · exact h.live_not_gc gr (hmem gr hgr) hcollected
    · exact lt_irrefl _ (h.gc_lt _ hcollected)
    · exact hnot hgr
    · exact hnew hlive

theorem UndoState.newGroup (h : UndoState ed) :
    ∃ ed' gr, calculateUndoGroup.newGroup ed = some (ed', gr) ∧ GroupCalculated ed ed' gr := by
  have hslice : sliceFrom ed.liveUndos ed.curUndo = some (ed.liveUndos.drop ed.curUndo) :=
    if_pos h.le
  have hsplit : (ed.liveUndos.take ed.curUndo ++ ed.liveUndos.drop ed.curUndo).Nodup := by
    rw [List.take_append_drop]
    exact h.nodup
  obtain ⟨hnodup, -, hdisjoint⟩ := List.nodup_append.mp hsplit
  have hlen : (ed.liveUndos.take ed.curUndo).length = ed.curUndo := by
    rw [List.length_take, min_eq_left h.le]
  -- the groups that could be redone are discarded
  have hgc : ∀ gr ∈ ed.gcUndos ∪ (ed.liveUndos.drop ed.curUndo).toFinset,
      gr ∈ ed.gcUndos ∨ gr ∈ ed.liveUndos ∧ gr ∉ ed.liveUndos.take ed.curUndo := fun gr hgr ↦ by
    refine (Finset.mem_union.mp hgr).imp_right fun hgr ↦ ?_
    have hdrop := List.mem_toFinset.mp hgr
    exact ⟨List.mem_of_mem_drop hdrop, fun htake ↦ hdisjoint gr htake gr hdrop rfl⟩
  rw [calculateUndoGroup.newGroup, hslice, Option.bind_eq_bind, Option.bind_some]
  dsimp only
  by_cases hmax : (ed.liveUndos.take ed.curUndo ++ [ed.undoGroupId]).length ≤ maxUndos
  · rw [if_pos hmax]
    rw [List.length_append] at hmax
    have hopened := h.opened (List.Sublist.refl _) hmax hgc
    rw [hlen] at hopened
    exact ⟨_, _, rfl, hopened⟩
  · -- too many groups: the oldest one is discarded
    rw [if_neg hmax]
    have hle := h.le.trans h.max
    have hpos := h.pos
    generalize htake : ed.liveUndos.take ed.curUndo = taken at *
    cases taken with
    | nil =>
      rw [List.length_nil] at hlen
      omega
    | cons oldest rest =>
      have hcur : rest.length + 1 = ed.curUndo := hlen
      have hgc' : ∀ gr ∈ insert oldest (ed.gcUndos ∪ (ed.liveUndos.drop ed.curUndo).toFinset),
          gr ∈ ed.gcUndos ∨ gr ∈ ed.liveUndos ∧ gr ∉ rest := fun gr hgr ↦ by
        rcases Finset.mem_insert.mp hgr with rfl | hgr
        · exact .inr ⟨List.mem_of_mem_take (htake ▸ List.mem_cons_self),
            (List.nodup_cons.mp hnodup).1⟩
        · exact (hgc gr hgr).imp_right (And.imp_right List.not_mem_of_not_mem_cons)
      have hopened := h.opened (htake ▸ List.sublist_cons_self oldest rest) (by omega) hgc'
      rw [hcur] at hopened
      exact ⟨_, _, rfl, hopened⟩

theorem UndoState.calculateUndoGroup (h : UndoState ed) :
    ∃ ed' gr, ed.calculateUndoGroup = some (ed', gr) ∧ GroupCalculated ed ed' gr := by
  rw [Editor.calculateUndoGroup]
  split
  · next lastUndo hlast =>
    split
    · have hmem : lastUndo ∈ ed.liveUndos := List.mem_of_getLast? hlast
      exact ⟨ed, lastUndo, rfl, h, hmem, .inl hmem, fun _ hg ↦ .inl hg, rfl, rfl, rfl, rfl,
        le_rfl⟩
    · exact h.newGroup
  · exact h.newGroup

/-- The live groups split into those that are done and those that are undone. -/
theorem UndoState.of_append (h : UndoState ed) {done undone : List ℕ}
    (hlive : ed.liveUndos = done ++ undone) (hne : done ≠ []) (undos : Finset ℕ)
    (hdone : ∀ gr ∈ done, gr ∉ undos) (hundone : ∀ gr ∈ undone, gr ∈ undos)
    (hlt : ∀ gr ∈ undos, gr < ed.undoGroupId) (editType : EditType) :
    UndoState { ed with
      curUndo := done.length
      undos := undos
      thisEditType := editType } := by
  refine ⟨List.length_pos_of_ne_nil hne, ?_, h.max, ?_, ?_, h.nodup, h.live_lt, hlt, h.gc_lt,
    h.live_not_gc⟩
  · rw [hlive, List.length_append]
    exact Nat.le_add_right _ _
  · rw [hlive, List.take_left]
    exact hdone
  · rw [hlive, List.drop_left]
    exact hundone

/-- The groups around the one that is undone next. -/
theorem UndoState.undo_split (h : UndoState ed) (hcur : ed.curUndo > 1) :
    ∃ done gr, done ≠ [] ∧ ed.liveUndos = done ++ gr :: ed.liveUndos.drop ed.curUndo ∧
      done.length = ed.curUndo - 1 ∧ (∀ g ∈ done ++ [gr], g ∉ ed.undos) ∧ gr ∉ done := by
  have hlt : ed.curUndo - 1 < ed.liveUndos.length := by
    have := h.le
    omega
  have hlen : (ed.liveUndos.take (ed.curUndo - 1)).length = ed.curUndo - 1 := by
    rw [List.length_take]
    omega
  have htake : ed.liveUndos.take ed.curUndo
      = ed.liveUndos.take (ed.curUndo - 1) ++ [ed.liveUndos[ed.curUndo - 1]] := by
    conv_lhs => rw [show ed.curUndo = ed.curUndo - 1 + 1 by omega]
    exact List.take_succ_eq_append_getElem hlt
  have hlive : ed.liveUndos = ed.liveUndos.take (ed.curUndo - 1)
      ++ ed.liveUndos[ed.curUndo - 1] :: ed.liveUndos.drop ed.curUndo := by
    conv_lhs => rw [← List.take_append_drop ed.curUndo ed.liveUndos, htake]
    rw [List.append_assoc, List.singleton_append]
  refine ⟨_, _, List.ne_nil_of_length_pos (by omega), hlive, hlen, htake ▸ h.done, fun hmem ↦ ?_⟩
  have hnodup := h.nodup
  rw [hlive, List.nodup_append] at hnodup
  exact hnodup.2.2 _ hmem _ (by simp) rfl

/-! ## Undo and redo -/

/-- The editor after an undo of the group `gr`. -/
def afterUndo (ed : Editor α) (gr : ℕ) (engine : Engine α) : Editor α :=
  { ed with
    curUndo := ed.curUndo - 1
    undos := insert gr ed.undos
    thisEditType := .undo
    engine := engine
    text := engine.getHead }

/-- The editor after a redo of the group `gr`. -/
def afterRedo (ed : Editor α) (gr : ℕ) (engine : Engine α) : Editor α :=
  { ed with
    undos := ed.undos.erase gr
    curUndo := ed.curUndo + 1
    thisEditType := .redo
    engine := engine
    text := engine.getHead }

/-- An undo only fails when the undo of the engine does. -/
theorem UndoState.doUndo_eq (h : UndoState ed) (hcur : ed.curUndo > 1) :
    ∃ gr, gr ∈ ed.liveUndos ∧ gr ∉ ed.undos ∧ ed.liveUndos[ed.curUndo - 1]? = some gr ∧
      ed.doUndo = (ed.engine.undo (insert gr ed.undos)).map (afterUndo ed gr) ∧
      ∀ engine, UndoState (afterUndo ed gr engine) := by
  obtain ⟨done, gr, hne, hlive, hlen, hdone, hnot⟩ := h.undo_split hcur
  have hget : ed.liveUndos[ed.curUndo - 1]? = some gr := by
    rw [hlive, ← hlen, List.getElem?_append_right le_rfl, Nat.sub_self]
    rfl
  have hmem : gr ∈ ed.liveUndos := by rw [hlive]; simp
  have hgr : gr ∉ ed.undos := hdone gr (by simp)
  refine ⟨gr, hmem, hgr, hget, ?_, fun engine ↦ ?_⟩
  · rw [doUndo, if_pos hcur]
    dsimp only
    rw [hget, Option.bind_eq_bind, Option.bind_some, if_neg hgr, updateUndos]
    cases ed.engine.undo (insert gr ed.undos) <;> rfl
  · have hstate := h.of_append hlive hne (insert gr ed.undos) (fun g hg hin ↦ ?_)
      (fun g hg ↦ ?_) (fun g hg ↦ ?_) .undo
    · rw [hlen] at hstate
      exact hstate.congr rfl rfl rfl rfl rfl
    · rcases Finset.mem_insert.mp hin with rfl | hin
      · exact hnot hg
      · exact hdone g (by simp [hg]) hin
    · rcases List.mem_cons.mp hg with rfl | hg
      · exact Finset.mem_insert_self _ _
      · exact Finset.mem_insert_of_mem (h.undone g hg)
    · rcases Finset.mem_insert.mp hg with rfl | hg
      · exact h.live_lt _ hmem
      · exact h.undos_lt g hg

/-- A redo only fails when the undo of the engine does. -/
theorem UndoState.doRedo_eq (h : UndoState ed) {gr : ℕ}
    (hget : ed.liveUndos[ed.curUndo]? = some gr) :
    ed.doRedo = (ed.engine.undo (ed.undos.erase gr)).map (afterRedo ed gr) ∧
      ∀ engine, UndoState (afterRedo ed gr engine) := by
  obtain ⟨hlt, hgr⟩ := List.getElem?_eq_some_iff.mp hget
  have hdrop : ed.liveUndos.drop ed.curUndo = gr :: ed.liveUndos.drop (ed.curUndo + 1) := by
    rw [List.drop_eq_getElem_cons hlt, hgr]
  have hundone : gr ∈ ed.undos := h.undone gr (by rw [hdrop]; simp)
  have hlive : ed.liveUndos = (ed.liveUndos.take ed.curUndo ++ [gr])
      ++ ed.liveUndos.drop (ed.curUndo + 1) := by
    conv_lhs => rw [← List.take_append_drop ed.curUndo ed.liveUndos, hdrop]
    rw [List.append_assoc, List.singleton_append]
  refine ⟨?_, fun engine ↦ ?_⟩
  · rw [doRedo, if_pos hlt, hget, Option.bind_eq_bind, Option.bind_some,
      if_neg (not_not.mpr hundone), updateUndos]
    cases ed.engine.undo (ed.undos.erase gr) <;> rfl
  · have hnodup := h.nodup
    rw [hlive, List.nodup_append, List.nodup_append] at hnodup
    have hstate := h.of_append hlive (by simp) (ed.undos.erase gr) (fun g hg hin ↦ ?_)
      (fun g hg ↦ ?_) (fun g hg ↦ h.undos_lt g (Finset.mem_of_mem_erase hg)) .redo
    · have hlen : (ed.liveUndos.take ed.curUndo ++ [gr]).length = ed.curUndo + 1 := by
        rw [List.length_append, List.length_take, min_eq_left h.le, List.length_singleton]
      rw [hlen] at hstate
      exact hstate.congr rfl rfl rfl rfl rfl
    · obtain ⟨hne, hin⟩ := Finset.mem_erase.mp hin
      rcases List.mem_append.mp hg with hg | hg
      · exact h.done g hg hin
      · exact hne (List.mem_singleton.mp hg)
    · refine Finset.mem_erase.mpr ⟨fun heq ↦ ?_, h.undone g (by rw [hdrop]; simp [hg])⟩
      exact hnodup.2.2 gr (by simp) g hg heq.symm

/-! ## Runs -/

/-- The operations that touch the undo state. -/
inductive UndoOp (α : Type) where
  | addDelta (editType : EditType) (delta : Delta α)
  | doUndo
  | doRedo
  | updateEditType
  | commitUndoCheckpoint
  | incrementRevsInFlight
  | decRevsInFlight

/-- The deltas of an operation are well-formed. -/
def UndoOp.WellFormed : UndoOp α → Prop
  | .addDelta _ delta => delta.WellFormed
  | _ => True

/-- Run one operation. -/
def UndoOp.exec (token : RevId → RevToken) (ed : Editor α) : UndoOp α → Option (Editor α)
  | .addDelta editType delta => applyDirectDelta token ed editType delta
  | .doUndo => ed.doUndo
  | .doRedo => ed.doRedo
  | .updateEditType => some ed.updateEditType
  | .commitUndoCheckpoint => some ed.commitUndoCheckpoint
  | .incrementRevsInFlight => some ed.incrementRevsInFlight
  | .decRevsInFlight => ed.decRevsInFlight

/-- The editors that runs lead to, when every collection is `allowed`. -/
inductive UndoRun (token : RevId → RevToken) (allowed : Engine α → Finset ℕ → Prop) :
    Editor α → Prop
  | start {text : List α} {ed : Editor α} (h : withText token text = some ed) :
      UndoRun token allowed ed
  | step {ed ed' : Editor α} (h : UndoRun token allowed ed) (op : UndoOp α) (hop : op.WellFormed)
      (hgc : op = .decRevsInFlight → ed.revsInFlight = 1 → ed.gcUndos ≠ ∅ →
        allowed ed.engine ed.gcUndos)
      (hs : op.exec token ed = some ed') : UndoRun token allowed ed'

/-- Run operations one after the other. -/
def UndoOp.execAll (token : RevId → RevToken) (ed : Editor α) (ops : List (UndoOp α)) :
    Option (Editor α) := ops.foldlM (UndoOp.exec token) ed

theorem UndoRun.execAll {token : RevId → RevToken} : ∀ (ops : List (UndoOp α)) {ed ed' : Editor α},
    UndoRun token (fun _ _ ↦ True) ed → (∀ op ∈ ops, op.WellFormed) →
    UndoOp.execAll token ed ops = some ed' → UndoRun token (fun _ _ ↦ True) ed' := by
  intro ops
  induction ops with
  | nil =>
    intro ed ed' h _ hrun
    obtain rfl := Option.some.inj hrun
    exact h
  | cons op ops ih =>
    intro ed ed' h hops hrun
    rw [UndoOp.execAll, List.foldlM_cons, Option.bind_eq_bind, Option.bind_eq_some_iff] at hrun
    obtain ⟨ed₁, hs, hrun⟩ := hrun
    exact ih (.step h op (hops op (by simp)) (fun _ _ _ ↦ trivial) hs)
      (fun op' hop' ↦ hops op' (by simp [hop'])) hrun

/-- The engine and the editor agree on whether a group is undone, for every group that is live or
has an edit. -/
def Agrees (ed : Editor α) : Prop :=
  ∀ gr, (gr ∈ ed.liveUndos ∨ ∃ r ∈ ed.engine.revs, gr ∈ r.edit.group?) →
    (gr ∈ ed.engine.undoneGroups ↔ gr ∈ ed.undos)

/-- The bookkeeping is consistent and the engine encodes a ledger. When all collections of the run
are `good`, the engine and the editor agree. -/
structure Consistent (good : Prop) (ed : Editor α) (g : Ledger α) (x : Atom α → ℕ) : Prop where
  state : UndoState ed
  accounted : ed.engine.Accounted g x
  text : ed.text = ed.engine.text
  undone_lt : ∀ gr ∈ ed.engine.undoneGroups, gr < ed.undoGroupId
  exact : good → ∀ k ∈ g.atoms, x k = 0
  agrees : good → Agrees ed

variable {good : Prop} {g : Ledger α} {x : Atom α → ℕ} {token : RevId → RevToken}

theorem consistent_withText {text : List α} (h : withText token text = some ed) :
    ∃ g x, Consistent good ed g x := by
  rw [withText, Option.bind_eq_bind, Option.bind_eq_some_iff] at h
  obtain ⟨engine, hnew, h⟩ := h
  obtain ⟨headRevId, -, h⟩ := Option.bind_eq_some_iff.mp h
  obtain rfl := Option.some.inj h
  obtain ⟨g, hg⟩ := Engine.exact_new hnew
  have hundone : engine.undoneGroups = ∅ := by
    obtain ⟨e, he, hcases⟩ := Engine.new_eq token text
    rw [hnew] at he
    obtain rfl := Option.some.inj he
    rcases hcases with rfl | ⟨d, u', -, hed⟩
    · rfl
    · rcases hed.cases Engine.represents_empty with ⟨rfl, -⟩ | ⟨headMax, -, rfl, -⟩ <;> rfl
  have hstate : UndoState (α := α) ⟨engine.getHead, engine, headRevId, engine.getHead, headRevId, 1,
      [0], 1, ∅, ∅, false, .other, .other, 0⟩ := by
    constructor <;> simp [maxUndos]
  refine ⟨g, _, hstate, hg.accounted, rfl, by simp [hundone], fun _ _ _ ↦ rfl, fun _ gr _ ↦ ?_⟩
  simp [hundone]

/-- An edit of the engine with a live group. -/
theorem Consistent.edited (h : Consistent good ed g x) {ed₁ : Editor α} {gr : ℕ}
    (hgr : GroupCalculated ed ed₁ gr) {priority : ℕ} {base : RevToken} {d : Delta α}
    (hd : d.WellFormed) {engine : Engine α}
    (hok : ed.engine.editRev token priority gr base d = some engine)
    (hengine : ed'.engine = engine) (htext : ed'.text = engine.getHead)
    (hlive : ed'.liveUndos = ed₁.liveUndos) (hcur : ed'.curUndo = ed₁.curUndo)
    (hundos : ed'.undos = ed₁.undos) (hgc : ed'.gcUndos = ed₁.gcUndos)
    (hid : ed'.undoGroupId = ed₁.undoGroupId) : ∃ g' x', Consistent good ed' g' x' := by
  have hstate : UndoState ed' := hgr.state.congr hlive hcur hundos hgc hid
  rw [Engine.editRev, Option.bind_eq_bind, Option.bind_eq_some_iff] at hok
  obtain ⟨res, hres, hok⟩ := hok
  cases res with
  | error err => cases hok
  | ok e' =>
    obtain rfl := Option.some.inj hok
    -- both a live group and a new one are undone for the editor when they are for the engine
    have hagree : good → ∀ gr' ∈ ed₁.liveUndos,
        (gr' ∈ ed.engine.undoneGroups ↔ gr' ∈ ed.undos) := by
      intro hgood gr' hmem
      rcases hgr.live gr' hmem with hmem | rfl
      · exact h.agrees hgood gr' (.inl hmem)
      · exact iff_of_false (fun hin ↦ lt_irrefl _ (h.undone_lt _ hin))
          fun hin ↦ lt_irrefl _ (h.state.undos_lt _ hin)
    have hle : ed.undoGroupId ≤ ed'.undoGroupId := hid ▸ hgr.undoGroupId
    obtain ⟨pre, r, post, u', -, -, hed⟩ := h.accounted.represents.tryEditRev_ok hd hres
    rcases h.accounted.edited hed with rfl | ⟨headMax, he', hacc⟩
    · refine ⟨g, x, hstate, hengine ▸ h.accounted, by rw [htext, hengine]; rfl, ?_, h.exact, ?_⟩
      · rw [hengine]
        exact fun gr' hin ↦ (h.undone_lt gr' hin).trans_le hle
      · intro hgood gr' hmem
        rw [hengine, hlive] at hmem
        rw [hengine, hundos, hgr.undos]
        rcases hmem with hmem | hmem
        · exact hagree hgood gr' hmem
        · exact h.agrees hgood gr' (.inr hmem)
    · have hundone : e'.undoneGroups = ed.engine.undoneGroups := by rw [he']; rfl
      refine ⟨_, _, hstate, hengine ▸ hacc, by rw [htext, hengine]; rfl, ?_, ?_, ?_⟩
      · rw [hengine, hundone]
        exact fun gr' hin ↦ (h.undone_lt gr' hin).trans_le hle
      · intro hgood k hk
        split
        · next hown =>
          refine h.exact hgood k ?_
          rw [← hed.old]
          refine List.mem_filter.mpr ⟨hk, ?_⟩
          rw [own_eq_isOwn] at hown
          cases hi : isOwn ed.engine.nextRevId k <;> simp_all
        · rfl
      · intro hgood gr' hmem
        rw [hengine, hlive] at hmem
        rw [hengine, hundone, hundos, hgr.undos]
        rcases hmem with hmem | ⟨q, hq, hgr'⟩
        · exact hagree hgood gr' hmem
        · rw [he'] at hq
          rcases List.mem_append.mp hq with hq | hq
          · exact h.agrees hgood gr' (.inr ⟨q, hq, hgr'⟩)
          · rw [List.mem_singleton.mp hq] at hgr'
            rw [← Option.some.inj hgr']
            exact hagree hgood gr hgr.mem

/-- An undo of the engine for the groups of the editor. -/
theorem Consistent.undone (h : Consistent good ed g x) (groups : Finset ℕ) :
    ∃ engine, ed.engine.undo groups = some engine ∧ ∀ ed', UndoState ed' → ed'.engine = engine →
      ed'.text = engine.getHead → ed'.undos = groups → ∃ g' x', Consistent good ed' g' x' := by
  obtain ⟨pre, post, hrevs, hlen, hcases⟩ := h.accounted.undo_cases groups
  have hzero : good → ∀ k ∈ g.atoms, (if known pre k then x k else 0) = 0 := fun hgood k hk ↦ by
    rw [h.exact hgood k hk, ite_self]
  obtain ⟨engine, g', hundo, hacc, hatoms, hundone⟩ : ∃ engine g',
      ed.engine.undo groups = some engine ∧
      engine.Accounted g' (fun k ↦ if known pre k then x k else 0) ∧ g'.atoms = g.atoms ∧
      engine.undoneGroups = groups := by
    rcases hcases with ⟨-, hundo, hacc⟩ | ⟨-, headMax, -, hundo, hacc⟩
    · exact ⟨_, _, hundo, hacc, rfl, rfl⟩
    · exact ⟨_, _, hundo, hacc, rfl, rfl⟩
  refine ⟨engine, hundo, fun ed' hstate hengine htext hundos ↦
    ⟨g', _, hstate, hengine ▸ hacc, by rw [htext, hengine]; rfl, ?_, hatoms ▸ hzero, ?_⟩⟩
  · rw [hengine, hundone, ← hundos]
    exact hstate.undos_lt
  · intro _ gr _
    rw [hengine, hundone, hundos]

end Editor

/-! ## Collections -/

namespace Engine

variable {e : Engine α} {g : Ledger α} {x : Atom α → ℕ} {gcGroups : Finset ℕ}

/-- When the head revision is an edit of a collected group, it is undone exactly if it inserts
nothing. When every character is collected, all undone groups are. -/
structure GcKeepsUndos (e : Engine α) (gcGroups : Finset ℕ) : Prop where
  head : ∀ r, e.revs.getLast? = some r → ∀ priority undoGroup inserts deletes,
    r.edit = .edit priority undoGroup inserts deletes → undoGroup ∈ gcGroups →
    (undoGroup ∈ e.undoneGroups ↔ inserts.isEmpty = true)
  rest : (∃ g, e.Represents g ∧ ∀ k ∈ g.atoms, Collected e g gcGroups k) →
    e.undoneGroups ⊆ gcGroups

theorem GcKeepsUndos.lostCount_eq_zero (h : GcKeepsUndos e gcGroups) (k : Atom α) :
    lostCount e g gcGroups k = 0 := by
  rw [lostCount]
  split
  · next id m p gr i d hlast =>
    rw [if_neg]
    rintro ⟨hg, hnot, hi⟩
    exact hnot ((h.head _ hlast p gr i d rfl hg).mpr hi)
  · rfl

/-- No edit of an undone collected group is left. -/
theorem Represents.not_undone_of_collected (h : e.Represents g) (hkeeps : GcKeepsUndos e gcGroups)
    {r : Revision} (hr : r ∈ collectedRevs e g gcGroups) {gr : ℕ} (hgr : gr ∈ r.edit.group?)
    (hgc : gr ∈ gcGroups) : gr ∉ e.undoneGroups := by
  intro hundone
  obtain ⟨mid, q, post, hrevs, hq⟩ := mem_survivors hr
  rw [(shrinkRevision_eq_some hq).2.2.1] at hgr
  cases hed : q.edit with
  | undo t b => rw [hed] at hgr; cases hgr
  | edit p gr' i d =>
    rw [hed] at hgr
    obtain rfl : gr' = gr := Option.some.inj hgr
    -- it is left because of an atom that it inserted
    rw [shrinkRevision, hed] at hq
    simp only [hgc, decide_true, Bool.not_true, Bool.false_and, Bool.or_false, Bool.not_eq_true',
      Option.ite_none_right_eq_some] at hq
    have hown := mt Subset.isEmpty_label.mpr (Bool.eq_false_iff.mp hq.1)
    push Not at hown
    obtain ⟨k, hk, hown⟩ := hown
    obtain ⟨hku, hzero⟩ := mem_collectedLedger.mp (mem_unionAt.mp hk).1
    have hkq : k.rev = q.revId := by
      by_contra hne
      exact hown (by simp [own, hne])
    have hmem : q ∈ e.revs := by simp [hrevs]
    by_cases hhead : e.getHeadRevId = some q.revId
    · -- the head revision inserts nothing
      obtain ⟨last, hlast, -, hhead'⟩ := h.exists_getLast
      rw [hhead] at hhead'
      have heq : q = last := List.inj_on_of_nodup_map h.history.ids hmem
        (List.mem_of_getLast? hlast) (Option.some.inj hhead')
      obtain ⟨init, hinit⟩ := List.getLast?_eq_some_iff.mp hlast
      have henc := h.history.encodes init last [] hinit
      rw [← hinit, h.history.unionAt_self, Revision.Encodes, ← heq, hed] at henc
      have hi := (hkeeps.head last hlast p gr' i d (heq ▸ hed) hgc).mp hundone
      rw [henc.1] at hi
      exact hown (Subset.isEmpty_label.mp hi k hku)
    · refine h.collected_iff.mp ⟨q, hmem, hhead, gr', by rw [hed]; rfl, hgc, ?_⟩ hzero
      rw [if_pos hundone]
      exact hkq

end Engine

namespace Editor

variable {ed ed' : Editor α} {good : Prop} {g : Ledger α} {x : Atom α → ℕ}
  {token : RevId → RevToken}

theorem Consistent.collected (h : Consistent good ed g x)
    (hkeeps : good → ed.engine.GcKeepsUndos ed.gcUndos) :
    ∃ engine, ed.engine.gc ed.gcUndos = some engine ∧ ∀ ed', ed'.engine = engine →
      ed'.text = ed.text → ed'.liveUndos = ed.liveUndos → ed'.curUndo = ed.curUndo →
      ed'.undos = ed.undos \ ed.gcUndos → ed'.gcUndos = ∅ → ed'.undoGroupId = ed.undoGroupId →
      ∃ g' x', Consistent good ed' g' x' := by
  obtain ⟨hgc, hacc⟩ := h.accounted.gc_eq ed.gcUndos
  have hrep := h.accounted.represents
  refine ⟨_, hgc, fun ed' hengine htext hlive hcur hundos hgcs hid ↦ ?_⟩
  have hstate : UndoState ed' := by
    have hst := h.state
    refine ⟨hcur ▸ hst.pos, by rw [hcur, hlive]; exact hst.le, hlive ▸ hst.max, ?_, ?_,
      hlive ▸ hst.nodup, by rw [hlive, hid]; exact hst.live_lt, ?_, by simp [hgcs], by simp [hgcs]⟩
    · rw [hcur, hlive, hundos]
      exact fun gr hgr hin ↦ hst.done gr hgr (Finset.mem_sdiff.mp hin).1
    · rw [hcur, hlive, hundos]
      exact fun gr hgr ↦ Finset.mem_sdiff.mpr ⟨hst.undone gr hgr,
        hst.live_not_gc gr (List.mem_of_mem_drop hgr)⟩
    · rw [hundos, hid]
      exact fun gr hgr ↦ hst.undos_lt gr (Finset.mem_sdiff.mp hgr).1
  refine ⟨_, _, hstate, hengine ▸ hacc, ?_, ?_, ?_, ?_⟩
  · rw [htext, h.text, hengine]
    rfl
  · rw [hengine, hid]
    intro gr hgr
    refine h.undone_lt gr ?_
    rw [Engine.collectedEngine] at hgr
    dsimp only at hgr
    split at hgr
    · exact hgr
    · cases hgr
  · intro hgood k hk
    rw [h.exact hgood k (Engine.mem_collectedLedger.mp hk).1, (hkeeps hgood).lostCount_eq_zero]
  · intro hgood gr hmem
    rw [hengine, hlive] at hmem
    rw [hengine, hundos]
    cases hany : (ed.engine.collectedRevs g ed.gcUndos).any fun r ↦ r.edit.isEdit with
    | true =>
      have hw : (ed.engine.collectedEngine g ed.gcUndos).undoneGroups = ed.engine.undoneGroups := by
        rw [Engine.collectedEngine, hany, if_pos rfl]
      rw [hw]
      rcases hmem with hmem | ⟨r, hr, hgr⟩
      · rw [h.agrees hgood gr (.inl hmem), Finset.mem_sdiff]
        simp [h.state.live_not_gc gr hmem]
      · by_cases hgc : gr ∈ ed.gcUndos
        · have := hrep.not_undone_of_collected (hkeeps hgood) hr hgr hgc
          simp [this, hgc]
        · obtain ⟨mid, q, post, hrevs, hq⟩ := mem_survivors hr
          rw [(shrinkRevision_eq_some hq).2.2.1] at hgr
          rw [h.agrees hgood gr (.inr ⟨q, by rw [hrevs]; simp, hgr⟩), Finset.mem_sdiff]
          simp [hgc]
    | false =>
      -- nothing is left, and the engine has forgotten all undone groups
      have hw : (ed.engine.collectedEngine g ed.gcUndos).undoneGroups = ∅ := by
        rw [Engine.collectedEngine, hany, if_neg (by simp)]
      have hnil := hrep.collected_eq_nil ed.gcUndos hany
      have hall : ∀ k ∈ g.atoms, ed.engine.Collected g ed.gcUndos k := fun k hk ↦ by
        rw [hrep.collected_iff]
        intro hzero
        have hmem := Engine.mem_collectedLedger.mpr ⟨hk, hzero⟩
        rw [hnil] at hmem
        cases hmem
      have hsub := (hkeeps hgood).rest ⟨g, hrep, hall⟩
      rw [hw]
      refine iff_of_false (Finset.notMem_empty gr) fun hin ↦ ?_
      obtain ⟨hin, hgc⟩ := Finset.mem_sdiff.mp hin
      rcases hmem with hmem | ⟨r, hr, hgr⟩
      · exact hgc (hsub ((h.agrees hgood gr (.inl hmem)).mpr hin))
      · have := List.any_eq_false.mp hany r hr
        cases hed : r.edit with
        | undo t b => rw [hed] at hgr; cases hgr
        | edit p gr' i d => simp [hed, Contents.isEdit] at this

/-- Every operation keeps an editor consistent. -/
theorem Consistent.step (h : Consistent good ed g x) {op : UndoOp α} (hop : op.WellFormed)
    (hgc : op = .decRevsInFlight → ed.revsInFlight = 1 → ed.gcUndos ≠ ∅ →
      good → ed.engine.GcKeepsUndos ed.gcUndos)
    (hs : op.exec token ed = some ed') : ∃ g' x', Consistent good ed' g' x' := by
  cases op with
  | addDelta editType delta =>
    have hstate : UndoState { ed with thisEditType := editType } :=
      h.state.congr rfl rfl rfl rfl rfl
    obtain ⟨ed₁, gr, hcalc, hgr⟩ := hstate.calculateUndoGroup
    rw [UndoOp.exec, applyDirectDelta, addDelta, Option.bind_eq_bind, Option.bind_eq_some_iff] at hs
    obtain ⟨headRevId, hhead, hs⟩ := hs
    rw [hcalc, Option.bind_eq_bind, Option.bind_some, Option.bind_eq_bind,
      Option.bind_eq_some_iff, hgr.engine] at hs
    obtain ⟨engine, hedit, hs⟩ := hs
    obtain rfl := Option.some.inj hs
    have hgr' : GroupCalculated ed ed₁ gr :=
      ⟨hgr.state, hgr.mem, hgr.cases, hgr.live, hgr.engine, hgr.text, hgr.undos, hgr.pristine,
        hgr.undoGroupId⟩
    exact h.edited hgr' hop hedit rfl rfl rfl rfl rfl rfl rfl
  | doUndo =>
    rw [UndoOp.exec] at hs
    by_cases hcur : ed.curUndo > 1
    · obtain ⟨gr, -, -, -, hundo, hstate⟩ := h.state.doUndo_eq hcur
      obtain ⟨engine, he, hcons⟩ := h.undone (insert gr ed.undos)
      rw [hundo, he] at hs
      obtain rfl := Option.some.inj hs
      exact hcons _ (hstate engine) rfl rfl rfl
    · rw [doUndo, if_neg hcur] at hs
      obtain rfl := Option.some.inj hs
      exact ⟨g, x, h⟩
  | doRedo =>
    rw [UndoOp.exec] at hs
    by_cases hcur : ed.curUndo < ed.liveUndos.length
    · obtain ⟨hredo, hstate⟩ := h.state.doRedo_eq (List.getElem?_eq_getElem hcur)
      obtain ⟨engine, he, hcons⟩ := h.undone (ed.undos.erase ed.liveUndos[ed.curUndo])
      rw [hredo, he] at hs
      obtain rfl := Option.some.inj hs
      exact hcons _ (hstate engine) rfl rfl rfl
    · rw [doRedo, if_neg hcur] at hs
      obtain rfl := Option.some.inj hs
      exact ⟨g, x, h⟩
  | updateEditType | commitUndoCheckpoint | incrementRevsInFlight =>
    obtain rfl := Option.some.inj hs
    exact ⟨g, x, h.state.congr rfl rfl rfl rfl rfl, h.accounted, h.text, h.undone_lt, h.exact,
      h.agrees⟩
  | decRevsInFlight =>
    rw [UndoOp.exec, decRevsInFlight] at hs
    split at hs
    · cases hs
    · next hflight =>
      rw [runGcUndos] at hs
      split at hs
      · next hcond =>
        have hone : ed.revsInFlight - 1 = 0 := hcond.1
        obtain ⟨engine, he, hcons⟩ := h.collected (hgc rfl (by omega) hcond.2)
        dsimp only at hs
        rw [he] at hs
        obtain rfl := Option.some.inj hs
        exact hcons _ rfl rfl rfl rfl rfl rfl rfl
      · obtain rfl := Option.some.inj hs
        exact ⟨g, x, h.state.congr rfl rfl rfl rfl rfl, h.accounted, h.text, h.undone_lt, h.exact,
          h.agrees⟩

theorem UndoRun.consistent
    (h : UndoRun token (fun e gcGroups ↦ good → e.GcKeepsUndos gcGroups) ed) :
    ∃ g x, Consistent good ed g x := by
  induction h with
  | start hnew => exact consistent_withText hnew
  | step _ op hop hgc hs ih =>
    obtain ⟨g, x, hcons⟩ := ih
    exact hcons.step hop hgc hs

theorem UndoRun.mono {allowed allowed' : Engine α → Finset ℕ → Prop}
    (hle : ∀ e gcGroups, allowed e gcGroups → allowed' e gcGroups) (h : UndoRun token allowed ed) :
    UndoRun token allowed' ed := by
  induction h with
  | start hnew => exact .start hnew
  | step _ op hop hgc hs ih =>
    exact .step ih op hop (fun h1 h2 h3 ↦ hle _ _ (hgc h1 h2 h3)) hs

/-! ## Undo and redo in runs -/

/-- The undo groups of the editor are in order, and neither undo nor redo panics. -/
structure UndosInOrder (ed : Editor α) : Prop where
  pos : 1 ≤ ed.curUndo
  le : ed.curUndo ≤ ed.liveUndos.length
  max : ed.liveUndos.length ≤ maxUndos
  done : ∀ gr ∈ ed.liveUndos.take ed.curUndo, gr ∉ ed.undos
  undone : ∀ gr ∈ ed.liveUndos.drop ed.curUndo, gr ∈ ed.undos
  doUndo : ed.doUndo.isSome
  doRedo : ed.doRedo.isSome

/-- A redo right after an undo that changed something restores the text. -/
def RedoRestores (ed : Editor α) : Prop :=
  ∀ ed₁, ed.doUndo = some ed₁ → ed₁ ≠ ed → ∃ ed₂, ed₁.doRedo = some ed₂ ∧ ed₂.text = ed.text

theorem Consistent.undosInOrder (h : Consistent good ed g x) : UndosInOrder ed := by
  refine ⟨h.state.pos, h.state.le, h.state.max, h.state.done, h.state.undone, ?_, ?_⟩
  · by_cases hcur : ed.curUndo > 1
    · obtain ⟨gr, -, -, -, hundo, -⟩ := h.state.doUndo_eq hcur
      obtain ⟨engine, he, -⟩ := h.undone (insert gr ed.undos)
      rw [hundo, he]
      rfl
    · rw [Editor.doUndo, if_neg hcur]
      rfl
  · by_cases hcur : ed.curUndo < ed.liveUndos.length
    · obtain ⟨hredo, -⟩ := h.state.doRedo_eq (List.getElem?_eq_getElem hcur)
      obtain ⟨engine, he, -⟩ := h.undone (ed.undos.erase ed.liveUndos[ed.curUndo])
      rw [hredo, he]
      rfl
    · rw [Editor.doRedo, if_neg hcur]
      rfl

/-- The texts of an editor whose engine agrees with it only depend on the undone groups. -/
theorem Consistent.redoRestores (h : Consistent True ed g x) : RedoRestores ed := by
  intro ed₁ hundo hne
  have hex : ed.engine.Exact g := ⟨h.accounted.represents, fun k hk ↦ by
    rw [h.accounted.count k hk, h.exact trivial k hk, Nat.add_zero]⟩
  by_cases hcur : ed.curUndo > 1
  · obtain ⟨gr, -, hgr, hget, hundo', hstate⟩ := h.state.doUndo_eq hcur
    obtain ⟨engine₁, g₁, he₁, hex₁, hatoms, -, hreplay⟩ := hex.undo_eq (insert gr ed.undos)
    obtain ⟨engine₂, g₂, he₂, -, -, htext, -⟩ := hex₁.undo_eq ed.undos
    rw [hundo', he₁] at hundo
    obtain rfl := Option.some.inj hundo
    have hredo := ((hstate engine₁).doRedo_eq hget).1
    have herase : (insert gr ed.undos).erase gr = ed.undos := Finset.erase_insert hgr
    refine ⟨afterRedo (afterUndo ed gr engine₁) gr engine₂, ?_, ?_⟩
    · rw [hredo]
      change (engine₁.undo ((insert gr ed.undos).erase gr)).map _ = _
      rw [herase, he₂]
      rfl
    · -- the replay for the groups of the editor is that for the groups of the engine
      change engine₂.text = ed.text
      rw [htext, h.text, hex.represents.text, hatoms]
      refine visible_congr fun k hk ↦ ?_
      rw [hreplay _ k hk, hex.count k hk]
      exact replay_congr (fun r hr gr' hgr' ↦ (h.agrees trivial gr' (.inr ⟨r, hr, hgr'⟩)).symm) k
  · rw [doUndo, if_neg hcur] at hundo
    exact absurd (Option.some.inj hundo).symm hne

/-- **The undo state machine.** In every run the undo groups of the editor are in order, so that
neither undo nor redo panics. In every run whose collections keep the undo groups, a redo right
after an undo restores the text. -/
theorem undoRun_undosInOrder (token : RevId → RevToken) :
    (∀ ed : Editor α, UndoRun token (fun _ _ ↦ True) ed → UndosInOrder ed) ∧
      ∀ ed : Editor α, UndoRun token Engine.GcKeepsUndos ed → UndosInOrder ed ∧
        RedoRestores ed := by
  refine ⟨fun ed h ↦ ?_, fun ed h ↦ ?_⟩
  · obtain ⟨g, x, hcons⟩ : ∃ g x, Consistent False ed g x :=
      UndoRun.consistent (h.mono fun _ _ _ hfalse ↦ hfalse.elim)
    exact hcons.undosInOrder
  · obtain ⟨g, x, hcons⟩ : ∃ g x, Consistent True ed g x :=
      UndoRun.consistent (h.mono fun _ _ hkeeps _ ↦ hkeeps)
    exact ⟨hcons.undosInOrder, hcons.redoRestores⟩

/-- Typing after an undo joins the undone group, and what is typed stays hidden. The next group
makes the editor collect the undone one. The engine keeps its last edit because that is the head,
and shows it with the next undo. -/
theorem redo_shows_hidden_edit : ¬ ∀ ed : Editor ℕ, UndoRun RevId.num (fun _ _ ↦ True) ed →
    RedoRestores ed := by
  obtain ⟨ed, hrun, htext, hcur, hredo⟩ : ∃ ed : Editor ℕ,
      UndoRun RevId.num (fun _ _ ↦ True) ed ∧ ed.text = [] ∧
      ed.doUndo.map curUndo ≠ some ed.curUndo ∧ (ed.doUndo.bind doRedo).map text = some [8] := by
    obtain ⟨ed, hed, hprop⟩ : ∃ ed ∈ (withText RevId.num ([] : List ℕ)).bind fun ed ↦
        UndoOp.execAll RevId.num ed [.addDelta .insertChars (Delta.simpleEdit 0 0 [7] 0), .doUndo,
          .addDelta .insertChars (Delta.simpleEdit 0 0 [8] 0),
          .addDelta .other (Delta.simpleEdit 0 0 [] 0), .incrementRevsInFlight,
          .decRevsInFlight], ed.text = [] ∧ ed.doUndo.map curUndo ≠ some ed.curUndo ∧
        (ed.doUndo.bind doRedo).map text = some [8] := by decide +kernel
    obtain ⟨ed₀, hstart, hrun⟩ := Option.bind_eq_some_iff.mp hed
    refine ⟨ed, UndoRun.execAll _ (.start hstart) ?_ hrun, hprop⟩
    simp only [List.mem_cons, List.not_mem_nil, or_false, forall_eq_or_imp, forall_eq,
      UndoOp.WellFormed, and_true]
    decide
  intro h
  cases hundo : ed.doUndo with
  | none =>
    rw [hundo] at hredo
    cases hredo
  | some ed₁ =>
    rw [hundo] at hcur hredo
    obtain ⟨ed₂, hed₂, htext₂⟩ := h ed hrun ed₁ hundo fun heq ↦ hcur (by rw [heq]; rfl)
    rw [Option.bind_some, hed₂, Option.map_some, htext₂, htext] at hredo
    cases hredo

end Editor

end EeEditor
