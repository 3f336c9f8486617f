import EeEditor.Background.SaveTask
import EeEditor.Editor.Pristine

/-!
# Saves of ropes

The model of `do_save` and `finish_async_save` in `tabs/contexts.rs` for rope-backed buffers. A save
is given the text of its moment, as `rope_snapshot_for_save` cleans it up, with the head revision;
when it is done, the head becomes the pristine revision if it is equivalent to that one. Edits go on
in between.
-/

namespace EeEditor.Background

open Editor (SaveOp SavedFrom)

/-- A buffer with its saves. -/
structure RopeSaves where
  task : SaveTask
  editor : Editor Char
  /-- The revision that each save was given, and the text that it writes. -/
  saves : ℕ → RevId × List Char

namespace RopeSaves

/-- The buffer as it was opened stands for a save before all others. -/
def new (editor : Editor Char) : RopeSaves :=
  ⟨.new, editor, fun _ ↦ (editor.pristineRevId, editor.text)⟩

inductive Event where
  | task (event : SaveTask.Event)
  | edit (op : SaveOp Char) (wellFormed : op.WellFormed) (unsaved : op ≠ .setPristine)

variable (token : RevId → RevToken) (cleanUp : List Char → List Char)

/-- `do_save`, with the snapshot of `rope_snapshot_for_save`. -/
def doSave (self : RopeSaves) (task : SaveTask) : Option RopeSaves := do
  let savedRevId ← self.editor.engine.getHeadRevId
  return { self with
    task := task
    saves := Function.update self.saves task.generation (savedRevId, cleanUp self.editor.text) }

/-- `finish_async_save`, of a save that has written its text. -/
def finishAsyncSave (self : RopeSaves) (task : SaveTask) (generation : ℕ) : Option RopeSaves := do
  let (editor, _) ← self.editor.setPristineIfEquivalentRevision (self.saves generation).1
  return { self with task := task, editor := editor }

def step (self : RopeSaves) : Event → Option RopeSaves
  | .task event => do
    let task ← self.task.step event
    match event, self.task.callback with
    | .startSave, _ => self.doSave cleanUp task
    | .finish, .polled (some ⟨generation, .saved⟩) => self.finishAsyncSave task generation
    | _, _ => some { self with task := task }
  | .edit op _ _ => (op.exec token self.editor).map fun editor ↦ { self with editor := editor }

/-! ## What a run should do -/

/-- The completion of a save leaves the text, and a buffer that is pristine then has the text that
was written. -/
def Completes (self : RopeSaves) (event : Event) : Prop :=
  ∀ self' generation, event = .task .finish →
    self.task.callback = .polled (some ⟨generation, .saved⟩) →
    self.step token cleanUp event = some self' →
    self'.editor.text = self.editor.text ∧
      (self'.editor.isPristine = some true → self'.editor.text = (self.saves generation).2)

/-- Nothing gets between a save and its completion: there is nothing to clean up, the edits keep
what the walk back to the saved revision needs, and a buffer that is pristine when a save is done
has not left the revision that was saved. -/
def Undisturbed (self : RopeSaves) : Event → Prop
  | .task .startSave => cleanUp self.editor.text = self.editor.text
  | .task .finish => ∀ generation headRevId,
    self.task.callback = .polled (some ⟨generation, .saved⟩) →
    self.editor.engine.getHeadRevId = some headRevId → self.editor.isPristine = some true →
    self.editor.engine.isEquivalentRevision (self.saves generation).1 headRevId = some true
  | .task _ => True
  | .edit op _ _ => op.KeepsRevision self.editor (self.saves self.task.generation).1

/-! ## The invariant -/

/-- The walk back to the revision of the newest save finds what it writes. -/
structure Inv (rope : RopeSaves) : Prop where
  base : rope.task.Base
  saved : SavedFrom rope.editor (rope.saves rope.task.generation).1
    (rope.saves rope.task.generation).2

variable {token cleanUp} {self self' : RopeSaves} {task : SaveTask} {event : Event}

theorem inv_new {text : List Char} {editor : Editor Char}
    (h : Editor.withText token text = some editor) : Inv (new editor) :=
  ⟨SaveTask.base_new, Editor.saved_withText h⟩

theorem Inv.doSave (h : Inv self) (hbase : task.Base)
    (hclean : cleanUp self.editor.text = self.editor.text)
    (hs : self.doSave cleanUp task = some self') : Inv self' := by
  obtain ⟨headRevId, hhead, hs⟩ := Option.bind_eq_some_iff.mp hs
  cases hs
  refine ⟨hbase, ?_⟩
  dsimp only
  rw [Function.update_self, hclean]
  exact h.saved.head hhead

/-- The completion of a save changes nothing but the pristine revision. -/
theorem finishAsyncSave_eq {generation : ℕ}
    (hs : self.finishAsyncSave task generation = some self') :
    ∃ headRevId equivalent, self.editor.engine.getHeadRevId = some headRevId ∧
      self.editor.engine.isEquivalentRevision (self.saves generation).1 headRevId
        = some equivalent ∧
      self' = { self with
        task := task
        editor := { self.editor with
          pristineRevId := if equivalent then headRevId else self.editor.pristineRevId } } := by
  obtain ⟨⟨editor, equivalent⟩, hset, hs⟩ := Option.bind_eq_some_iff.mp hs
  cases hs
  obtain ⟨headRevId, hhead, hset⟩ := Option.bind_eq_some_iff.mp hset
  obtain ⟨equivalent, heq, hset⟩ := Option.bind_eq_some_iff.mp hset
  refine ⟨headRevId, equivalent, hhead, heq, ?_⟩
  cases equivalent <;> cases hset <;> rfl

theorem Inv.finishAsyncSave (h : Inv self) (hbase : task.Base)
    (hgeneration : task.generation = self.task.generation) {generation : ℕ}
    (hs : self.finishAsyncSave task generation = some self') : Inv self' := by
  obtain ⟨headRevId, equivalent, -, -, rfl⟩ := finishAsyncSave_eq hs
  refine ⟨hbase, ?_⟩
  dsimp only
  rw [hgeneration]
  exact ⟨h.saved.savedAt, h.saved.text⟩

theorem Inv.step (h : Inv self) (hquiet : Undisturbed cleanUp self event)
    (hstep : self.step token cleanUp event = some self') : Inv self' := by
  cases event with
  | task event =>
    obtain ⟨task, htask, hstep⟩ := Option.bind_eq_some_iff.mp hstep
    have hbase := h.base.step htask
    split at hstep
    · exact h.doSave hbase hquiet hstep
    · exact h.finishAsyncSave hbase (SaveTask.generation_of_step htask nofun) hstep
    · rename_i hne _ _
      cases hstep
      refine ⟨hbase, ?_⟩
      dsimp only
      rw [SaveTask.generation_of_step htask hne]
      exact h.saved
  | edit op wellFormed unsaved =>
    obtain ⟨editor, hop, rfl⟩ := Option.map_eq_some_iff.mp hstep
    exact ⟨h.base, (h.saved.step wellFormed unsaved hquiet hop).1⟩

theorem Inv.completes (h : Inv self) (hquiet : Undisturbed cleanUp self event) :
    Completes token cleanUp self event := by
  rintro self' generation rfl hhand hstep
  obtain ⟨task, -, hstep⟩ := Option.bind_eq_some_iff.mp hstep
  rw [hhand] at hstep
  dsimp only at hstep
  obtain ⟨headRevId, equivalent, hhead, heq, rfl⟩ := finishAsyncSave_eq hstep
  refine ⟨rfl, fun hpristine ↦ ?_⟩
  obtain rfl := h.base.hand_newest _ hhand
  have hequivalent : equivalent = true := by
    cases equivalent with
    | true => rfl
    | false =>
      -- The pristine revision is that of an earlier save.
      exact Option.some.inj (heq.symm.trans (hquiet _ headRevId hhand hhead hpristine))
  subst hequivalent
  obtain ⟨g, hg⟩ := h.saved.savedAt
  exact h.saved.text.trans (hg.text_eq_of_isEquivalentRevision hhead heq)

/-- **Saves of ropes lose nothing** in undisturbed runs. -/
theorem throughout_completes {text : List Char} {editor : Editor Char}
    (hstart : Editor.withText token text = some editor) {events : List Event}
    (hquiet : Throughout (step token cleanUp) (new editor) events (Undisturbed cleanUp)) :
    Throughout (step token cleanUp) (new editor) events (Completes token cleanUp) := by
  rintro pre event post rope rfl hrun
  have hinv : Inv rope :=
    exec_invariant (fun _ _ _ h hP hstep ↦ h.step hP hstep) (inv_new hstart) hquiet.of_append hrun
  exact hinv.completes (hquiet pre event post rope rfl hrun)

end RopeSaves

end EeEditor.Background
