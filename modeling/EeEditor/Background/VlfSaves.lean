import EeEditor.Background.RopeSaves
import EeEditor.Vlf.OverlayRuns
import EeEditor.Vlf.Save

/-!
# Saves of very large files

The model of `do_save`, `finish_async_save` and `refresh_after_save` for buffers whose text is an
overlay of edits over a file. A save is given the pieces of its moment, and its worker reads the
original bytes anew from the path of the file. When the save is done, the buffer starts over with
the file at the destination, and is pristine.

Undo and redo are refused in such a buffer, and its edits come as ranges of bytes to replace. The
directory is a function from paths; `Vlf.streamSaveFromSource_spec` says what a worker leaves there.
-/

namespace EeEditor.Background

open Vlf (FilePath PieceOverlay OverlayEditContext OverlayError OverlayLimits)

/-- What `do_save` hands to a worker. -/
structure VlfSave where
  overlay : PieceOverlay
  source : FilePath
  dest : FilePath
  /-- The text that the user sees at that moment. -/
  document : List UInt8

/-- A buffer with its saves. -/
structure VlfSaves where
  task : SaveTask
  files : FilePath → List UInt8
  path : FilePath
  /-- The contents of the file that the buffer has open, which may have been replaced at its
  path. -/
  opened : List UInt8
  overlay : PieceOverlay
  headRevision : ℕ
  pristineRevision : ℕ
  saves : ℕ → VlfSave

namespace VlfSaves

/-- A file that is opened with editing enabled. -/
def new (files : FilePath → List UInt8) (path : FilePath) (limits : OverlayLimits) : VlfSaves where
  task := .new
  files := files
  path := path
  opened := files path
  overlay := .withLimits (files path).length limits
  headRevision := 0
  pristineRevision := 0
  saves := fun _ ↦ ⟨.withLimits (files path).length limits, path, path, files path⟩

/-- The text that the user sees. -/
def text (self : VlfSaves) : List UInt8 := self.overlay.flatten self.opened

def isPristine (self : VlfSaves) : Bool := self.pristineRevision = self.headRevision

inductive Event where
  /-- A step of the task other than a start or a write. -/
  | task (event : SaveTask.Event)
  | doSave (dest : FilePath)
  /-- A worker is done with its destination, which has some contents now. In place it has changed
  the file that is open. -/
  | write (worker : ℕ) (outcome : Outcome) (contents : List UInt8) (inPlace : Bool)
  | replaceRange (start end_ : ℕ) (text : List UInt8) (undoGroup : ℕ)

/-- `do_vlf_replace_range`, between two bytes in any order. -/
def replaceRange (pieceSize : ℕ) (overlay : PieceOverlay) (start end_ : ℕ) (text : List UInt8)
    (ctx : OverlayEditContext) : Option (Except OverlayError Unit × PieceOverlay) := do
  let (result, overlay) ←
    if min start end_ < max start end_ then
      overlay.deleteInGroup pieceSize ⟨min start end_, max start end_⟩ ctx
    else some (.ok (), overlay)
  match result with
  | .error e => return (.error e, overlay)
  | .ok () =>
    if text.isEmpty then return (.ok (), overlay)
    else overlay.insertInGroup pieceSize (min start end_) text ctx

/-- `refresh_after_save`, and `set_pristine`. -/
def refreshAfterSave (self : VlfSaves) (dest : FilePath) : VlfSaves :=
  { self with
    path := dest
    opened := self.files dest
    overlay := .withLimits (self.files dest).length self.overlay.limits
    pristineRevision := self.headRevision }

def step (pieceSize : ℕ) (self : VlfSaves) : Event → Option VlfSaves
  | .doSave dest => do
    let task ← self.task.step .startSave
    return { self with
      task := task
      saves := Function.update self.saves task.generation
        ⟨self.overlay, self.path, dest, self.text⟩ }
  | .write worker outcome contents inPlace => do
    let task ← self.task.step (.write worker outcome)
    if inPlace ∧ (self.saves worker).dest ≠ self.path then none
    else return { self with
      task := task
      files := Function.update self.files (self.saves worker).dest contents
      opened := if inPlace then contents else self.opened }
  | .task .startSave => none
  | .task (.write _ _) => none
  | .task event => do
    let task ← self.task.step event
    match event, self.task.callback with
    | .finish, .polled (some ⟨generation, .saved⟩) =>
      return { self.refreshAfterSave (self.saves generation).dest with task := task }
    | _, _ => return { self with task := task }
  | .replaceRange start end_ text undoGroup => do
    let (result, overlay) ← replaceRange pieceSize self.overlay start end_ text
      ⟨self.headRevision + 1, undoGroup⟩
    return { self with
      overlay := overlay
      headRevision := if result matches .ok () then self.headRevision + 1 else self.headRevision }

/-! ## What a run should do -/

/-- The completion of a save leaves the text, and a buffer that is pristine then has the text that
was saved. -/
def Completes (pieceSize : ℕ) (self : VlfSaves) (event : Event) : Prop :=
  ∀ self' generation, event = .task .finish →
    self.task.callback = .polled (some ⟨generation, .saved⟩) →
    self.step pieceSize event = some self' →
    self'.text = self.text ∧ (self'.isPristine → self'.text = (self.saves generation).document)

/-- The newest save has been started and has not been reported. -/
def Outstanding (self : VlfSaves) : Prop :=
  0 < self.task.generation ∧ self.task.generation ∉ self.task.reportedSaves

/-- Nothing gets between a save and its completion: while a save is outstanding the buffer is
neither edited nor saved again, a write that succeeds leaves the document of its pieces, one that
fails leaves its destination unless it is in place, and one in place leaves what the user sees. -/
def Undisturbed (self : VlfSaves) : Event → Prop
  | .doSave _ => ¬ self.Outstanding
  | .replaceRange _ _ _ _ => ¬ self.Outstanding
  | .write worker outcome contents inPlace =>
    (outcome = .saved → contents =
      (self.saves worker).overlay.flatten (self.files (self.saves worker).source)) ∧
    (outcome ≠ .saved → inPlace = false → contents = self.files (self.saves worker).dest) ∧
    (inPlace = true → self.overlay.flatten contents = self.text)
  | .task _ => True

/-! ## The invariant -/

/-- The newest save has been written, and its result is on the way. -/
def Written (task : SaveTask) : Prop :=
  task.phase task.generation = .publish .saved ∨ task.slot = some ⟨task.generation, .saved⟩ ∨
    task.callback = .polled (some ⟨task.generation, .saved⟩)

/-- The pieces of an outstanding save are those of the buffer. The file that is open is the one at
its path until the newest save has been written, and then its document is at the destination. -/
structure Inv (vlf : VlfSaves) : Prop where
  base : vlf.task.Base
  old : ∀ g, 0 < g → g < vlf.task.generation → SaveTask.Phase.IsDone (vlf.task.phase g)
  overlay : vlf.Outstanding → (vlf.saves vlf.task.generation).overlay = vlf.overlay
  source : vlf.Outstanding → (vlf.saves vlf.task.generation).source = vlf.path
  document : vlf.Outstanding → (vlf.saves vlf.task.generation).document = vlf.text
  intact : vlf.files vlf.path = vlf.opened ∨ Written vlf.task
  written : Written vlf.task →
    vlf.files (vlf.saves vlf.task.generation).dest = (vlf.saves vlf.task.generation).document

variable {pieceSize : ℕ} {self self' : VlfSaves} {task : SaveTask} {event : Event} {worker : ℕ}

theorem not_written_new : ¬ Written .new := by
  rintro (h | h | h) <;> cases h

theorem inv_new (files : FilePath → List UInt8) (path : FilePath) (limits : OverlayLimits) :
    Inv (new files path limits) where
  base := SaveTask.base_new
  old _ _ h := absurd h (Nat.not_lt_zero _)
  overlay h := absurd h.1 (Nat.lt_irrefl 0)
  source h := absurd h.1 (Nat.lt_irrefl 0)
  document h := absurd h.1 (Nat.lt_irrefl 0)
  intact := .inl rfl
  written h := absurd h not_written_new

/-- A worker that is not done is that of the newest save. -/
theorem Inv.worker_eq (h : Inv self) (hborn : self.task.phase worker ≠ .unborn)
    (hrunning : ¬ SaveTask.Phase.IsDone (self.task.phase worker)) :
    worker = self.task.generation := by
  obtain ⟨hpos, hle⟩ := (h.base.born worker).mp hborn
  by_contra hne
  exact hrunning (h.old worker hpos (Nat.lt_of_le_of_ne hle hne))

/-- A save whose worker is not done is outstanding. -/
theorem Inv.outstanding (h : Inv self) (hborn : self.task.phase self.task.generation ≠ .unborn)
    (hrunning : ¬ SaveTask.Phase.IsDone (self.task.phase self.task.generation)) :
    self.Outstanding :=
  ⟨((h.base.born _).mp hborn).1, fun hin ↦ hrunning (h.base.reported_done _ hin)⟩

/-- Once a save is written, its worker is done or about to publish. -/
theorem written_phase (hbase : task.Base) (h : Written task) :
    task.phase task.generation = .publish .saved ∨
      SaveTask.Phase.IsDone (task.phase task.generation) := by
  obtain h | h | h := h
  · exact .inl h
  · exact .inr (hbase.slot_done _ h)
  · exact .inr (hbase.hand_done _ h)

/-- A save that is written is outstanding. -/
theorem Inv.outstanding_of_written (h : Inv self) (hwritten : Written self.task) :
    self.Outstanding := by
  have hborn : self.task.phase self.task.generation ≠ .unborn := by
    obtain hphase | hdone | hdone := written_phase h.base hwritten
    · rw [hphase]
      nofun
    · rw [hdone]
      nofun
    · rw [hdone]
      nofun
  refine ⟨((h.base.born _).mp hborn).1, ?_⟩
  obtain hphase | hslot | hhand := hwritten
  · intro hin
    have hdone := h.base.reported_done _ hin
    rw [hphase] at hdone
    exact SaveTask.Phase.not_isDone_publish hdone
  · exact h.base.slot_new _ hslot
  · exact h.base.hand_new _ hhand

/-- A step of the task that neither starts nor ends a save, and after which the newest save is
written just if it was before. -/
theorem Inv.taskStep (h : Inv self) (hbase : task.Base)
    (hgeneration : task.generation = self.task.generation)
    (hreported : task.reportedSaves = self.task.reportedSaves)
    (hdone : ∀ g, SaveTask.Phase.IsDone (self.task.phase g) → SaveTask.Phase.IsDone (task.phase g))
    (hwritten : Written task ↔ Written self.task) : Inv { self with task := task } := by
  have hout : Outstanding { self with task := task } ↔ self.Outstanding := by
    unfold Outstanding
    rw [hgeneration, hreported]
  refine ⟨hbase, ?_, ?_, ?_, ?_, ?_, ?_⟩
  · intro g hpos hlt
    exact hdone g (h.old g hpos (hgeneration ▸ hlt))
  · intro ho
    dsimp only
    rw [hgeneration]
    exact h.overlay (hout.mp ho)
  · intro ho
    dsimp only
    rw [hgeneration]
    exact h.source (hout.mp ho)
  · intro ho
    dsimp only
    rw [hgeneration]
    exact h.document (hout.mp ho)
  · exact h.intact.imp_right hwritten.mpr
  · intro hw
    dsimp only
    rw [hgeneration]
    exact h.written (hwritten.mp hw)

theorem Inv.doSave (h : Inv self) (hquiet : ¬ self.Outstanding)
    (hstep : self.task.step .startSave = some task) (dest : FilePath) :
    Inv { self with
      task := task
      saves := Function.update self.saves task.generation
        ⟨self.overlay, self.path, dest, self.text⟩ } := by
  have hbase := h.base.step hstep
  obtain ⟨hidle, hstep⟩ := Option.ite_none_right_eq_some.mp hstep
  cases hstep
  have hnew : Function.update self.saves self.task.startSave.generation
      ⟨self.overlay, self.path, dest, self.text⟩ self.task.startSave.generation =
        ⟨self.overlay, self.path, dest, self.text⟩ := Function.update_self ..
  have hnot : ¬ Written self.task.startSave := by
    rintro (hphase | hslot | hhand)
    · have hcheck : self.task.startSave.phase self.task.startSave.generation = .check :=
        Function.update_self ..
      rw [hcheck] at hphase
      cases hphase
    · cases hslot
    · exact absurd (hidle.symm.trans hhand) nofun
  refine ⟨hbase, ?_, ?_, ?_, ?_, ?_, fun hw ↦ absurd hw hnot⟩
  · intro g hpos hlt
    have hlt : g < self.task.generation + 1 := hlt
    have hphase : self.task.startSave.phase g = self.task.phase g :=
      Function.update_of_ne (Nat.ne_of_lt hlt) ..
    dsimp only
    rw [hphase]
    obtain hlt | rfl := Nat.lt_succ_iff_lt_or_eq.mp hlt
    · exact h.old g hpos hlt
    · -- The save before has been reported.
      by_contra hrunning
      exact hquiet ⟨hpos, fun hin ↦ hrunning (h.base.reported_done _ hin)⟩
  · intro _
    dsimp only
    rw [hnew]
  · intro _
    dsimp only
    rw [hnew]
  · intro _
    dsimp only
    rw [hnew]
    rfl
  · exact .inl (h.intact.resolve_right fun hw ↦ hquiet (h.outstanding_of_written hw))

theorem Inv.write (h : Inv self) {outcome : Outcome} {contents : List UInt8} {inPlace : Bool}
    (hquiet : Undisturbed self (.write worker outcome contents inPlace))
    (hstep : self.task.step (.write worker outcome) = some task)
    (hplace : ¬ (inPlace ∧ (self.saves worker).dest ≠ self.path)) :
    Inv { self with
      task := task
      files := Function.update self.files (self.saves worker).dest contents
      opened := if inPlace then contents else self.opened } := by
  have hbase := h.base.step hstep
  obtain ⟨hphase, hstep⟩ := Option.ite_none_right_eq_some.mp hstep
  cases hstep
  have hborn : self.task.phase worker ≠ .unborn := by
    rw [hphase]
    nofun
  have hrunning : ¬ SaveTask.Phase.IsDone (self.task.phase worker) := by
    rw [hphase]
    rintro (heq | heq) <;> cases heq
  obtain rfl := h.worker_eq hborn hrunning
  have hout := h.outstanding hborn hrunning
  have hfile : self.files self.path = self.opened := by
    refine h.intact.resolve_right fun hw ↦ ?_
    obtain hpublish | hdone := written_phase h.base hw
    · exact absurd (hphase.symm.trans hpublish) nofun
    · exact hrunning hdone
  obtain ⟨hsaved, hfailed, hsame⟩ := hquiet
  have htext : self.overlay.flatten (if inPlace then contents else self.opened) = self.text := by
    split
    · rename_i hin
      exact hsame hin
    · rfl
  have hdocument : outcome = .saved →
      contents = (self.saves self.task.generation).document := by
    intro heq
    rw [hsaved heq, h.overlay hout, h.source hout, hfile, h.document hout]
    rfl
  have hnew : (self.task.enter self.task.generation (.publish outcome)).phase
      self.task.generation = .publish outcome := Function.update_self ..
  refine ⟨hbase, ?_, fun _ ↦ h.overlay hout, fun _ ↦ h.source hout,
    fun _ ↦ (h.document hout).trans htext.symm, ?_, ?_⟩
  · intro g hpos hlt
    have hold : (self.task.enter self.task.generation (.publish outcome)).phase g
        = self.task.phase g := Function.update_of_ne (Nat.ne_of_lt hlt) ..
    dsimp only
    rw [hold]
    exact h.old g hpos hlt
  · by_cases heq : outcome = .saved
    · exact .inr (.inl (hnew.trans (by rw [heq])))
    · left
      dsimp only
      cases inPlace with
      | true =>
        have hdest : (self.saves self.task.generation).dest = self.path := by
          by_contra hne
          exact hplace ⟨rfl, hne⟩
        rw [hdest, Function.update_self]
        rfl
      | false =>
        rw [hfailed heq rfl, Function.update_eq_self]
        exact hfile
  · intro hw
    have heq : outcome = .saved := by
      obtain hpublish | hdone := written_phase hbase hw
      · exact Phase.publish.inj (hnew.symm.trans hpublish)
      · rw [show (self.task.enter self.task.generation (.publish outcome)).phase
          (self.task.enter self.task.generation (.publish outcome)).generation
            = .publish outcome from hnew] at hdone
        exact absurd hdone SaveTask.Phase.not_isDone_publish
    exact (Function.update_self ..).trans (hdocument heq)

/-- A worker that moves on without publishing leaves what is written. -/
theorem written_enter {phase : Phase} (h : self.task.phase worker ≠ .publish .saved)
    (hphase : phase ≠ .publish .saved) :
    Written (self.task.enter worker phase) ↔ Written self.task := by
  unfold Written
  refine or_congr ?_ Iff.rfl
  change (self.task.enter worker phase).phase self.task.generation = _ ↔ _
  rw [SaveTask.enter_phase]
  split
  · rename_i heq
    rw [heq]
    exact iff_of_false hphase h
  · exact Iff.rfl

theorem Inv.enter (h : Inv self) {phase : Phase}
    (hbase : (self.task.enter worker phase).Base) (hne : self.task.phase worker ≠ .publish .saved)
    (hphase : phase ≠ .publish .saved)
    (hdone : SaveTask.Phase.IsDone (self.task.phase worker) → SaveTask.Phase.IsDone phase) :
    Inv { self with task := self.task.enter worker phase } :=
  h.taskStep hbase rfl rfl (fun _ hg ↦ SaveTask.isDone_enter hdone hg) (written_enter hne hphase)

theorem Inv.publish (h : Inv self) {outcome : Outcome}
    (hphase : self.task.phase worker = .publish outcome)
    (hbase : (self.task.publish worker outcome).Base) :
    Inv { self with task := self.task.publish worker outcome } := by
  have hborn : self.task.phase worker ≠ .unborn := by
    rw [hphase]
    nofun
  have hrunning : ¬ SaveTask.Phase.IsDone (self.task.phase worker) :=
    hphase ▸ SaveTask.Phase.not_isDone_publish
  obtain rfl := h.worker_eq hborn hrunning
  have heq : self.task.publish self.task.generation outcome =
      { self.task.enter self.task.generation .returning with
        slot := some ⟨self.task.generation, outcome⟩ } :=
    if_neg fun hsuperseded ↦ hsuperseded.1 rfl
  rw [heq] at hbase ⊢
  have hbefore : Written self.task ↔ outcome = .saved := by
    constructor
    · intro hw
      obtain hpublish | hdone := written_phase h.base hw
      · exact Phase.publish.inj (hphase.symm.trans hpublish)
      · exact absurd hdone hrunning
    · rintro rfl
      exact .inl hphase
  refine h.taskStep hbase rfl rfl (fun g hg ↦ SaveTask.isDone_enter (fun _ ↦ .inl rfl) hg) ?_
  rw [hbefore]
  constructor
  · rintro (hpublish | hslot | hhand)
    · have hreturning : (self.task.enter self.task.generation .returning).phase
          self.task.generation = .returning := Function.update_self ..
      exact absurd (hreturning.symm.trans hpublish) nofun
    · cases hslot
      rfl
    · exact absurd (h.base.hand_done _ hhand) hrunning
  · rintro rfl
    exact .inr (.inl rfl)

theorem Inv.poll (h : Inv self) (hidle : self.task.callback = .idle)
    (hbase : SaveTask.Base { self.task with
      pending := self.task.pending - 1
      slot := if self.task.poll.isSome then none else self.task.slot
      callback := .polled self.task.poll }) :
    Inv { self with task := { self.task with
      pending := self.task.pending - 1
      slot := if self.task.poll.isSome then none else self.task.slot
      callback := .polled self.task.poll } } := by
  refine h.taskStep hbase rfl rfl (fun _ hg ↦ hg) (or_congr Iff.rfl ?_)
  dsimp only
  constructor
  · rintro (hslot | hhand)
    · split at hslot
      · cases hslot
      · exact .inl hslot
    · exact .inl (SaveTask.poll_eq_some.mp (Callback.polled.inj hhand)).1
  · rintro (hslot | hhand)
    · right
      exact congrArg _ (SaveTask.poll_eq_some.mpr ⟨hslot, rfl⟩)
    · exact absurd (hidle.symm.trans hhand) nofun

/-- After a save is reported, no result of it is on the way. -/
theorem Inv.not_written_of_finish (h : Inv self) {result : SaveTaskResult}
    (hhand : self.task.callback = .polled (some result)) :
    ¬ Written { self.task with callback := .idle, reported := result :: self.task.reported } := by
  have hnewest := h.base.hand_newest _ hhand
  rintro (hphase | hslot | hidle)
  · have hdone := h.base.hand_done _ hhand
    rw [hnewest, show self.task.phase self.task.generation = _ from hphase] at hdone
    exact SaveTask.Phase.not_isDone_publish hdone
  · exact h.base.hand_slot _ _ hhand hslot hnewest.symm
  · cases hidle

/-- A save that is reported is not outstanding. -/
theorem Inv.not_outstanding_of_finish (h : Inv self) {result : SaveTaskResult}
    (hhand : self.task.callback = .polled (some result)) :
    self.task.generation ∈ (result :: self.task.reported).map (·.generation) := by
  rw [← h.base.hand_newest _ hhand]
  exact List.mem_cons_self

theorem Inv.refreshAfterSave (h : Inv self) {generation : ℕ}
    (hhand : self.task.callback = .polled (some ⟨generation, .saved⟩))
    (hbase : SaveTask.Base { self.task with
      callback := .idle, reported := ⟨generation, .saved⟩ :: self.task.reported }) :
    Inv { self.refreshAfterSave (self.saves generation).dest with task := { self.task with
      callback := .idle, reported := ⟨generation, .saved⟩ :: self.task.reported } } := by
  have hin := h.not_outstanding_of_finish hhand
  exact ⟨hbase, h.old, fun ho ↦ absurd hin ho.2, fun ho ↦ absurd hin ho.2,
    fun ho ↦ absurd hin ho.2, .inl rfl, fun hw ↦ absurd hw (h.not_written_of_finish hhand)⟩

theorem Inv.finishFailed (h : Inv self) {result : SaveTaskResult}
    (hhand : self.task.callback = .polled (some result)) (hfailed : result.result ≠ .saved)
    (hbase : SaveTask.Base { self.task with
      callback := .idle, reported := result :: self.task.reported }) :
    Inv { self with task := { self.task with
      callback := .idle, reported := result :: self.task.reported } } := by
  have hin := h.not_outstanding_of_finish hhand
  refine ⟨hbase, h.old, fun ho ↦ absurd hin ho.2, fun ho ↦ absurd hin ho.2,
    fun ho ↦ absurd hin ho.2, .inl (h.intact.resolve_right ?_),
    fun hw ↦ absurd hw (h.not_written_of_finish hhand)⟩
  rintro (hphase | hslot | hhand')
  · have hdone := h.base.hand_done _ hhand
    rw [h.base.hand_newest _ hhand, hphase] at hdone
    exact SaveTask.Phase.not_isDone_publish hdone
  · exact h.base.hand_slot _ _ hhand hslot (h.base.hand_newest _ hhand).symm
  · rw [hhand] at hhand'
    cases hhand'
    exact hfailed rfl

theorem Inv.testAndReschedule (h : Inv self) (hhand : self.task.callback = .polled none)
    {pending : ℕ}
    (hbase : SaveTask.Base { self.task with callback := .idle, pending := pending }) :
    Inv { self with task := { self.task with callback := .idle, pending := pending } } := by
  refine h.taskStep hbase rfl rfl (fun _ hg ↦ hg)
    (or_congr Iff.rfl (or_congr Iff.rfl (iff_of_false nofun ?_)))
  rw [hhand]
  nofun

theorem Inv.edited (h : Inv self) (hquiet : ¬ self.Outstanding) (overlay : PieceOverlay)
    (headRevision : ℕ) :
    Inv { self with overlay := overlay, headRevision := headRevision } :=
  ⟨h.base, h.old, fun ho ↦ absurd ho hquiet, fun ho ↦ absurd ho hquiet,
    fun ho ↦ absurd ho hquiet, h.intact, h.written⟩

theorem Inv.finish (h : Inv self) (hstep : self.step pieceSize (.task .finish) = some self') :
    Inv self' := by
  obtain ⟨task, htask, hstep⟩ := Option.bind_eq_some_iff.mp hstep
  have hbase := h.base.step htask
  cases SaveTask.takes_of_step htask with
  | @finish result hhand =>
    obtain ⟨generation, outcome⟩ := result
    rw [hhand] at hstep
    cases outcome with
    | saved =>
      cases hstep
      exact h.refreshAfterSave hhand hbase
    | interrupted | failed =>
      cases hstep
      exact h.finishFailed hhand nofun hbase

theorem Inv.step (h : Inv self) (hquiet : Undisturbed self event)
    (hstep : self.step pieceSize event = some self') : Inv self' := by
  cases event with
  | doSave dest =>
    obtain ⟨task, htask, hstep⟩ := Option.bind_eq_some_iff.mp hstep
    cases hstep
    exact h.doSave hquiet htask dest
  | write worker outcome contents inPlace =>
    obtain ⟨task, htask, hstep⟩ := Option.bind_eq_some_iff.mp hstep
    obtain ⟨hplace, hstep⟩ := Option.ite_none_left_eq_some.mp hstep
    cases hstep
    exact h.write hquiet htask hplace
  | replaceRange start end_ text undoGroup =>
    obtain ⟨⟨result, overlay⟩, -, hstep⟩ := Option.bind_eq_some_iff.mp hstep
    cases hstep
    exact h.edited hquiet overlay _
  | task event =>
    cases event with
    | startSave => cases hstep
    | write worker outcome => cases hstep
    | finish => exact h.finish hstep
    | check worker =>
      obtain ⟨task, htask, hstep⟩ := Option.bind_eq_some_iff.mp hstep
      cases hstep
      have hbase := h.base.step htask
      cases SaveTask.takes_of_step htask with
      | check hphase =>
        refine h.enter hbase (by rw [hphase]; nofun) (by split <;> nofun) fun hdone ↦ ?_
        rw [hphase] at hdone
        obtain hdone | hdone := hdone <;> cases hdone
    | publish worker =>
      obtain ⟨task, htask, hstep⟩ := Option.bind_eq_some_iff.mp hstep
      cases hstep
      have hbase := h.base.step htask
      cases SaveTask.takes_of_step htask with
      | publish hphase => exact h.publish hphase hbase
    | threadEnds worker =>
      obtain ⟨task, htask, hstep⟩ := Option.bind_eq_some_iff.mp hstep
      cases hstep
      have hbase := h.base.step htask
      cases SaveTask.takes_of_step htask with
      | threadEnds hphase => exact h.enter hbase (by rw [hphase]; nofun) nofun fun _ ↦ .inr rfl
    | poll =>
      obtain ⟨task, htask, hstep⟩ := Option.bind_eq_some_iff.mp hstep
      cases hstep
      have hbase := h.base.step htask
      cases SaveTask.takes_of_step htask with
      | poll hidle => exact h.poll hidle hbase
    | testAndReschedule =>
      obtain ⟨task, htask, hstep⟩ := Option.bind_eq_some_iff.mp hstep
      cases hstep
      have hbase := h.base.step htask
      cases SaveTask.takes_of_step htask with
      | test hhand => exact h.testAndReschedule hhand hbase

/-- The file of a save that is done is what the user sees. -/
theorem Inv.completes (h : Inv self) : Completes pieceSize self event := by
  rintro self' generation rfl hhand hstep
  obtain ⟨task, -, hstep⟩ := Option.bind_eq_some_iff.mp hstep
  rw [hhand] at hstep
  cases hstep
  obtain rfl := h.base.hand_newest _ hhand
  have hwritten : Written self.task := .inr (.inr hhand)
  have htext : (self.refreshAfterSave (self.saves self.task.generation).dest).text
      = (self.saves self.task.generation).document :=
    (Vlf.PieceOverlay.wf_withLimits _ _).2.trans (h.written hwritten)
  exact ⟨htext.trans (h.document (h.outstanding_of_written hwritten)), fun _ ↦ htext⟩

theorem throughout_completes (files : FilePath → List UInt8) (path : FilePath)
    (limits : OverlayLimits) {events : List Event}
    (hquiet : Throughout (step pieceSize) (new files path limits) events Undisturbed) :
    Throughout (step pieceSize) (new files path limits) events (Completes pieceSize) := by
  rintro pre event post vlf rfl hrun
  have hinv : Inv vlf := exec_invariant (fun _ _ _ h hP hstep ↦ h.step hP hstep)
    (inv_new files path limits) hquiet.of_append hrun
  exact hinv.completes

instance (self : VlfSaves) : Decidable self.Outstanding :=
  inferInstanceAs (Decidable (_ ∧ _))

instance : ∀ (self : VlfSaves) (event : Event), Decidable (Undisturbed self event)
  | self, .doSave _ => inferInstanceAs (Decidable (¬ self.Outstanding))
  | self, .replaceRange _ _ _ _ => inferInstanceAs (Decidable (¬ self.Outstanding))
  | _, .write _ _ _ _ => inferInstanceAs (Decidable (_ ∧ _ ∧ _))
  | _, .task _ => .isTrue trivial

end VlfSaves

/-- **Editing while a save is running loses nothing**, in the runs of ropes and of very large files
where nothing gets between a save and its completion. -/
theorem saves_complete (token : RevId → RevToken) (cleanUp : List Char → List Char)
    (pieceSize : ℕ) :
    (∀ (text : List Char) (editor : Editor Char) (events : List RopeSaves.Event),
      Editor.withText token text = some editor →
      Throughout (RopeSaves.step token cleanUp) (.new editor) events
        (RopeSaves.Undisturbed cleanUp) →
      Throughout (RopeSaves.step token cleanUp) (.new editor) events
        (RopeSaves.Completes token cleanUp)) ∧
    ∀ (files : FilePath → List UInt8) (path : FilePath) (limits : OverlayLimits)
      (events : List VlfSaves.Event),
      Throughout (VlfSaves.step pieceSize) (.new files path limits) events
        VlfSaves.Undisturbed →
      Throughout (VlfSaves.step pieceSize) (.new files path limits) events
        (VlfSaves.Completes pieceSize) :=
  ⟨fun _ _ _ hstart hquiet ↦ RopeSaves.throughout_completes hstart hquiet,
    fun files path limits _ hquiet ↦ VlfSaves.throughout_completes files path limits hquiet⟩

/-- The file `abc` is edited, saved in place and edited again. -/
def savedAppend : List VlfSaves.Event :=
  [.replaceRange 3 3 [120] 1, .doSave ⟨["d"], "f"⟩, .task (.check 1),
    .write 1 .saved [97, 98, 99, 120] true, .task (.publish 1), .task .poll, .task .finish,
    .replaceRange 4 4 [121] 2]

/-- A character is typed while a save is running. -/
def typedWhileSaving : List RopeSaves.Event :=
  [.task .startSave, .task (.check 1),
    .edit (.addDelta .insertChars (.simpleEdit 1 1 ['b'] 1)) (by change Delta.WellFormed _; decide)
      nofun,
    .task (.write 1 .saved), .task (.publish 1), .task .poll]

theorem saves_complete_typed :
    (∃ editor, Editor.withText RevId.num ['a'] = some editor ∧
      Throughout (RopeSaves.step RevId.num id) (.new editor) (typedWhileSaving ++ [.task .finish])
        (RopeSaves.Completes RevId.num id)) ∧
    Throughout (VlfSaves.step 56) (.new (fun _ ↦ [97, 98, 99]) ⟨["d"], "f"⟩ {}) savedAppend
      (VlfSaves.Completes 56) := by
  obtain ⟨hrope, hvlf⟩ := saves_complete RevId.num id 56
  obtain ⟨editor, heditor, hdirty⟩ : ∃ editor ∈ Editor.withText RevId.num ['a'],
      ∀ rope ∈ exec (RopeSaves.step RevId.num id) (.new editor) typedWhileSaving,
        rope.editor.isPristine = some false := by decide +kernel
  refine ⟨⟨editor, heditor, hrope ['a'] editor _ heditor ?_⟩, hvlf _ _ _ _ (by decide)⟩
  refine throughout_concat (throughout_of_forall fun rope ↦ ?_) fun rope hrun _ _ _ _ hpristine ↦ ?_
  · simp [typedWhileSaving, RopeSaves.Undisturbed, Editor.SaveOp.KeepsRevision]
  · exact absurd ((hdirty rope hrun).symm.trans hpristine) (by decide)

/-- The file `abc` is edited and saved. What is typed between the write and the completion of the
save is gone after it. -/
theorem typed_while_saving_lost : ¬ ∀ (files : FilePath → List UInt8) (path : FilePath)
    (limits : OverlayLimits) (events : List VlfSaves.Event),
    Throughout (VlfSaves.step 56) (.new files path limits) events (VlfSaves.Completes 56) := by
  intro h
  obtain ⟨vlf, hrun, vlf', hstep, hhand, htext, htext'⟩ :
      ∃ vlf ∈ exec (VlfSaves.step 56) (.new (fun _ ↦ [97, 98, 99]) ⟨["d"], "f"⟩ {})
        [.replaceRange 3 3 [120] 1, .doSave ⟨["d"], "f"⟩, .task (.check 1),
          .write 1 .saved [97, 98, 99, 120] true, .task (.publish 1),
          .replaceRange 4 4 [121] 2, .task .poll],
      ∃ vlf' ∈ vlf.step 56 (.task .finish), vlf.task.callback = .polled (some ⟨1, .saved⟩) ∧
        vlf.text = [97, 98, 99, 120, 121] ∧ vlf'.text = [97, 98, 99, 120] := by decide
  have hcompletes := h _ _ _ (_ ++ [.task .finish]) _ (.task .finish) [] vlf rfl hrun
  have hsame := (hcompletes vlf' 1 rfl hhand hstep).1
  rw [htext, htext'] at hsame
  exact absurd hsame (by decide)

/-- Text is typed and saved, and taken back before the save is done. -/
def undoneWhileSaving : List RopeSaves.Event :=
  [.edit (.addDelta .insertChars (.simpleEdit 1 1 ['b'] 1)) (by change Delta.WellFormed _; decide)
      nofun,
    .task .startSave, .task (.check 1), .task (.write 1 .saved), .task (.publish 1),
    .edit .doUndo trivial nofun, .task .poll, .task .finish]

-- The buffer is at the revision of the save before, while the file has the text that was typed.
example : ∃ editor ∈ Editor.withText RevId.num ['a'],
    ∃ rope ∈ exec (RopeSaves.step RevId.num id) (.new editor) undoneWhileSaving,
      rope.editor.isPristine = some true ∧ rope.editor.text = ['a'] ∧
        (rope.saves 1).2 = ['a', 'b'] := by decide +kernel

end EeEditor.Background
