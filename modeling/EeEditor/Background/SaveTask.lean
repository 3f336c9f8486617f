import Mathlib.Logic.Function.Basic
import EeEditor.Effect.Trace

/-!
# Background saves

The model of `SaveTask` in `xi-core-lib/src/whole_scan.rs` and of the callback that polls it,
`handle_save_callback` in `tabs/contexts.rs`. Every save of a buffer has a worker of its own
generation, and all workers share one slot for their results. The event loop runs one handler at a
time, and the workers take their steps at any moment between its own.

The progress of a save goes through a slot of its own that nothing here reads.
-/

namespace EeEditor.Background

/-- How the write of a file ends: `Ok`, an I/O error of the kind `Interrupted`, or another error. -/
inductive Outcome where
  | saved
  | interrupted
  | failed
deriving DecidableEq

/-- What a worker does next. -/
inductive Phase where
  | unborn
  | check
  | write
  | publish (outcome : Outcome)
  | returning
  | ended
deriving DecidableEq

structure SaveTaskResult where
  generation : ℕ
  result : Outcome
deriving DecidableEq

/-- Where the event loop is in `handle_save_callback`. -/
inductive Callback where
  | idle
  | polled (result : Option SaveTaskResult)
deriving DecidableEq

structure SaveTask where
  generation : ℕ
  /-- `None`, or a result under the generation of the worker that published it. -/
  slot : Option SaveTaskResult
  phase : ℕ → Phase
  /-- The callbacks that are scheduled. -/
  pending : ℕ
  callback : Callback
  /-- The results that were handed to `finish_async_save`, the last one first. -/
  reported : List SaveTaskResult

namespace SaveTask

def new : SaveTask := ⟨0, none, fun _ ↦ .unborn, 0, .idle, []⟩

/-- The handle is that of the worker that was started last. -/
@[grind =] def isInProgress (self : SaveTask) : Bool :=
  self.phase self.generation ≠ .unborn && self.phase self.generation ≠ .ended

@[grind =] def enter (self : SaveTask) (worker : ℕ) (phase : Phase) : SaveTask :=
  { self with phase := Function.update self.phase worker phase }

inductive Event where
  | startSave
  | check (worker : ℕ)
  | write (worker : ℕ) (outcome : Outcome)
  | publish (worker : ℕ)
  | threadEnds (worker : ℕ)
  | poll
  | finish
  | testAndReschedule
deriving DecidableEq

/-- `start_save`, with the callback that `do_save` schedules. -/
@[grind =] def startSave (self : SaveTask) : SaveTask :=
  { self with
    generation := self.generation + 1
    slot := none
    phase := Function.update self.phase (self.generation + 1) .check
    pending := self.pending + 1 }

/-- The end of a worker: a superseded one that was interrupted says nothing. -/
def publish (self : SaveTask) (worker : ℕ) (outcome : Outcome) : SaveTask :=
  if self.generation ≠ worker ∧ outcome = .interrupted then self.enter worker .returning
  else { self.enter worker .returning with slot := some ⟨worker, outcome⟩ }

/-- The result that `poll` takes: only one of the current generation. -/
@[grind =] def poll (self : SaveTask) : Option SaveTaskResult :=
  self.slot.filter fun result ↦ result.generation = self.generation

/-- The event loop runs one handler at a time: a save starts and a callback begins only when no
other callback is running. -/
@[grind =] def step (self : SaveTask) : Event → Option SaveTask
  | .startSave => if self.callback = .idle then some self.startSave else none
  | .check worker =>
    if self.phase worker = .check then
      some (self.enter worker (if self.generation ≠ worker then .returning else .write))
    else none
  | .write worker outcome =>
    if self.phase worker = .write then some (self.enter worker (.publish outcome)) else none
  | .publish worker =>
    match self.phase worker with
    | .publish outcome => some (self.publish worker outcome)
    | _ => none
  | .threadEnds worker =>
    if self.phase worker = .returning then some (self.enter worker .ended) else none
  | .poll =>
    if self.callback = .idle ∧ 0 < self.pending then
      some { self with
        pending := self.pending - 1
        slot := if self.poll.isSome then none else self.slot
        callback := .polled self.poll }
    else none
  | .finish =>
    match self.callback with
    | .polled (some result) =>
      some { self with callback := .idle, reported := result :: self.reported }
    | _ => none
  | .testAndReschedule =>
    match self.callback with
    | .polled none =>
      some { self with
        callback := .idle
        pending := if self.isInProgress then self.pending + 1 else self.pending }
    | _ => none

/-- What an event can do. -/
inductive Takes (self : SaveTask) : Event → SaveTask → Prop where
  | startSave (idle : self.callback = .idle) : Takes self .startSave self.startSave
  | check {worker : ℕ} (phase : self.phase worker = .check) :
      Takes self (.check worker)
        (self.enter worker (if self.generation ≠ worker then .returning else .write))
  | write {worker : ℕ} {outcome : Outcome} (phase : self.phase worker = .write) :
      Takes self (.write worker outcome) (self.enter worker (.publish outcome))
  | publish {worker : ℕ} {outcome : Outcome} (phase : self.phase worker = .publish outcome) :
      Takes self (.publish worker) (self.publish worker outcome)
  | threadEnds {worker : ℕ} (phase : self.phase worker = .returning) :
      Takes self (.threadEnds worker) (self.enter worker .ended)
  | poll (idle : self.callback = .idle) :
      Takes self .poll { self with
        pending := self.pending - 1
        slot := if self.poll.isSome then none else self.slot
        callback := .polled self.poll }
  | finish {result : SaveTaskResult} (hand : self.callback = .polled (some result)) :
      Takes self .finish { self with callback := .idle, reported := result :: self.reported }
  | test (hand : self.callback = .polled none) :
      Takes self .testAndReschedule { self with
        callback := .idle
        pending := if self.isInProgress then self.pending + 1 else self.pending }

theorem takes_of_step {self self' : SaveTask} {event : Event}
    (h : self.step event = some self') : Takes self event self' := by
  cases event with
  | startSave =>
    obtain ⟨hidle, h⟩ := Option.ite_none_right_eq_some.mp h
    cases h
    exact .startSave hidle
  | check worker =>
    obtain ⟨hphase, h⟩ := Option.ite_none_right_eq_some.mp h
    cases h
    exact .check hphase
  | write worker outcome =>
    obtain ⟨hphase, h⟩ := Option.ite_none_right_eq_some.mp h
    cases h
    exact .write hphase
  | publish worker =>
    simp only [step] at h
    split at h
    · rename_i hphase
      cases h
      exact .publish hphase
    · cases h
  | threadEnds worker =>
    obtain ⟨hphase, h⟩ := Option.ite_none_right_eq_some.mp h
    cases h
    exact .threadEnds hphase
  | poll =>
    obtain ⟨hidle, h⟩ := Option.ite_none_right_eq_some.mp h
    cases h
    exact .poll hidle.1
  | finish =>
    simp only [step] at h
    split at h
    · rename_i hhand
      cases h
      exact .finish hhand
    · cases h
  | testAndReschedule =>
    simp only [step] at h
    split at h
    · rename_i hhand
      cases h
      exact .test hhand
    · cases h

/-- Only a start changes which save is the newest. -/
theorem generation_of_step {self self' : SaveTask} {event : Event}
    (h : self.step event = some self')
    (hne : event ≠ .startSave) : self'.generation = self.generation := by
  cases takes_of_step h with
  | startSave => exact absurd rfl hne
  | publish =>
    unfold SaveTask.publish
    split <;> rfl
  | check | write | threadEnds | poll | finish | test => rfl

/-! ## What a run should do -/

/-- The generations of the saves that were reported. -/
def reportedSaves (self : SaveTask) : List ℕ := self.reported.map (·.generation)

/-- A result of the newest save that is in the slot stays there until it is polled, or until another
save is started. -/
def Kept (self : SaveTask) (event : Event) : Prop :=
  ∀ self' result, self.step event = some self' → self.slot = some result →
    result.generation = self.generation → event ≠ .poll → event ≠ .startSave →
    self'.slot = some result

/-- No save is reported twice, and while the newest has not been reported a callback is pending or
running. -/
structure Reports (task : SaveTask) : Prop where
  once : task.reportedSaves.Nodup
  attended : 0 < task.generation → task.generation ∉ task.reportedSaves →
    0 < task.pending ∨ task.callback ≠ .idle

/-- A superseded worker publishes its result in place of one of the newest save. -/
def Replaces (self : SaveTask) (event : Event) : Prop :=
  ∃ worker outcome result, event = .publish worker ∧ self.phase worker = .publish outcome ∧
    worker ≠ self.generation ∧ outcome ≠ .interrupted ∧ self.slot = some result ∧
    result.generation = self.generation

/-- The last callback, whose poll found nothing, looks at the newest worker after it has published
and ended. -/
def Strands (self : SaveTask) (event : Event) : Prop :=
  event = .testAndReschedule ∧ self.callback = .polled none ∧ self.pending = 0 ∧
    self.phase self.generation = .ended ∧
    ∃ result, self.slot = some result ∧ result.generation = self.generation

/-! ## The invariant -/

/-- The worker has left its last step but the end of its thread. -/
def Phase.IsDone (phase : Phase) : Prop := phase = .returning ∨ phase = .ended

/-- What holds in every run. A result is in one place at a time, and its worker is done. -/
structure Base (task : SaveTask) : Prop where
  born : ∀ g, task.phase g ≠ .unborn ↔ 0 < g ∧ g ≤ task.generation
  slot_done : ∀ r, task.slot = some r → Phase.IsDone (task.phase r.generation)
  slot_new : ∀ r, task.slot = some r → r.generation ∉ task.reportedSaves
  hand_newest : ∀ r, task.callback = .polled (some r) → r.generation = task.generation
  hand_done : ∀ r, task.callback = .polled (some r) → Phase.IsDone (task.phase r.generation)
  hand_new : ∀ r, task.callback = .polled (some r) → r.generation ∉ task.reportedSaves
  hand_slot : ∀ r t, task.callback = .polled (some r) → task.slot = some t →
    t.generation ≠ r.generation
  reported_done : ∀ g ∈ task.reportedSaves, Phase.IsDone (task.phase g)
  once : task.reportedSaves.Nodup

/-- The result of the newest save is somewhere once its worker is done, and as long as it has not
been reported there is a callback for it. -/
structure Live (task : SaveTask) : Prop where
  delivered : 0 < task.generation → Phase.IsDone (task.phase task.generation) →
    (∃ r, task.slot = some r ∧ r.generation = task.generation) ∨
      (∃ r, task.callback = .polled (some r)) ∨ task.generation ∈ task.reportedSaves
  attended : 0 < task.generation → task.generation ∉ task.reportedSaves →
    0 < task.pending ∨ task.callback ≠ .idle

variable {self self' : SaveTask} {event : Event} {worker : ℕ} {phase : Phase} {outcome : Outcome}

theorem enter_phase (self : SaveTask) (worker : ℕ) (phase : Phase) (g : ℕ) :
    (self.enter worker phase).phase g = if g = worker then phase else self.phase g :=
  Function.update_apply ..

/-- A worker that moves on leaves what is done done. -/
theorem isDone_enter (hdone : Phase.IsDone (self.phase worker) → Phase.IsDone phase) {g : ℕ}
    (hg : Phase.IsDone (self.phase g)) : Phase.IsDone ((self.enter worker phase).phase g) := by
  rw [enter_phase]
  split
  · rename_i heq
    exact hdone (heq ▸ hg)
  · exact hg

theorem Base.enter (h : Base self) (hborn : self.phase worker ≠ .unborn) (hphase : phase ≠ .unborn)
    (hdone : Phase.IsDone (self.phase worker) → Phase.IsDone phase) :
    Base (self.enter worker phase) where
  born g := by
    rw [enter_phase]
    split
    · rename_i heq
      exact ⟨fun _ ↦ (h.born g).mp (heq ▸ hborn), fun _ ↦ hphase⟩
    · exact h.born g
  slot_done r hr := isDone_enter hdone (h.slot_done r hr)
  slot_new := h.slot_new
  hand_newest := h.hand_newest
  hand_done r hr := isDone_enter hdone (h.hand_done r hr)
  hand_new := h.hand_new
  hand_slot := h.hand_slot
  reported_done g hg := isDone_enter hdone (h.reported_done g hg)
  once := h.once

theorem Phase.not_isDone_publish : ¬ Phase.IsDone (.publish outcome) := by
  rintro (h | h) <;> cases h

theorem Base.publish (h : Base self) (hphase : self.phase worker = .publish outcome) :
    Base (self.publish worker outcome) := by
  have hnot : ¬ Phase.IsDone (self.phase worker) := hphase ▸ Phase.not_isDone_publish
  have henter : Base (self.enter worker .returning) :=
    h.enter (by rw [hphase]; nofun) nofun fun _ ↦ .inl rfl
  unfold SaveTask.publish
  split
  · exact henter
  · refine { henter with slot_done := ?_, slot_new := ?_, hand_slot := ?_ }
    · rintro r hr
      cases hr
      rw [enter_phase, if_pos rfl]
      exact .inl rfl
    · rintro r hr
      cases hr
      exact fun hin ↦ hnot (h.reported_done _ hin)
    · rintro r t hhand ht
      cases ht
      rintro rfl
      exact hnot (h.hand_done r hhand)

theorem Base.startSave (h : Base self) (hidle : self.callback = .idle) : Base self.startSave := by
  have hphase : ∀ g, self.startSave.phase g =
      if g = self.generation + 1 then .check else self.phase g := fun g ↦ Function.update_apply ..
  have hnew : self.phase (self.generation + 1) = .unborn := by
    by_contra hborn
    exact absurd ((h.born _).mp hborn).2 (Nat.not_succ_le_self _)
  refine ⟨fun g ↦ ?_, nofun, nofun, ?_, ?_, ?_, nofun, ?_, h.once⟩
  · rw [hphase]
    split
    · rename_i heq
      subst heq
      exact ⟨fun _ ↦ ⟨Nat.succ_pos _, Nat.le_refl _⟩, fun _ ↦ nofun⟩
    · rename_i hne
      refine (h.born g).trans (and_congr_right fun _ ↦ ?_)
      change g ≤ self.generation ↔ g ≤ self.generation + 1
      omega
  · intro r hr
    exact absurd (hidle.symm.trans hr) nofun
  · intro r hr
    exact absurd (hidle.symm.trans hr) nofun
  · intro r hr
    exact absurd (hidle.symm.trans hr) nofun
  · intro g hg
    rw [hphase, if_neg]
    · exact h.reported_done g hg
    · rintro rfl
      have hdone := h.reported_done _ hg
      rw [hnew] at hdone
      obtain h | h := hdone <;> cases h

theorem poll_eq_some {r : SaveTaskResult} :
    self.poll = some r ↔ self.slot = some r ∧ r.generation = self.generation := by
  unfold SaveTask.poll
  rw [Option.filter_eq_some_iff]
  simp only [decide_eq_true_eq]

theorem Base.poll (h : Base self) :
    Base { self with
      pending := self.pending - 1
      slot := if self.poll.isSome then none else self.slot
      callback := .polled self.poll } := by
  have hslot : ∀ r, (if self.poll.isSome then none else self.slot) = some r →
      self.poll = none ∧ self.slot = some r := by
    intro r hr
    split at hr
    · cases hr
    · rename_i hpoll
      exact ⟨by simpa using hpoll, hr⟩
  have hhand : ∀ r, Callback.polled self.poll = .polled (some r) →
      self.slot = some r ∧ r.generation = self.generation := by
    intro r hr
    exact poll_eq_some.mp (Callback.polled.inj hr)
  refine ⟨h.born, fun r hr ↦ h.slot_done r (hslot r hr).2, fun r hr ↦ h.slot_new r (hslot r hr).2,
    fun r hr ↦ (hhand r hr).2, fun r hr ↦ h.slot_done r (hhand r hr).1,
    fun r hr ↦ h.slot_new r (hhand r hr).1, fun r t hr ht ↦ ?_, h.reported_done, h.once⟩
  have hnone := (hslot t ht).1
  rw [Callback.polled.inj hr] at hnone
  cases hnone

theorem Base.finish (h : Base self) {result : SaveTaskResult}
    (hhand : self.callback = .polled (some result)) :
    Base { self with callback := .idle, reported := result :: self.reported } := by
  have hsaves : SaveTask.reportedSaves { self with
      callback := .idle, reported := result :: self.reported } =
        result.generation :: self.reportedSaves := rfl
  refine ⟨h.born, h.slot_done, fun r hr ↦ ?_, nofun, nofun, nofun, nofun, fun g hg ↦ ?_, ?_⟩
  · rw [hsaves, List.mem_cons, not_or]
    exact ⟨h.hand_slot result r hhand hr, h.slot_new r hr⟩
  · rw [hsaves] at hg
    obtain rfl | hg := List.mem_cons.mp hg
    · exact h.hand_done result hhand
    · exact h.reported_done g hg
  · rw [hsaves]
    exact List.nodup_cons.mpr ⟨h.hand_new result hhand, h.once⟩

theorem Base.step (h : Base self) (hstep : self.step event = some self') : Base self' := by
  cases takes_of_step hstep with
  | startSave hidle => exact h.startSave hidle
  | check hphase =>
    refine h.enter (by rw [hphase]; nofun) (by split <;> nofun) ?_
    rw [hphase]
    rintro (h | h) <;> cases h
  | write hphase =>
    refine h.enter (by rw [hphase]; nofun) nofun ?_
    rw [hphase]
    rintro (h | h) <;> cases h
  | publish hphase => exact h.publish hphase
  | threadEnds hphase => exact h.enter (by rw [hphase]; nofun) nofun fun _ ↦ .inr rfl
  | poll => exact h.poll
  | finish hhand => exact h.finish hhand
  | test =>
    exact ⟨h.born, h.slot_done, h.slot_new, nofun, nofun, nofun, nofun, h.reported_done, h.once⟩

theorem base_new : Base new where
  born _ := ⟨fun h ↦ absurd rfl h, fun h ↦ absurd h.2 (Nat.not_le.mpr h.1)⟩
  slot_done := nofun
  slot_new := nofun
  hand_newest := nofun
  hand_done := nofun
  hand_new := nofun
  hand_slot := nofun
  reported_done := nofun
  once := List.nodup_nil

theorem Base.of_exec {events : List Event} (hrun : exec SaveTask.step new events = some self) :
    Base self :=
  exec_invariant (P := fun _ _ ↦ True) (fun _ _ _ h _ hstep ↦ h.step hstep) base_new
    (fun _ _ _ _ _ _ ↦ trivial) hrun

/-! ## Runs that lose nothing -/

/-- A worker that is not done by its step leaves the newest save where it is. -/
theorem Live.enter (h : Live self)
    (hdone : worker = self.generation → Phase.IsDone phase → Phase.IsDone (self.phase worker)) :
    Live (self.enter worker phase) where
  delivered hpos hgen := by
    refine h.delivered hpos ?_
    change Phase.IsDone ((self.enter worker phase).phase self.generation) at hgen
    rw [enter_phase] at hgen
    split at hgen
    · rename_i heq
      exact heq ▸ hdone heq.symm hgen
    · exact hgen
  attended := h.attended

theorem Live.publish (h : Live self) (hphase : self.phase worker = .publish outcome)
    (hkeeps : ¬ Replaces self (.publish worker)) : Live (self.publish worker outcome) := by
  unfold SaveTask.publish
  by_cases hnewest : worker = self.generation
  · rw [if_neg fun hsuperseded ↦ hsuperseded.1 hnewest.symm]
    exact ⟨fun _ _ ↦ .inl ⟨_, rfl, hnewest⟩, h.attended⟩
  · have hold : Live (self.enter worker .returning) :=
      h.enter fun heq ↦ absurd heq hnewest
    split
    · exact hold
    · rename_i hsays
      refine ⟨fun hpos hgen ↦ ?_, h.attended⟩
      obtain ⟨r, hr, heq⟩ | hrest := hold.delivered hpos hgen
      · refine absurd ⟨worker, outcome, r, rfl, hphase, hnewest, ?_, hr, heq⟩ hkeeps
        exact fun hout ↦ hsays ⟨fun heq ↦ hnewest heq.symm, hout⟩
      · exact .inr hrest

theorem Live.poll (h : Live self) (hidle : self.callback = .idle) :
    Live { self with
      pending := self.pending - 1
      slot := if self.poll.isSome then none else self.slot
      callback := .polled self.poll } := by
  refine ⟨fun hpos hgen ↦ ?_, fun _ _ ↦ .inr nofun⟩
  obtain ⟨r, hr, heq⟩ | ⟨r, hr⟩ | hin := h.delivered hpos hgen
  · exact .inr (.inl ⟨r, congrArg _ (poll_eq_some.mpr ⟨hr, heq⟩)⟩)
  · rw [hidle] at hr
    cases hr
  · exact .inr (.inr hin)

theorem Base.live_finish (hbase : Base self) {result : SaveTaskResult}
    (hhand : self.callback = .polled (some result)) :
    Live { self with callback := .idle, reported := result :: self.reported } := by
  have hnewest : self.generation ∈ SaveTask.reportedSaves
      { self with callback := .idle, reported := result :: self.reported } :=
    List.mem_cons.mpr (.inl (hbase.hand_newest result hhand).symm)
  exact ⟨fun _ _ ↦ .inr (.inr hnewest), fun _ hnot ↦ absurd hnewest hnot⟩

theorem Live.testAndReschedule (h : Live self) (hbase : Base self)
    (hhand : self.callback = .polled none) (hkeeps : ¬ Strands self .testAndReschedule) :
    Live { self with
      callback := .idle
      pending := if self.isInProgress then self.pending + 1 else self.pending } := by
  have hplaces : 0 < self.generation → Phase.IsDone (self.phase self.generation) →
      (∃ r, self.slot = some r ∧ r.generation = self.generation) ∨
        self.generation ∈ self.reportedSaves := by
    intro hpos hgen
    obtain hslot | ⟨r, hr⟩ | hin := h.delivered hpos hgen
    · exact .inl hslot
    · rw [hhand] at hr
      cases hr
    · exact .inr hin
  refine ⟨fun hpos hgen ↦ (hplaces hpos hgen).imp_right .inr, fun hpos hnot ↦ .inl ?_⟩
  change 0 < if self.isInProgress then self.pending + 1 else self.pending
  split
  · exact Nat.succ_pos _
  · rename_i hover
    have hended : self.phase self.generation = .ended := by
      have hborn := (hbase.born self.generation).mpr ⟨hpos, Nat.le_refl _⟩
      simpa [isInProgress, hborn] using hover
    -- The thread is over, so its result is in the slot, and another callback is pending.
    obtain hslot | hin := hplaces hpos (.inr hended)
    · exact Nat.pos_of_ne_zero fun hzero ↦ hkeeps ⟨rfl, hhand, hzero, hended, hslot⟩
    · exact absurd hin hnot

theorem Live.step (h : Live self) (hbase : Base self) (hreplaces : ¬ Replaces self event)
    (hstrands : ¬ Strands self event) (hstep : self.step event = some self') : Live self' := by
  cases takes_of_step hstep with
  | startSave =>
    refine ⟨fun _ hgen ↦ ?_, fun _ _ ↦ .inl (Nat.succ_pos _)⟩
    have hcheck : self.startSave.phase self.startSave.generation = .check :=
      Function.update_self ..
    rw [hcheck] at hgen
    obtain h | h := hgen <;> cases h
  | check hphase =>
    refine h.enter fun heq hdone ↦ ?_
    rw [if_neg (not_not.mpr heq.symm)] at hdone
    obtain h | h := hdone <;> cases h
  | write hphase => exact h.enter fun _ hdone ↦ absurd hdone Phase.not_isDone_publish
  | publish hphase => exact h.publish hphase hreplaces
  | threadEnds hphase => exact h.enter fun _ _ ↦ .inl hphase
  | poll hidle => exact h.poll hidle
  | finish hhand => exact hbase.live_finish hhand
  | test hhand => exact h.testAndReschedule hbase hhand hstrands

theorem live_new : Live new := ⟨nofun, nofun⟩

/-- The run keeps the newest result until it is polled, and reports every save at most once and the
newest one at last. -/
def ReportsNewest (events : List Event) : Prop :=
  Throughout step new events Kept ∧
    ∀ pre post task, events = pre ++ post → exec step new pre = some task → Reports task

/-- No superseded worker replaces the result of the newest save, and no callback misses it. -/
def Undisturbed (events : List Event) : Prop :=
  Throughout step new events fun task event ↦ ¬ Replaces task event ∧ ¬ Strands task event

theorem Base.kept (hbase : Base self) (h : ¬ Replaces self event) : Kept self event := by
  intro self' result hstep hslot hnewest hpoll hstart
  cases takes_of_step hstep with
  | startSave => exact absurd rfl hstart
  | poll => exact absurd rfl hpoll
  | check | write | threadEnds | finish | test => exact hslot
  | @publish worker outcome hphase =>
    unfold SaveTask.publish
    split
    · exact hslot
    · rename_i hsays
      -- The newest worker is done, so this is a superseded one.
      have hother : worker ≠ self.generation := by
        rintro rfl
        have hdone := hbase.slot_done result hslot
        rw [hnewest, hphase] at hdone
        exact Phase.not_isDone_publish hdone
      refine absurd ⟨worker, outcome, result, rfl, hphase, hother, ?_, hslot, hnewest⟩ h
      exact fun hout ↦ hsays ⟨hother.symm, hout⟩

theorem not_kept_of_replaces (h : Replaces self event) : ¬ Kept self event := by
  intro hkept
  obtain ⟨worker, outcome, result, rfl, hphase, hother, hsays, hslot, hnewest⟩ := h
  have hstep : self.step (.publish worker) = some (self.publish worker outcome) := by
    simp only [step, hphase]
  have hslot' := hkept _ result hstep hslot hnewest nofun nofun
  unfold SaveTask.publish at hslot'
  rw [if_neg fun hsuperseded ↦ hsays hsuperseded.2] at hslot'
  cases hslot'
  exact hother hnewest

/-- After a step that strands the newest save nothing is left to report it. -/
theorem Base.not_reports_of_strands (hbase : Base self) (h : Strands self event) :
    ∃ self', self.step event = some self' ∧ ¬ Reports self' := by
  obtain ⟨rfl, hhand, hzero, hended, result, hslot, hnewest⟩ := h
  have hover : self.isInProgress = false := by simp [isInProgress, hended]
  have hstep : self.step .testAndReschedule = some { self with callback := .idle } := by
    simp only [SaveTask.step, hhand, hover, Bool.false_eq_true, if_false]
  refine ⟨_, hstep, fun hreports ↦ ?_⟩
  have hpos : 0 < self.generation :=
    ((hbase.born self.generation).mp (by rw [hended]; nofun)).1
  obtain hpending | hidle := hreports.attended hpos (hnewest ▸ hbase.slot_new result hslot)
  · exact absurd hzero (Nat.ne_of_gt hpending)
  · exact hidle rfl

theorem Undisturbed.live {events : List Event} (h : Undisturbed events)
    (hrun : exec step new events = some self) : Base self ∧ Live self :=
  exec_invariant (I := fun task ↦ Base task ∧ Live task)
    (fun _ _ _ hinv hkeeps hstep ↦ ⟨hinv.1.step hstep, hinv.2.step hinv.1 hkeeps.1 hkeeps.2 hstep⟩)
    ⟨base_new, live_new⟩ h hrun

/-- The newest save is reported exactly once in just those runs where no superseded worker replaces
its result and no callback misses it. -/
theorem reportsNewest_iff (events : List Event) : ReportsNewest events ↔ Undisturbed events := by
  constructor
  · rintro ⟨hkept, hreports⟩ pre event post task rfl hrun
    have hbase := Base.of_exec hrun
    constructor
    · intro hreplaces
      exact not_kept_of_replaces hreplaces (hkept pre event post task rfl hrun)
    · intro hstrands
      obtain ⟨task', hstep, hnot⟩ := hbase.not_reports_of_strands hstrands
      exact hnot (hreports (pre ++ [event]) post task' (by simp)
        (exec_concat_eq_some.mpr ⟨task, hrun, hstep⟩))
  · intro h
    constructor
    · intro pre event post task heq hrun
      exact (Base.of_exec hrun).kept (h pre event post task heq hrun).1
    · rintro pre post task rfl hrun
      obtain ⟨hbase, hlive⟩ := Undisturbed.live (Throughout.of_append h) hrun
      exact ⟨hbase.once, hlive.attended⟩

/-- A first save is superseded after its last write. The second one is published, and then the first
one in its place, so that the poll finds nothing of the second. -/
theorem superseded_save_replaces_newest : ¬ ReportsNewest
    [.startSave, .check 1, .write 1 .saved, .startSave, .check 2, .write 2 .saved, .publish 2,
      .publish 1] := by
  rintro ⟨hkept, -⟩
  have hlast := hkept [.startSave, .check 1, .write 1 .saved, .startSave, .check 2,
    .write 2 .saved, .publish 2] (.publish 1) [] _ rfl rfl _ ⟨2, .saved⟩ rfl rfl rfl nofun nofun
  cases hlast

-- The callback polls too early and looks at the thread too late.
example : ¬ ReportsNewest
    [.startSave, .poll, .check 1, .write 1 .saved, .publish 1, .threadEnds 1,
      .testAndReschedule] := by
  rintro ⟨-, hreports⟩
  obtain h | h := (hreports _ [] _ (List.append_nil _).symm rfl).attended (by decide) nofun
  · exact absurd h (by decide)
  · exact h rfl

end SaveTask

end EeEditor.Background
