import EeEditor.Effect.Trace
import EeEditor.Orchestrator.CheckpointStore

/-!
# Turns in slices

A turn that is stopped by a deadline or a timeout leaves a checkpoint and is continued from it: the
tool loop of `ee-agent-orchestrator/src/loop_engine.rs`, the durable copy of its recovery state in
`checkpoint.rs` and `resume_turn` in `runtime/resume.rs`. What the model asks for, what the tools
answer and when a slice ends are events.

The arguments of a call are JSON values `J`, with `null` among them, and a fingerprint in `φ` stands
for the SHA-256 of a tool name and arguments. Of a recovery state only what decides about a call is
kept: the transcript of a durable copy is empty, so that a turn is continued with a prompt.
-/

namespace EeEditor.Orchestrator

inductive SideEffectClass where
  | read
  | write
  | execute
  | delegate
deriving DecidableEq

structure ToolIntent (J : Type) where
  toolCallId : String
  name : String
  arguments : J

structure CompletedToolCall (J φ : Type) where
  toolCallId : String
  toolName : String
  arguments : J
  argumentsFingerprint : φ
  success : Bool
  summary : String
  sideEffectClass : SideEffectClass

structure InFlightOperation (φ : Type) where
  toolCallId : String
  toolName : String
  argumentsFingerprint : φ

structure ResumeState (J φ : Type) where
  completedTools : List (CompletedToolCall J φ)
  inFlight : Option (InFlightOperation φ)
  resumedCount : ℕ

/-- What decides about a call: the fingerprints, and the tools that are registered. -/
structure Tools (J φ : Type) where
  null : J
  fingerprint : String → J → φ
  registered : String → Option SideEffectClass

variable {J φ : Type}

/-- Fingerprints tell calls apart. -/
def Tools.Distinguishes (tools : Tools J φ) : Prop :=
  ∀ n a n' a', tools.fingerprint n a = tools.fingerprint n' a' → n = n' ∧ a = a'

/-! ## The durable copy -/

/-- The part of `validate` about the recovery state. -/
def ResumeState.validate (self : ResumeState J φ) : Except OrchestratorError Unit :=
  if self.completedTools.any fun completed ↦ completed.toolCallId = "" then
    .error (.invalidState "resume state holds a completed tool call with an empty id")
  else if self.inFlight.any fun inFlight ↦ inFlight.toolCallId = "" then
    .error (.invalidState "resume state holds an in-flight operation with an empty id")
  else .ok ()

/-- A completed call loses its arguments and its summary, after its fingerprint is computed. -/
def CompletedToolCall.durable (tools : Tools J φ) (self : CompletedToolCall J φ) :
    CompletedToolCall J φ :=
  { self with
    argumentsFingerprint := tools.fingerprint self.toolName self.arguments
    arguments := tools.null
    summary := "" }

/-- `persistence_safe_copy`, of the recovery state. The names, ids and fingerprints in it are not
redacted. -/
def ResumeState.persistenceSafeCopy (tools : Tools J φ) (self : ResumeState J φ) :
    Except OrchestratorError (ResumeState J φ) := do
  self.validate
  let self := { self with completedTools := self.completedTools.map (·.durable tools) }
  self.validate
  return self

/-! ## The tool loop -/

/-- How the executor ends: with a result, with an error (a deadline or timeout of its own, or
another), or not before the turn has timed out. -/
inductive Execution where
  | returned (success : Bool) (summary : String)
  | failed (recoverable : Bool)
  | timedOut

inductive TurnEvent (J : Type) where
  /-- An intent of the model, and what the executor does with it if it is asked. -/
  | call (intent : ToolIntent J) (execution : Execution)
  /-- A batch of reads that run at the same time. -/
  | readWave (calls : List (ToolIntent J × Bool × String))
  /-- A deadline or a timeout while no tool runs. -/
  | interrupt
  /-- The turn ends otherwise. -/
  | stop
  | resume (promptIsEmpty : Bool)

inductive TurnPhase (J φ : Type) where
  | running
  | interrupted (checkpoint : ResumeState J φ)
  | stopped

/-- A turn. `resumeState` is that of the engine that runs, `track` its recovery track. No operation
reads `slices`: the calls that the executor completed, by slice, with the current slice first. -/
structure Turn (J φ : Type) where
  phase : TurnPhase J φ
  resumeState : Option (ResumeState J φ)
  track : ResumeState J φ
  slices : List (List (String × J))

namespace Turn

def start : Turn J φ := ⟨.running, none, ⟨[], none, 0⟩, [[]]⟩

def replays : SideEffectClass → Bool
  | .write | .execute | .delegate => true
  | .read => false

/-- `try_reuse_completed`: only in a resumed turn, and never for a read. -/
def tryReuseCompleted [DecidableEq φ] (self : Turn J φ) (tools : Tools J φ)
    (intent : ToolIntent J) :
    Option (CompletedToolCall J φ) := do
  let _ ← self.resumeState
  let cls ← tools.registered intent.name
  if replays cls then
    let fingerprint := tools.fingerprint intent.name intent.arguments
    self.track.completedTools.find? fun completed ↦
      completed.toolName = intent.name && completed.argumentsFingerprint = fingerprint
  else none

/-- `capture_checkpoint` of an interruption, when it is saved. -/
def capture (self : Turn J φ) (tools : Tools J φ) : Option (Turn J φ) :=
  match self.track.persistenceSafeCopy tools with
  | .ok checkpoint => some { self with phase := .interrupted checkpoint }
  | .error _ => none

def withInFlight (self : Turn J φ) (inFlight : Option (InFlightOperation φ)) : Turn J φ :=
  { self with track := { self.track with inFlight } }

/-- The record of a call that the executor completed. -/
def pushCompleted (self : Turn J φ) (tools : Tools J φ) (intent : ToolIntent J) (success : Bool)
    (summary : String) (cls : SideEffectClass) : Turn J φ :=
  { self with
    track := { self.track with
      completedTools := self.track.completedTools ++ [⟨intent.toolCallId, intent.name,
        intent.arguments, tools.fingerprint intent.name intent.arguments, success, summary, cls⟩] }
    slices := self.slices.modifyHead (· ++ [(intent.name, intent.arguments)]) }

/-- The call is reused, or marked as in flight and executed. -/
def call [DecidableEq φ] (self : Turn J φ) (tools : Tools J φ) (intent : ToolIntent J)
    (execution : Execution) : Option (Turn J φ) :=
  if (self.tryReuseCompleted tools intent).isSome then some self
  else
    match execution with
    | .returned success summary =>
      some ((self.withInFlight none).pushCompleted tools intent success summary
        ((tools.registered intent.name).getD .read))
    | .failed true => (self.withInFlight none).capture tools
    | .failed false => some { self.withInFlight none with phase := .stopped }
    | .timedOut => (self.withInFlight (some ⟨intent.toolCallId, intent.name,
        tools.fingerprint intent.name intent.arguments⟩)).capture tools

/-- `resume_turn` from the checkpoint that was saved: refused while an operation may have completed,
and without a prompt. -/
def resume (self : Turn J φ) (checkpoint : ResumeState J φ) (promptIsEmpty : Bool) :
    Option (Turn J φ) :=
  if checkpoint.inFlight.isSome then none
  else if promptIsEmpty then none
  else
    let resumed := { checkpoint with resumedCount := checkpoint.resumedCount + 1 }
    some ⟨.running, some resumed, resumed, [] :: self.slices⟩

def step [DecidableEq φ] (tools : Tools J φ) (self : Turn J φ) (event : TurnEvent J) :
    Option (Turn J φ) :=
  match self.phase, event with
  | .running, .call intent execution => self.call tools intent execution
  | .running, .readWave calls =>
    if calls.all fun c ↦ tools.registered c.1.name = some .read then
      some (calls.foldl (fun turn c ↦ turn.pushCompleted tools c.1 c.2.1 c.2.2 .read) self)
    else none
  | .running, .interrupt => self.capture tools
  | .running, .stop => some { self with phase := .stopped }
  | .interrupted checkpoint, .resume promptIsEmpty => self.resume checkpoint promptIsEmpty
  | _, _ => none

/-! ## What a track remembers -/

variable {tools : Tools J φ} {turn turn' : Turn J φ} {intent : ToolIntent J}

/-- What decides whether a completed call is found: its name and its fingerprint; and the arguments
from which the next copy computes it. -/
def identity (completed : CompletedToolCall J φ) : String × J × φ :=
  (completed.toolName, completed.arguments, completed.argumentsFingerprint)

/-- The identity of a call of the current slice. -/
def own (tools : Tools J φ) (call : String × J) : String × J × φ :=
  (call.1, call.2, tools.fingerprint call.1 call.2)

/-- The identity of a call of the slice before. -/
def copied (tools : Tools J φ) (call : String × J) : String × J × φ :=
  (call.1, tools.null, tools.fingerprint call.1 call.2)

/-- The identity of a call that was copied more than once. -/
def erased (tools : Tools J φ) (call : String × J) : String × J × φ :=
  (call.1, tools.null, tools.fingerprint call.1 tools.null)

/-- The identities of the calls in a track. -/
def remembered (tools : Tools J φ) : List (List (String × J)) → List (String × J × φ)
  | [] => []
  | [current] => current.map (own tools)
  | current :: before :: older =>
    older.reverse.flatten.map (erased tools) ++ before.map (copied tools) ++
      current.map (own tools)

/-- A fingerprint that is computed from arguments that are gone. -/
def redo (tools : Tools J φ) (i : String × J × φ) : String × J × φ :=
  (i.1, tools.null, tools.fingerprint i.1 i.2.1)

/-- What the next slice remembers is what the durable copy of the track holds. -/
theorem remembered_cons_nil (slices : List (List (String × J))) :
    remembered tools ([] :: slices) = (remembered tools slices).map (redo tools) := by
  have hown : redo tools ∘ own tools = copied tools := rfl
  have hcopied : redo tools ∘ copied tools = erased tools := rfl
  have herased : redo tools ∘ erased tools = erased tools := rfl
  match slices with
  | [] => rfl
  | [current] => simp [remembered, hown]
  | current :: before :: older =>
    simp [remembered, hown, hcopied, herased]

theorem remembered_push (slices : List (List (String × J))) (hne : slices ≠ []) (c : String × J) :
    remembered tools (slices.modifyHead (· ++ [c])) = remembered tools slices ++ [own tools c] := by
  match slices with
  | [] => exact absurd rfl hne
  | [current] => simp [remembered]
  | current :: before :: older => simp [remembered]

/-- The track is what the slices say, and the engine has a recovery state in all but the first. -/
structure Inv (tools : Tools J φ) (turn : Turn J φ) : Prop where
  some_slice : turn.slices ≠ []
  track : turn.track.completedTools.map identity = remembered tools turn.slices
  resumed : turn.resumeState.isSome = true ↔ turn.slices.tail ≠ []
  saved : ∀ checkpoint, turn.phase = .interrupted checkpoint →
    checkpoint.completedTools.map identity = (remembered tools turn.slices).map (redo tools)

theorem completedTools_of_copy {state checkpoint : ResumeState J φ}
    (h : state.persistenceSafeCopy tools = .ok checkpoint) :
    checkpoint.completedTools = state.completedTools.map (·.durable tools) := by
  simp only [ResumeState.persistenceSafeCopy, bind, Except.bind] at h
  split at h
  · cases h
  split at h
  · cases h
  cases h
  rfl

theorem Inv.withInFlight (h : Inv tools turn) (hrunning : turn.phase = .running)
    (inFlight : Option (InFlightOperation φ)) : Inv tools (turn.withInFlight inFlight) where
  some_slice := h.some_slice
  track := h.track
  resumed := h.resumed
  saved _ hphase := absurd (hrunning.symm.trans hphase) nofun

theorem Inv.capture (h : Inv tools turn) (hcapture : turn.capture tools = some turn') :
    Inv tools turn' := by
  unfold Turn.capture at hcapture
  split at hcapture
  · rename_i checkpoint hcopy
    cases hcapture
    refine ⟨h.some_slice, h.track, h.resumed, fun saved hsaved ↦ ?_⟩
    cases hsaved
    rw [completedTools_of_copy hcopy, ← h.track, List.map_map, List.map_map]
    rfl
  · cases hcapture

theorem Inv.pushCompleted (h : Inv tools turn) (hrunning : turn.phase = .running)
    (intent : ToolIntent J) (success : Bool) (summary : String) (cls : SideEffectClass) :
    Inv tools (turn.pushCompleted tools intent success summary cls) := by
  refine ⟨?_, ?_, ?_, fun checkpoint hphase ↦ absurd (hrunning.symm.trans hphase) nofun⟩
  · change turn.slices.modifyHead _ ≠ []
    simpa using h.some_slice
  · change (turn.track.completedTools ++ [_]).map identity = remembered tools _
    rw [List.map_append, h.track]
    have hpush := @remembered_push J φ tools turn.slices h.some_slice
      (intent.name, intent.arguments)
    exact hpush.symm
  · refine h.resumed.trans (not_congr ?_)
    change _ ↔ (turn.slices.modifyHead _).tail = []
    cases turn.slices <;> rfl

theorem Inv.call [DecidableEq φ] (h : Inv tools turn) (hrunning : turn.phase = .running)
    {execution : Execution} (hcall : turn.call tools intent execution = some turn') :
    Inv tools turn' := by
  unfold Turn.call at hcall
  split at hcall
  · cases hcall
    exact h
  split at hcall
  · cases hcall
    exact (h.withInFlight hrunning none).pushCompleted hrunning ..
  · exact (h.withInFlight hrunning none).capture hcall
  · cases hcall
    exact ⟨h.some_slice, h.track, h.resumed, nofun⟩
  · exact (h.withInFlight hrunning _).capture hcall

theorem Inv.readWave (h : Inv tools turn) (hrunning : turn.phase = .running)
    (calls : List (ToolIntent J × Bool × String)) :
    Inv tools (calls.foldl (fun turn c ↦ turn.pushCompleted tools c.1 c.2.1 c.2.2 .read)
      turn) := by
  induction calls generalizing turn with
  | nil => exact h
  | cons c calls ih => exact ih (h.pushCompleted hrunning ..) hrunning

theorem Inv.resume (h : Inv tools turn) {checkpoint : ResumeState J φ} {promptIsEmpty : Bool}
    (hphase : turn.phase = .interrupted checkpoint)
    (hresume : turn.resume checkpoint promptIsEmpty = some turn') : Inv tools turn' := by
  unfold Turn.resume at hresume
  split at hresume
  · cases hresume
  split at hresume
  · cases hresume
  cases hresume
  refine ⟨nofun, ?_, ?_, nofun⟩
  · rw [remembered_cons_nil]
    exact h.saved checkpoint hphase
  · exact ⟨fun _ ↦ h.some_slice, fun _ ↦ rfl⟩

theorem Inv.step [DecidableEq φ] (h : Inv tools turn) {event : TurnEvent J}
    (hstep : turn.step tools event = some turn') : Inv tools turn' := by
  unfold Turn.step at hstep
  split at hstep
  · rename_i hphase
    exact h.call hphase hstep
  · rename_i hphase
    obtain ⟨-, hstep⟩ := Option.ite_none_right_eq_some.mp hstep
    cases hstep
    exact h.readWave hphase _
  · exact h.capture hstep
  · cases hstep
    exact ⟨h.some_slice, h.track, h.resumed, nofun⟩
  · rename_i hphase
    exact h.resume hphase hstep
  · cases hstep

theorem inv_start : Inv tools (start : Turn J φ) :=
  ⟨nofun, rfl, ⟨nofun, fun h ↦ absurd rfl h⟩, nofun⟩

/-! ## Calls that are not run again -/

/-- The call completed in an earlier slice. -/
def CompletedEarlier (turn : Turn J φ) (call : String × J) : Prop :=
  ∃ slice ∈ turn.slices.tail, call ∈ slice

/-- The call completed in the slice that runs or in the one before it. -/
def CompletedLately (turn : Turn J φ) (call : String × J) : Prop :=
  ∃ slice ∈ turn.slices.take 2, call ∈ slice

/-- A call that may not be replayed is not given to the executor when it completed in an earlier
slice. -/
def NotRunAgain [DecidableEq φ] (tools : Tools J φ) (turn : Turn J φ) (event : TurnEvent J) :
    Prop :=
  ∀ intent execution, event = .call intent execution →
    (tools.registered intent.name).any replays = true →
    CompletedEarlier turn (intent.name, intent.arguments) →
    (turn.tryReuseCompleted tools intent).isSome = true

/-- What is asked for again has no arguments, or completed in this slice or the one before it. -/
def AsksLately (tools : Tools J φ) (turn : Turn J φ) (event : TurnEvent J) : Prop :=
  ∀ intent execution, event = .call intent execution →
    (tools.registered intent.name).any replays = true →
    CompletedEarlier turn (intent.name, intent.arguments) →
    intent.arguments = tools.null ∨ CompletedLately turn (intent.name, intent.arguments)

/-- A call is reused when its fingerprint is in the track under its name. -/
theorem Inv.isSome_tryReuseCompleted [DecidableEq φ] (h : Inv tools turn)
    (hcls : (tools.registered intent.name).any replays = true) (hslices : turn.slices.tail ≠ []) :
    (turn.tryReuseCompleted tools intent).isSome = true ↔
      ∃ i ∈ remembered tools turn.slices, i.1 = intent.name ∧
        i.2.2 = tools.fingerprint intent.name intent.arguments := by
  obtain ⟨resumed, hresumed⟩ := Option.isSome_iff_exists.mp (h.resumed.mpr hslices)
  obtain ⟨cls, hregistered, hreplays⟩ := (Option.any_eq_true _ _).mp hcls
  have heq : turn.tryReuseCompleted tools intent = turn.track.completedTools.find? fun completed ↦
      completed.toolName = intent.name &&
        completed.argumentsFingerprint = tools.fingerprint intent.name intent.arguments := by
    simp [tryReuseCompleted, hresumed, hregistered, hreplays]
  rw [heq, List.find?_isSome, ← h.track]
  simp only [Bool.and_eq_true, decide_eq_true_eq, List.mem_map]
  constructor
  · rintro ⟨completed, hmem, hname, hfingerprint⟩
    exact ⟨identity completed, ⟨completed, hmem, rfl⟩, hname, hfingerprint⟩
  · rintro ⟨-, ⟨completed, hmem, rfl⟩, hname, hfingerprint⟩
    exact ⟨completed, hmem, hname, hfingerprint⟩

/-- A call that completed in an earlier slice is reused just when its arguments are null or it
completed lately. -/
theorem Inv.reuses_iff [DecidableEq φ] (h : Inv tools turn) (hdistinct : tools.Distinguishes)
    (hcls : (tools.registered intent.name).any replays = true)
    (hearlier : CompletedEarlier turn (intent.name, intent.arguments)) :
    (turn.tryReuseCompleted tools intent).isSome = true ↔
      intent.arguments = tools.null ∨
        CompletedLately turn (intent.name, intent.arguments) := by
  obtain ⟨slice, hslice, hmem⟩ := hearlier
  rw [h.isSome_tryReuseCompleted hcls (List.ne_nil_of_mem hslice)]
  unfold CompletedLately
  match hs : turn.slices, hslice with
  | current :: before :: older, hslice =>
    have hlately : (∃ slice ∈ (current :: before :: older).take 2,
        (intent.name, intent.arguments) ∈ slice) ↔
        (intent.name, intent.arguments) ∈ before ∨ (intent.name, intent.arguments) ∈ current := by
      simp [or_comm]
    rw [hlately]
    simp only [remembered, List.mem_append, List.mem_map]
    constructor
    · rintro ⟨i, (⟨c, hc, rfl⟩ | ⟨c, hc, rfl⟩) | ⟨c, hc, rfl⟩, hname, hfingerprint⟩
      · exact .inl (hdistinct _ _ _ _ hfingerprint).2.symm
      · obtain ⟨hn, ha⟩ := hdistinct _ _ _ _ hfingerprint
        exact .inr (.inl (by rwa [← hn, ← ha]))
      · obtain ⟨hn, ha⟩ := hdistinct _ _ _ _ hfingerprint
        exact .inr (.inr (by rwa [← hn, ← ha]))
    · rintro (hnull | hbefore | hcurrent)
      · -- The slice where the call completed is the one before, or an older one.
        obtain rfl | hslice := List.mem_cons.mp hslice
        · exact ⟨_, .inl (.inr ⟨_, hmem, rfl⟩), rfl, rfl⟩
        · refine ⟨_, .inl (.inl ⟨(intent.name, intent.arguments), ?_, rfl⟩), rfl, ?_⟩
          · exact List.mem_flatten.mpr ⟨slice, List.mem_reverse.mpr hslice, hmem⟩
          · exact congrArg _ hnull.symm
      · exact ⟨_, .inl (.inr ⟨_, hbefore, rfl⟩), rfl, rfl⟩
      · exact ⟨_, .inr ⟨_, hcurrent, rfl⟩, rfl, rfl⟩

theorem Inv.of_exec [DecidableEq φ] {events : List (TurnEvent J)}
    (hrun : exec (Turn.step tools) start events = some turn) : Inv tools turn :=
  exec_invariant (P := fun _ _ ↦ True) (fun _ _ _ h _ hstep ↦ h.step hstep) inv_start
    (fun _ _ _ _ _ _ ↦ trivial) hrun

/-- However often a turn is interrupted, no completed side effect is run again, if and only if each
call that is asked for again has no arguments or completed in the slice that runs or in the one
before it. -/
theorem notRunAgain_iff [DecidableEq φ] (hdistinct : tools.Distinguishes)
    (events : List (TurnEvent J)) :
    Throughout (step tools) start events (NotRunAgain tools) ↔
      Throughout (step tools) start events (AsksLately tools) := by
  constructor
  · intro h pre event post turn heq hrun intent execution hevent hcls hearlier
    rw [← (Inv.of_exec hrun).reuses_iff hdistinct hcls hearlier]
    exact h pre event post turn heq hrun intent execution hevent hcls hearlier
  · intro h pre event post turn heq hrun intent execution hevent hcls hearlier
    rw [(Inv.of_exec hrun).reuses_iff hdistinct hcls hearlier]
    exact h pre event post turn heq hrun intent execution hevent hcls hearlier

/-! ## Two interruptions -/

/-- A tool that writes, with a path as its argument. -/
def writer : Tools (Option String) (String × Option String) where
  null := none
  fingerprint := Prod.mk
  registered _ := some .write

theorem distinguishes_writer : writer.Distinguishes := fun _ _ _ _ h ↦ Prod.mk.inj h

def writeFile : TurnEvent (Option String) := .call ⟨"call-1", "write_file", some "/a"⟩
  (.returned true "written")

/-- The call is answered from the track after one interruption. -/
theorem notRunAgain_once : Throughout (step writer) start
    [writeFile, .interrupt, .resume false, writeFile] (NotRunAgain writer) := by
  refine (notRunAgain_iff distinguishes_writer _).mpr (throughout_cons ?_ fun _ h ↦ ?_)
  · rintro intent execution - - ⟨slice, hslice, -⟩
    cases hslice
  obtain rfl := Option.some.inj h
  refine throughout_cons nofun fun _ h ↦ ?_
  obtain rfl := Option.some.inj h
  refine throughout_cons nofun fun _ h ↦ ?_
  obtain rfl := Option.some.inj h
  refine throughout_cons ?_ fun _ _ ↦ throughout_nil
  intro intent execution hcall _ _
  cases hcall
  exact .inr ⟨[("write_file", some "/a")], by decide, by decide⟩

/-- The call runs again after two. -/
theorem two_interruptions_run_again : ¬ Throughout (step writer) start
    [writeFile, .interrupt, .resume false, .interrupt, .resume false, writeFile]
    (NotRunAgain writer) := by
  intro h
  have hcall := h [writeFile, .interrupt, .resume false, .interrupt, .resume false] writeFile [] _
    rfl rfl _ _ rfl rfl ⟨[("write_file", some "/a")], by decide, by decide⟩
  exact absurd hcall (by decide)

end Turn

end EeEditor.Orchestrator
