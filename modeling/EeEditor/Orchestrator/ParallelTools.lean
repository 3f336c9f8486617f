import EeEditor.Orchestrator.ToolWaves

/-!
# Running a batch of tools

The model of `ee-agent-orchestrator/src/parallel_tools.rs`. A batch is laid into waves, and a wave
into phases: its tools are announced, run in groups and reported. The calls of a group are under way
together and complete in any order, each with any outcome, so that a run is a list of events. The
registry is the tool that it has under a name.
-/

namespace EeEditor.Orchestrator

open Function

variable {J τ : Type} {n : ℕ}

structure ToolResult (τ : Type) where
  success : Bool
  content : τ

abbrev ToolOutcome (τ : Type) := Except OrchestratorError (ToolResult τ)

def ToolOutcome.success : Option (ToolOutcome τ) → Bool
  | some (.ok result) => result.success
  | _ => false

inductive OrchestratorEvent where
  | toolStarted (toolCallId toolName : String)
  | toolFinished (toolCallId toolName : String) (success : Bool)
deriving DecidableEq

structure ParallelToolRunner where
  tools : String → Option ToolDefinition
  maxParallel : ℕ

def ParallelToolRunner.new (tools : String → Option ToolDefinition) (maxParallel : ℕ) :
    ParallelToolRunner :=
  ⟨tools, max maxParallel 1⟩

/-! ## Phases -/

inductive Phase (n : ℕ) where
  | started (index : Fin n)
  | execute (group : List (Fin n))
  | finished (index : Fin n)

def chunksWith (size : ℕ) : ℕ → List (Fin n) → List (List (Fin n))
  | 0, _ => []
  | _ + 1, [] => []
  | fuel + 1, index :: wave =>
    (index :: wave).take size :: chunksWith size fuel ((index :: wave).drop size)

/-- Chunks of size zero panic. -/
def chunks (size : ℕ) (wave : List (Fin n)) : Option (List (List (Fin n))) :=
  if size = 0 then none else some (chunksWith size wave.length wave)

def readOnlyWave (planned : List (PlannedTool J)) (wave : List (Fin planned.length)) : Bool :=
  wave.all fun index ↦ (planned.get index).definition.sideEffectClass = .read

def ParallelToolRunner.groups (self : ParallelToolRunner) (planned : List (PlannedTool J))
    (wave : List (Fin planned.length)) : Option (List (List (Fin planned.length))) :=
  if readOnlyWave planned wave ∧ wave.length > 1 then chunks self.maxParallel wave
  else some (wave.map ([·]))

def ParallelToolRunner.phases (self : ParallelToolRunner) (planned : List (PlannedTool J))
    (wave : List (Fin planned.length)) : Option (List (Phase planned.length)) :=
  (self.groups planned wave).map fun groups ↦
    wave.map .started ++ groups.map .execute ++ wave.map .finished

/-! ## A run -/

/-- The calls of a group that has started, those that are still under way and the outcomes of the
others. -/
structure Awaited (n : ℕ) (τ : Type) where
  group : List (Fin n)
  running : List (Fin n)
  outcomes : Fin n → Option (ToolOutcome τ)

/-- The slots that were written are listed in the order in which it happened. -/
structure BatchRun (n : ℕ) (τ : Type) where
  todo : List (Phase n)
  awaited : Option (Awaited n τ)
  results : Fin n → Option (ToolOutcome τ)
  writes : List (Fin n)
  events : List OrchestratorEvent

inductive BatchStep (n : ℕ) (τ : Type) where
  | proceed
  | complete (index : Fin n) (outcome : ToolOutcome τ)

def BatchRun.start (phases : List (Phase n)) : BatchRun n τ := ⟨phases, none, fun _ ↦ none, [], []⟩

def Awaited.complete (self : Awaited n τ) (index : Fin n) (outcome : ToolOutcome τ) : Awaited n τ :=
  { self with
    running := self.running.erase index
    outcomes := update self.outcomes index (some outcome) }

/-- The outcomes of a group go to their slots. -/
def BatchRun.collect (self : BatchRun n τ) (awaited : Awaited n τ) : BatchRun n τ :=
  { self with
    awaited := none
    results := awaited.group.foldl (fun results index ↦
      update results index (awaited.outcomes index)) self.results
    writes := self.writes ++ awaited.group }

def BatchRun.proceed (planned : List (PlannedTool J)) (self : BatchRun planned.length τ) :
    Option (BatchRun planned.length τ) :=
  match self.awaited, self.todo with
  | some awaited, _ => if awaited.running = [] then some (self.collect awaited) else none
  | none, .started index :: todo =>
    let intent := (planned.get index).intent
    some { self with todo, events := self.events ++ [.toolStarted intent.toolCallId intent.name] }
  | none, .execute group :: todo =>
    some { self with todo, awaited := some ⟨group, group, fun _ ↦ none⟩ }
  | none, .finished index :: todo =>
    let intent := (planned.get index).intent
    let success := ToolOutcome.success (self.results index)
    some
      { self with
        todo
        events := self.events ++ [.toolFinished intent.toolCallId intent.name success] }
  | none, [] => none

def BatchRun.step (planned : List (PlannedTool J)) (self : BatchRun planned.length τ) :
    BatchStep planned.length τ → Option (BatchRun planned.length τ)
  | .proceed => self.proceed planned
  | .complete index outcome =>
    match self.awaited with
    | some awaited =>
      if index ∈ awaited.running then
        some { self with awaited := some (awaited.complete index outcome) }
      else none
    | none => none

/-- The calls under way. -/
def BatchRun.running (self : BatchRun n τ) : List (Fin n) := (self.awaited.map (·.running)).getD []

def BatchRun.done (self : BatchRun n τ) : Prop := self.todo = [] ∧ self.awaited = none

/-- What is returned at the end. An empty slot panics. -/
def BatchRun.returned (self : BatchRun n τ) : Option (List (ToolOutcome τ)) :=
  (List.finRange n).mapM self.results

inductive BatchStart (n : ℕ) (τ : Type) where
  | returned (results : List (ToolOutcome τ))
  | runs (run : BatchRun n τ)

/-- A name that no tool has stands for one that executes. -/
def ParallelToolRunner.plan (self : ParallelToolRunner) (intents : List (ToolIntent J)) :
    List (PlannedTool J) :=
  intents.map fun intent ↦
    { intent
      definition := (self.tools intent.name).getD
        { name := intent.name
          description := "unknown tool"
          sideEffectClass := .execute
          dependency := ⟨[], []⟩ } }

def ParallelToolRunner.runBatch (τ : Type) (self : ParallelToolRunner)
    (intents : List (ToolIntent J)) : Option (BatchStart (self.plan intents).length τ) :=
  if intents = [] then some (.returned [])
  else
    (ToolDependencyGraph.build (self.plan intents)).bind fun
      | .error error => some (.returned (List.replicate intents.length (.error error)))
      | .ok graph =>
        (graph.waves.mapM (self.phases (self.plan intents))).map fun phases ↦
          .runs (.start phases.flatten)

end EeEditor.Orchestrator
