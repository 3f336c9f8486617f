import EeEditor.Orchestrator.CheckpointStore
import EeEditor.Sequence.Worklist

/-!
# The task graph

The model of `ee-agent-orchestrator/src/tasks.rs`. An operation that fails may still change the
graph in the source, so each returns its result and the graph that it leaves. The counter of ids is
a `u64`, which wraps where overflow is not checked.
-/

namespace EeEditor.Orchestrator

def defaultTaskIdPrefix : String := "task"

def maxResultSummaryChars : ℕ := 2000

abbrev TaskId := String

inductive TaskStatus where
  | pending
  | running
  | blocked
  | completed
  | failed
  | cancelled
deriving DecidableEq

/-- The name that `Debug` prints. -/
def TaskStatus.debug : TaskStatus → String
  | pending => "Pending"
  | running => "Running"
  | blocked => "Blocked"
  | completed => "Completed"
  | failed => "Failed"
  | cancelled => "Cancelled"

/-- Allowed status transitions. -/
def canTransition : TaskStatus → TaskStatus → Bool
  | .pending, .running | .pending, .blocked | .pending, .cancelled => true
  | .running, .blocked | .running, .completed | .running, .failed | .running, .cancelled => true
  | .blocked, .pending | .blocked, .running | .blocked, .cancelled => true
  | _, _ => false

inductive TaskWorker where
  | root
  | subagent (id : TaskId)
deriving DecidableEq

/-- The terminal statuses. -/
def TaskStatus.isTerminal : TaskStatus → Bool
  | completed | failed | cancelled => true
  | _ => false

structure TaskNode where
  id : TaskId
  title : String
  description : String
  parent : Option TaskId
  dependencies : List TaskId
  status : TaskStatus
  assignedWorker : Option TaskWorker
  resultSummary : Option String
  modelId : Option String
deriving DecidableEq

def TaskNode.new (id : TaskId) (title description : String) : TaskNode :=
  ⟨id, title, description, none, [], .pending, none, none, none⟩

/-- At most `maxChars` characters of the text, with an ellipsis when it was cut. -/
def truncateText (text : String) (maxChars : ℕ) : String :=
  if text.toList.length ≤ maxChars then text
  else String.ofList (text.toList.take maxChars ++ ['…'])

def TaskNode.setResultSummary (self : TaskNode) (summary : String) : TaskNode :=
  { self with resultSummary := some (truncateText summary maxResultSummaryChars) }

@[grind =] def TaskNode.pushDependency (self : TaskNode) (prerequisite : TaskId) : TaskNode :=
  if self.dependencies.contains prerequisite then self
  else { self with dependencies := self.dependencies ++ [prerequisite] }

structure TaskGraph where
  next : UInt64
  tasks : Std.TreeMap TaskId TaskNode

namespace TaskGraph

def new : TaskGraph := ⟨1, ∅⟩

def taskId (n : ℕ) : TaskId := defaultTaskIdPrefix ++ "-" ++ toString n

def createRoot (self : TaskGraph) (title description : String) : TaskNode × TaskGraph :=
  let id := taskId self.next.toNat
  let task := { TaskNode.new id title description with status := .running }
  (task, { next := self.next + 1, tasks := self.tasks.insert id task })

def createChild (self : TaskGraph) (parent : TaskId) (title description : String) :
    Except OrchestratorError TaskNode × TaskGraph :=
  if self.tasks.contains parent then
    let id := taskId self.next.toNat
    let task := { TaskNode.new id title description with parent := some parent }
    (.ok task, { next := self.next + 1, tasks := self.tasks.insert id task })
  else (.error (.invalidState ("unknown parent task " ++ parent)), self)

/-! ## Dependencies -/

@[grind =] def dependenciesOf (self : TaskGraph) (id : TaskId) : List TaskId :=
  (self.tasks[id]?.map (·.dependencies)).getD []

/-- More than the number of rounds of the search. -/
def searchFuel (self : TaskGraph) : ℕ :=
  (self.tasks.keys.map fun id ↦ (self.dependenciesOf id).length).sum + 2

/-- Whether `prerequisite` reaches `task` by its dependencies. -/
def createsCycle (self : TaskGraph) (task prerequisite : TaskId) : Bool :=
  (searchFor self.dependenciesOf task self.searchFuel [prerequisite] []).getD false

@[grind =] def addDependency (self : TaskGraph) (task prerequisite : TaskId) :
    Except OrchestratorError Unit × TaskGraph :=
  if task = prerequisite then
    (.error (.invalidState "a task cannot depend on itself"), self)
  else
    match self.tasks[task]? with
    | none => (.error (.invalidState ("unknown task " ++ task)), self)
    | some node =>
      if !self.tasks.contains prerequisite then
        (.error (.invalidState ("unknown prerequisite " ++ prerequisite)), self)
      else if self.createsCycle task prerequisite then
        (.error (.invalidState ("dependency edge " ++ task ++ " -> " ++ prerequisite
          ++ " would create a cycle")), self)
      else
        (.ok (), { self with tasks := self.tasks.insert task (node.pushDependency prerequisite) })

/-! ## Changes of one task -/

/-- The task is replaced by what `f` makes of it. -/
def modify (self : TaskGraph) (id : TaskId) (f : TaskNode → Except OrchestratorError TaskNode) :
    Except OrchestratorError Unit × TaskGraph :=
  match self.tasks[id]? with
  | none => (.error (.invalidState ("unknown task " ++ id)), self)
  | some node =>
    match f node with
    | .error e => (.error e, self)
    | .ok node => (.ok (), { self with tasks := self.tasks.insert id node })

def transition (self : TaskGraph) (id : TaskId) (status : TaskStatus) :
    Except OrchestratorError Unit × TaskGraph :=
  self.modify id fun node ↦
    if canTransition node.status status then .ok { node with status }
    else .error (.invalidState ("invalid task transition " ++ node.status.debug ++ " -> "
      ++ status.debug ++ " for " ++ id))

def setResultSummary (self : TaskGraph) (id : TaskId) (summary : String) :
    Except OrchestratorError Unit × TaskGraph :=
  self.modify id fun node ↦ .ok (node.setResultSummary summary)

def setModelId (self : TaskGraph) (id : TaskId) (modelId : Option String) :
    Except OrchestratorError Unit × TaskGraph :=
  self.modify id fun node ↦ .ok { node with modelId }

/-! ## Restored graphs -/

/-- What is wrong with the references of a task. -/
def checkNode (self : TaskGraph) (node : TaskNode) : Option OrchestratorError :=
  match node.parent.filter fun parent ↦ !self.tasks.contains parent with
  | some parent =>
    some (.invalidState ("task " ++ node.id ++ " references unknown parent " ++ parent))
  | none =>
    match node.dependencies.find? fun dependency ↦ !self.tasks.contains dependency with
    | some dependency =>
      some (.invalidState ("task " ++ node.id ++ " references unknown dependency " ++ dependency))
    | none =>
      match node.assignedWorker with
      | some (.subagent worker) =>
        if self.tasks.contains worker then none
        else some (.invalidState
          ("task " ++ node.id ++ " references unknown subagent worker " ++ worker))
      | _ => none

def validateReferences (self : TaskGraph) : Except OrchestratorError Unit :=
  if self.next = 0 then .error (.invalidState "task graph id counter is zero")
  else
    match (self.tasks.toList.map (·.2)).findSome? self.checkNode with
    | some e => .error e
    | none => .ok ()

/-! ## Steps -/

inductive TaskOp where
  | createRoot (title description : String)
  | createChild (parent : TaskId) (title description : String)
  | addDependency (task prerequisite : TaskId)
  | transition (id : TaskId) (status : TaskStatus)
  | setResultSummary (id : TaskId) (summary : String)
  | setModelId (id : TaskId) (modelId : Option String)

@[grind =] def TaskOp.creations : TaskOp → ℕ
  | .createRoot .. | .createChild .. => 1
  | _ => 0

def done (result : Except OrchestratorError Unit × TaskGraph) :
    Except OrchestratorError (Option TaskNode) × TaskGraph :=
  (result.1.map fun _ ↦ none, result.2)

/-- The task that was created, if any, or the error, and the graph after it. -/
def call (self : TaskGraph) : TaskOp → Except OrchestratorError (Option TaskNode) × TaskGraph
  | .createRoot title description =>
    let (task, graph) := self.createRoot title description
    (.ok (some task), graph)
  | .createChild parent title description =>
    let created := self.createChild parent title description
    (created.1.map some, created.2)
  | .addDependency task prerequisite => done (self.addDependency task prerequisite)
  | .transition task status => done (self.transition task status)
  | .setResultSummary task summary => done (self.setResultSummary task summary)
  | .setModelId task modelId => done (self.setModelId task modelId)

def after (self : TaskGraph) (ops : List TaskOp) : TaskGraph :=
  ops.foldl (fun graph op ↦ (graph.call op).2) self

end TaskGraph

end EeEditor.Orchestrator
