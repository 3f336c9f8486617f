import EeEditor.Orchestrator.TaskGraph

/-!
# The task graph is a dependency order

What `validate_references` accepts may have a cycle, and a counter below the ids that it holds. From
a graph with neither, no operation adds one.
-/

namespace EeEditor.Orchestrator

open Relation

namespace TaskGraph

variable {g : TaskGraph} {node : TaskNode} {id task prerequisite : TaskId} {n : UInt64}

/-! ## Invariants -/

def DependsOn (g : TaskGraph) (x y : TaskId) : Prop := y ∈ g.dependenciesOf x

def Acyclic (g : TaskGraph) : Prop := ∀ id, ¬ TransGen g.DependsOn id id

/-- The references of the task are to stored tasks. -/
structure NodeStored (g : TaskGraph) (node : TaskNode) : Prop where
  parent : ∀ parent ∈ node.parent, parent ∈ g.tasks
  dependencies : ∀ dependency ∈ node.dependencies, dependency ∈ g.tasks
  worker : ∀ worker, node.assignedWorker = some (.subagent worker) → worker ∈ g.tasks

def References (g : TaskGraph) : Prop :=
  ∀ (id : TaskId) (node : TaskNode), g.tasks[id]? = some node → g.NodeStored node

/-- No id that the counter is still to give, short of its end, is taken. -/
def Fresh (g : TaskGraph) : Prop :=
  ∀ k, g.next.toNat ≤ k → k + 1 < 2 ^ 64 → taskId k ∉ g.tasks

theorem taskId_injective : Function.Injective taskId := by
  intro k l h
  have h' := congrArg String.toList h
  simp only [taskId, String.toList_append, List.append_cancel_left_eq, Nat.toString_eq_repr,
    Nat.toList_repr] at h'
  rw [← Nat.ofDigitChars_ten_toDigits (n := k), h', Nat.ofDigitChars_ten_toDigits]

theorem nodeStored_of_checkNode (h : g.checkNode node = none) : g.NodeStored node := by
  rw [checkNode] at h
  split at h
  · cases h
  rename_i hparent
  split at h
  · cases h
  rename_i hdependencies
  refine ⟨fun parent hmem ↦ ?_, fun dependency hmem ↦ ?_, fun worker hworker ↦ ?_⟩
  · simpa using Option.filter_eq_none_iff.mp hparent parent hmem
  · simpa using List.find?_eq_none.mp hdependencies dependency hmem
  · rw [hworker] at h
    by_contra hmem
    simp [hmem] at h

theorem references_of_valid (h : g.validateReferences = .ok ()) : g.References := by
  intro id node hnode
  rw [validateReferences] at h
  split at h
  · cases h
  split at h
  · cases h
  rename_i hvalid
  refine nodeStored_of_checkNode (List.findSome?_eq_none_iff.mp hvalid node ?_)
  exact List.mem_map.mpr ⟨(id, node), Std.TreeMap.mem_toList_iff_getElem?_eq_some.mpr hnode, rfl⟩

/-! ## What an insertion keeps -/

theorem getElem?_insert (g : TaskGraph) (n : UInt64) (id : TaskId) (node : TaskNode) (x : TaskId) :
    (TaskGraph.mk n (g.tasks.insert id node)).tasks[x]? =
      if id = x then some node else g.tasks[x]? := by
  simp [Std.TreeMap.getElem?_insert]

theorem mem_insert {x : TaskId} : x ∈ (TaskGraph.mk n (g.tasks.insert id node)).tasks ↔
    id = x ∨ x ∈ g.tasks := by
  simp [Std.TreeMap.mem_insert]

theorem dependenciesOf_insert (g : TaskGraph) (n : UInt64) (id : TaskId) (node : TaskNode)
    (x : TaskId) : (TaskGraph.mk n (g.tasks.insert id node)).dependenciesOf x =
      if id = x then node.dependencies else g.dependenciesOf x := by
  rw [dependenciesOf, getElem?_insert]
  split <;> rfl

theorem NodeStored.insert (h : g.NodeStored node) (n : UInt64) (id : TaskId) (other : TaskNode) :
    (TaskGraph.mk n (g.tasks.insert id other)).NodeStored node where
  parent x hx := mem_insert.mpr (.inr (h.parent x hx))
  dependencies x hx := mem_insert.mpr (.inr (h.dependencies x hx))
  worker x hx := mem_insert.mpr (.inr (h.worker x hx))

theorem References.insert (h : g.References) (hnode : g.NodeStored node) (n : UInt64)
    (id : TaskId) : (TaskGraph.mk n (g.tasks.insert id node)).References := by
  intro x other hother
  rw [getElem?_insert] at hother
  split at hother
  · cases hother
    exact hnode.insert n id node
  · exact (h x other hother).insert n id node

theorem dependsOn_insert_same (hsame : node.dependencies = g.dependenciesOf id) :
    (TaskGraph.mk n (g.tasks.insert id node)).DependsOn = g.DependsOn := by
  funext x y
  rw [DependsOn, DependsOn, dependenciesOf_insert]
  split
  · subst x
    rw [hsame]
  · rfl

theorem dependenciesOf_eq (h : g.tasks[id]? = some node) :
    g.dependenciesOf id = node.dependencies := by
  rw [dependenciesOf, h]
  rfl

theorem dependenciesOf_eq_nil (h : id ∉ g.tasks) : g.dependenciesOf id = [] := by
  rw [dependenciesOf, Std.TreeMap.getElem?_eq_none h]
  rfl

/-! ## The search for a cycle -/

theorem createsCycle_iff (g : TaskGraph) (task prerequisite : TaskId) :
    g.createsCycle task prerequisite = true ↔ ReflTransGen g.DependsOn prerequisite task := by
  have hnodes : ∀ id, id ∉ g.tasks.keys → g.dependenciesOf id = [] := fun id hid ↦
    dependenciesOf_eq_nil (mt Std.TreeMap.mem_keys.mpr hid)
  have hfuel : (g.tasks.keys.map fun id ↦ (g.dependenciesOf id).length).sum + 1 < g.searchFuel := by
    rw [searchFuel]
    omega
  obtain ⟨found, heq, hfound⟩ := searchFor_start hnodes hfuel prerequisite task
  rw [createsCycle, heq]
  exact hfound

theorem acyclic_pushDependency (h : g.Acyclic) (hnode : g.tasks[task]? = some node)
    (hreach : ¬ ReflTransGen g.DependsOn prerequisite task) :
    (TaskGraph.mk g.next (g.tasks.insert task (node.pushDependency prerequisite))).Acyclic := by
  intro id cycle
  refine acyclic_edge h hreach id (TransGen.mono (fun x y hedge ↦ ?_) id id cycle)
  rw [DependsOn, dependenciesOf_insert] at hedge
  split at hedge
  case isTrue htask =>
    subst htask
    rw [TaskNode.pushDependency] at hedge
    split at hedge
    · exact .inl (by rwa [DependsOn, dependenciesOf_eq hnode])
    · rcases List.mem_append.mp hedge with hedge | hedge
      · exact .inl (by rwa [DependsOn, dependenciesOf_eq hnode])
      · exact .inr ⟨rfl, List.mem_singleton.mp hedge⟩
  case isFalse => exact .inl hedge

/-! ## What a call keeps -/

/-- What the call keeps of the graph, and when a dependency is refused. -/
structure Kept (g : TaskGraph) (op : TaskOp) : Prop where
  failed : ∀ e, (g.call op).1 = .error e → (g.call op).2 = g
  created : ∀ node, (g.call op).1 = .ok (some node) → node.id ∉ g.tasks ∧
    ∀ (id : TaskId) (old : TaskNode), g.tasks[id]? = some old →
      (g.call op).2.tasks[id]? = some old
  refused : ∀ task prerequisite, op = .addDependency task prerequisite →
    ((∃ e, (g.call op).1 = .error e) ↔
      task ∉ g.tasks ∨ prerequisite ∉ g.tasks ∨ ReflTransGen g.DependsOn prerequisite task)
  ended : ∀ (id : TaskId) (node : TaskNode), g.tasks[id]? = some node → node.status.isTerminal →
    ∃ node', (g.call op).2.tasks[id]? = some node' ∧ node'.status = node.status

/-! ## Calls -/

/-- A call that inserts a task with the dependencies that were stored under its id. -/
theorem Acyclic.insert_same (h : g.Acyclic) (n : UInt64)
    (hsame : node.dependencies = g.dependenciesOf id) :
    (TaskGraph.mk n (g.tasks.insert id node)).Acyclic := by
  rw [Acyclic, dependsOn_insert_same hsame]
  exact h

theorem kept_insert_new (hid : node.id ∉ g.tasks) {x : TaskId} {old : TaskNode}
    (hold : g.tasks[x]? = some old) :
    (TaskGraph.mk n (g.tasks.insert node.id node)).tasks[x]? = some old := by
  rw [getElem?_insert, if_neg, hold]
  rintro rfl
  rw [Std.TreeMap.getElem?_eq_none hid] at hold
  cases hold

/-- What a call does: it fails and keeps the graph, creates a task, adds an edge that closes no
cycle, or changes a task in what no other task sees. -/
inductive Outcome (g : TaskGraph) :
    TaskOp → Except OrchestratorError (Option TaskNode) × TaskGraph →
    Prop
  | failed {op : TaskOp} (e : OrchestratorError) : Outcome g op (.error e, g)
  | created {op : TaskOp} (hop : op.creations = 1) (node : TaskNode)
    (hid : node.id = taskId g.next.toNat)
    (hdependencies : node.dependencies = []) (hstored : g.NodeStored node) :
    Outcome g op (.ok (some node), ⟨g.next + 1, g.tasks.insert node.id node⟩)
  | depends (task prerequisite : TaskId) (node : TaskNode) (hnode : g.tasks[task]? = some node)
    (hprerequisite : prerequisite ∈ g.tasks)
    (hreach : ¬ ReflTransGen g.DependsOn prerequisite task) :
    Outcome g (.addDependency task prerequisite)
      (.ok none, { g with tasks := g.tasks.insert task (node.pushDependency prerequisite) })
  | modified {op : TaskOp} (id : TaskId) (node node' : TaskNode) (hnode : g.tasks[id]? = some node)
    (hparent : node'.parent = node.parent) (hdependencies : node'.dependencies = node.dependencies)
    (hworker : node'.assignedWorker = node.assignedWorker)
    (hstatus : node.status.isTerminal → node'.status = node.status) :
    Outcome g op (.ok none, { g with tasks := g.tasks.insert id node' })

theorem nodeStored_new (g : TaskGraph) (id : TaskId) (title description : String)
    (status : TaskStatus) {parent : Option TaskId} (hparent : ∀ p ∈ parent, p ∈ g.tasks) :
    g.NodeStored { TaskNode.new id title description with status, parent } where
  parent := hparent
  dependencies := nofun
  worker := nofun

theorem outcome_modify (op : TaskOp) (id : TaskId)
    (f : TaskNode → Except OrchestratorError TaskNode)
    (hf : ∀ node node', f node = .ok node' → node'.parent = node.parent ∧
      node'.dependencies = node.dependencies ∧ node'.assignedWorker = node.assignedWorker ∧
      (node.status.isTerminal → node'.status = node.status)) :
    Outcome g op (done (g.modify id f)) := by
  rw [modify]
  split
  case h_1 => exact .failed _
  case h_2 node hnode =>
    cases hresult : f node with
    | error e => exact .failed e
    | ok node' =>
      obtain ⟨hparent, hdependencies, hworker, hstatus⟩ := hf node node' hresult
      exact .modified id node node' hnode hparent hdependencies hworker hstatus

theorem outcome_call (g : TaskGraph) (op : TaskOp) : Outcome g op (g.call op) := by
  cases op with
  | createRoot title description =>
    exact .created rfl _ rfl rfl (nodeStored_new g _ title description .running nofun)
  | createChild parent title description =>
    simp only [call, createChild]
    split
    case isTrue hparent =>
      refine .created rfl _ rfl rfl (nodeStored_new g _ title description .pending ?_)
      rintro _ ⟨⟩
      exact Std.TreeMap.mem_iff_contains.mpr hparent
    case isFalse => exact .failed _
  | addDependency task prerequisite =>
    simp only [call, addDependency]
    split
    case isTrue => exact .failed _
    case isFalse =>
      split
      case h_1 => exact .failed _
      case h_2 node hnode =>
        split
        case isTrue => exact .failed _
        case isFalse hprerequisite =>
          split
          case isTrue => exact .failed _
          case isFalse hcycle =>
            refine .depends task prerequisite node hnode ?_ (mt (createsCycle_iff g _ _).mpr hcycle)
            simpa using hprerequisite
  | transition id status =>
    refine outcome_modify _ id _ fun node node' hresult ↦ ?_
    split at hresult
    case isTrue hallowed =>
      cases hresult
      refine ⟨rfl, rfl, rfl, fun hterminal ↦ ?_⟩
      cases hstatus : node.status <;> simp_all [canTransition, TaskStatus.isTerminal]
    case isFalse => cases hresult
  | setResultSummary id | setModelId id =>
    refine outcome_modify _ id _ fun node node' hresult ↦ ?_
    cases hresult
    exact ⟨rfl, rfl, rfl, fun _ ↦ rfl⟩

/-! ## One call -/

theorem addDependency_error_iff (g : TaskGraph) (task prerequisite : TaskId) :
    (∃ e, (g.call (.addDependency task prerequisite)).1 = .error e) ↔
      task ∉ g.tasks ∨ prerequisite ∉ g.tasks ∨ ReflTransGen g.DependsOn prerequisite task := by
  simp only [call, done, addDependency]
  by_cases heq : task = prerequisite
  · rw [if_pos heq]
    exact iff_of_true ⟨_, rfl⟩ (.inr (.inr (heq ▸ .refl)))
  rw [if_neg heq]
  by_cases htask : task ∈ g.tasks
  · obtain ⟨node, hnode⟩ := Option.isSome_iff_exists.mp
      (Std.TreeMap.mem_iff_isSome_getElem?.mp htask)
    simp only [hnode]
    by_cases hprerequisite : prerequisite ∈ g.tasks
    · have hcontains : g.tasks.contains prerequisite := hprerequisite
      rw [hcontains, Bool.not_true, if_neg Bool.false_ne_true]
      by_cases hcycle : g.createsCycle task prerequisite
      · rw [if_pos hcycle]
        exact iff_of_true ⟨_, rfl⟩ (.inr (.inr ((createsCycle_iff g task prerequisite).mp hcycle)))
      · rw [if_neg hcycle]
        refine iff_of_false (fun ⟨e, he⟩ ↦ nomatch he) ?_
        rintro (h | h | h)
        · exact h htask
        · exact h hprerequisite
        · exact hcycle ((createsCycle_iff g task prerequisite).mpr h)
    · have hcontains : g.tasks.contains prerequisite = false := Bool.eq_false_iff.mpr hprerequisite
      rw [hcontains, Bool.not_false, if_pos rfl]
      exact iff_of_true ⟨_, rfl⟩ (.inr (.inl hprerequisite))
  · rw [Std.TreeMap.getElem?_eq_none htask]
    exact iff_of_true ⟨_, rfl⟩ (.inl htask)

variable {op : TaskOp} {r : Except OrchestratorError (Option TaskNode) × TaskGraph}

theorem Outcome.failed_eq (h : Outcome g op r) {e : OrchestratorError} (he : r.1 = .error e) :
    r.2 = g := by
  cases h with
  | failed => rfl
  | created => cases he
  | depends => cases he
  | modified => cases he

theorem Outcome.created_new (h : Outcome g op r)
    (hfresh : op.creations = 1 → taskId g.next.toNat ∉ g.tasks) (hnode : r.1 = .ok (some node)) :
    node.id ∉ g.tasks ∧ ∀ (x : TaskId) (old : TaskNode), g.tasks[x]? = some old →
      r.2.tasks[x]? = some old := by
  cases h with
  | failed => cases hnode
  | created hop node hid =>
    cases hnode
    have hnew : node.id ∉ g.tasks := hid ▸ hfresh hop
    exact ⟨hnew, fun x old hold ↦ kept_insert_new hnew hold⟩
  | depends => cases hnode
  | modified => cases hnode

theorem Outcome.ended (h : Outcome g op r)
    (hfresh : op.creations = 1 → taskId g.next.toNat ∉ g.tasks) {x : TaskId} {old : TaskNode}
    (hold : g.tasks[x]? = some old) (hterminal : old.status.isTerminal) :
    ∃ new, r.2.tasks[x]? = some new ∧ new.status = old.status := by
  cases h with
  | failed => exact ⟨old, hold, rfl⟩
  | created hop node hid =>
    exact ⟨old, kept_insert_new (hid ▸ hfresh hop) hold, rfl⟩
  | depends task prerequisite node hnode =>
    rw [getElem?_insert]
    split
    case isTrue heq =>
      obtain rfl : node = old := Option.some.inj ((heq ▸ hnode).symm.trans hold)
      refine ⟨_, rfl, ?_⟩
      rw [TaskNode.pushDependency]
      split <;> rfl
    case isFalse => exact ⟨old, hold, rfl⟩
  | modified id node node' hnode _ _ _ hstatus =>
    rw [getElem?_insert]
    split
    case isTrue heq =>
      obtain rfl : node = old := Option.some.inj ((heq ▸ hnode).symm.trans hold)
      exact ⟨node', rfl, hstatus hterminal⟩
    case isFalse => exact ⟨old, hold, rfl⟩

theorem kept_call (hfresh : op.creations = 1 → taskId g.next.toNat ∉ g.tasks) : Kept g op where
  failed e he := (outcome_call g op).failed_eq he
  created node hnode := (outcome_call g op).created_new hfresh hnode
  refused := by
    rintro task prerequisite rfl
    exact addDependency_error_iff g task prerequisite
  ended id node hnode hterminal := (outcome_call g op).ended hfresh hnode hterminal

/-! ## Runs -/

/-- What the operations keep: the references, the order and the ids that the counter may give. -/
structure Ordered (g : TaskGraph) : Prop where
  references : g.References
  acyclic : g.Acyclic
  fresh : g.Fresh

theorem NodeStored.pushDependency (h : g.NodeStored node) (hprerequisite : prerequisite ∈ g.tasks) :
    g.NodeStored (node.pushDependency prerequisite) := by
  rw [TaskNode.pushDependency]
  split
  · exact h
  · refine ⟨h.parent, fun x hx ↦ ?_, h.worker⟩
    rcases List.mem_append.mp hx with hx | hx
    · exact h.dependencies x hx
    · rwa [List.mem_singleton.mp hx]

theorem Fresh.insert_stored (h : g.Fresh) (hid : id ∈ g.tasks) (node : TaskNode) :
    (TaskGraph.mk g.next (g.tasks.insert id node)).Fresh := by
  intro k hk hmax hmem
  rcases mem_insert.mp hmem with rfl | hmem
  · exact h k hk hmax hid
  · exact h k hk hmax hmem

theorem mem_of_getElem? (h : g.tasks[id]? = some node) : id ∈ g.tasks :=
  Std.TreeMap.mem_iff_isSome_getElem?.mpr (by rw [h]; rfl)

theorem toNat_succ (hroom : n.toNat + 1 < 2 ^ 64) : (n + 1).toNat = n.toNat + 1 := by
  rw [UInt64.toNat_add]
  exact Nat.mod_eq_of_lt hroom

theorem Ordered.outcome (h : g.Ordered) (hout : Outcome g op r)
    (hroom : g.next.toNat + op.creations < 2 ^ 64) :
    r.2.Ordered ∧ r.2.next.toNat ≤ g.next.toNat + op.creations := by
  cases hout with
  | failed => exact ⟨h, Nat.le_add_right _ _⟩
  | created hop node hid hdependencies hstored =>
    rw [hop] at hroom ⊢
    have hnext : (g.next + 1).toNat = g.next.toNat + 1 := toNat_succ hroom
    have hnew : node.id ∉ g.tasks := hid ▸ h.fresh g.next.toNat le_rfl hroom
    refine ⟨⟨h.references.insert hstored _ _, h.acyclic.insert_same _ ?_, ?_⟩, hnext.le⟩
    · rw [hdependencies, dependenciesOf_eq_nil hnew]
    · intro k hk hmax hmem
      rw [hnext] at hk
      rcases mem_insert.mp hmem with heq | hmem
      · have := taskId_injective (hid.symm.trans heq)
        omega
      · exact h.fresh k (by omega) hmax hmem
  | depends task prerequisite node hnode hprerequisite hreach =>
    refine ⟨⟨?_, acyclic_pushDependency h.acyclic hnode hreach, ?_⟩, Nat.le_add_right _ _⟩
    · exact h.references.insert ((h.references task node hnode).pushDependency hprerequisite) _ _
    · exact h.fresh.insert_stored (mem_of_getElem? hnode) _
  | modified id node node' hnode hparent hdependencies hworker _ =>
    have hstored := h.references id node hnode
    refine ⟨⟨h.references.insert ⟨?_, ?_, ?_⟩ _ _, h.acyclic.insert_same _ ?_, ?_⟩,
      Nat.le_add_right _ _⟩
    · rw [hparent]
      exact hstored.parent
    · rw [hdependencies]
      exact hstored.dependencies
    · rw [hworker]
      exact hstored.worker
    · rw [hdependencies, dependenciesOf_eq hnode]
    · exact h.fresh.insert_stored (mem_of_getElem? hnode) _

def creations (ops : List TaskOp) : ℕ := (ops.map TaskOp.creations).sum

theorem Ordered.after (h : g.Ordered) (ops : List TaskOp)
    (hroom : g.next.toNat + creations ops < 2 ^ 64) :
    (g.after ops).Ordered ∧ (g.after ops).next.toNat ≤ g.next.toNat + creations ops := by
  induction ops generalizing g with
  | nil => exact ⟨h, Nat.le_add_right _ _⟩
  | cons op ops ih =>
    rw [creations, List.map_cons, List.sum_cons, ← creations] at hroom ⊢
    obtain ⟨h₁, hnext⟩ := h.outcome (outcome_call g op) (by omega)
    obtain ⟨h₂, hnext'⟩ := ih h₁ (by omega)
    exact ⟨h₂, hnext'.trans (by omega)⟩

theorem creations_append (ops ops' : List TaskOp) :
    creations (ops ++ ops') = creations ops + creations ops' := by
  rw [creations, List.map_append, List.sum_append]
  rfl

/-- In every state of the run the references are to stored tasks and nothing depends on itself, and
every call of it keeps what it has to. -/
structure KeepsOrder (g : TaskGraph) (ops : List TaskOp) : Prop where
  states : ∀ pre post, ops = pre ++ post → (g.after pre).References ∧ (g.after pre).Acyclic
  calls : ∀ pre op post, ops = pre ++ op :: post → Kept (g.after pre) op

theorem Ordered.keepsOrder (h : g.Ordered) {ops : List TaskOp}
    (hroom : g.next.toNat + creations ops < 2 ^ 64) : KeepsOrder g ops where
  states := by
    rintro pre post rfl
    rw [creations_append] at hroom
    obtain ⟨h', -⟩ := h.after pre (by omega)
    exact ⟨h'.references, h'.acyclic⟩
  calls := by
    rintro pre op post rfl
    rw [creations_append, creations, creations, List.map_cons, List.sum_cons, ← creations] at hroom
    obtain ⟨h', hnext⟩ := h.after pre (by omega)
    refine kept_call fun hop ↦ h'.fresh _ le_rfl ?_
    omega

theorem ordered_new : new.Ordered where
  references id node hnode := by
    simp [new] at hnode
  acyclic id cycle := by
    obtain ⟨x, hx, -⟩ := TransGen.head'_iff.mp cycle
    simp [DependsOn, dependenciesOf, new] at hx
  fresh k _ _ := by simp [new]

/-! ## Exactly the ordered graphs -/

/-- The graph after some roots were created. -/
theorem next_after_roots (n : ℕ) (hroom : g.next.toNat + n < 2 ^ 64) :
    (g.after (List.replicate n (.createRoot "" ""))).next.toNat = g.next.toNat + n := by
  induction n generalizing g with
  | zero => rfl
  | succ n ih =>
    have hnext : (g.next + 1).toNat = g.next.toNat + 1 := toNat_succ (by omega)
    change ((g.createRoot "" "").2.after (List.replicate n (.createRoot "" ""))).next.toNat = _
    rw [ih (by change (g.next + 1).toNat + n < _; omega)]
    change (g.next + 1).toNat + n = _
    omega

theorem mem_call {x : TaskId} (hx : x ∈ g.tasks) (op : TaskOp) : x ∈ (g.call op).2.tasks := by
  have h := outcome_call g op
  generalize g.call op = r at h
  cases h with
  | failed => exact hx
  | _ => exact mem_insert.mpr (.inr hx)

theorem mem_after {x : TaskId} (hx : x ∈ g.tasks) (ops : List TaskOp) :
    x ∈ (g.after ops).tasks := by
  induction ops generalizing g with
  | nil => exact hx
  | cons op ops ih => exact ih (mem_call hx op)

theorem creations_replicate (n : ℕ) :
    creations (List.replicate n (.createRoot "" "")) = n := by
  simp [creations, TaskOp.creations]

theorem fresh_of_keepsOrder (h : ∀ ops, g.next.toNat + creations ops < 2 ^ 64 → KeepsOrder g ops) :
    g.Fresh := by
  intro k hk hmax hmem
  let roots : List TaskOp := List.replicate (k - g.next.toNat) (.createRoot "" "")
  have hroots : creations roots = k - g.next.toNat := creations_replicate _
  have hnext : (g.after roots).next.toNat = k := by
    rw [next_after_roots _ (by omega)]
    omega
  have hkept := (h (roots ++ [.createRoot "" ""]) (by
    rw [creations_append, hroots]
    change g.next.toNat + (k - g.next.toNat + 1) < 2 ^ 64
    omega)).calls roots (.createRoot "" "") [] rfl
  refine (hkept.created _ rfl).1 ?_
  change taskId (g.after roots).next.toNat ∈ _
  rw [hnext]
  exact mem_after hmem roots

/-- From an accepted graph every run keeps the order exactly when the graph has no cycle and its
counter is past the ids that it holds. From a new graph every run keeps it. A run creates fewer
tasks than the counter has values left. -/
theorem keepsOrder_iff (g : TaskGraph) (haccepted : g.validateReferences = .ok ()) :
    ((∀ ops, g.next.toNat + creations ops < 2 ^ 64 → KeepsOrder g ops) ↔ g.Acyclic ∧ g.Fresh) ∧
      ∀ ops, 1 + creations ops < 2 ^ 64 → KeepsOrder new ops := by
  refine ⟨⟨fun h ↦ ⟨?_, fresh_of_keepsOrder h⟩, fun ⟨hacyclic, hfresh⟩ ops hroom ↦ ?_⟩, ?_⟩
  · exact ((h [] g.next.toNat_lt).states [] [] rfl).2
  · exact Ordered.keepsOrder ⟨references_of_valid haccepted, hacyclic, hfresh⟩ hroom
  · exact fun ops hroom ↦ ordered_new.keepsOrder hroom

/-- A task that waits for another. -/
def waiting : TaskGraph :=
  new.after [.createRoot "" "", .createRoot "" "", .addDependency "task-2" "task-1"]

theorem keepsOrder_waiting : waiting.validateReferences = .ok () ∧
    waiting.dependenciesOf "task-2" = ["task-1"] ∧
    (∀ ops, waiting.next.toNat + creations ops < 2 ^ 64 → KeepsOrder waiting ops) ∧
    ∀ ops, 1 + creations ops < 2 ^ 64 → KeepsOrder new ops := by
  have haccepted : waiting.validateReferences = .ok () := rfl
  obtain ⟨hiff, hnew⟩ := keepsOrder_iff waiting haccepted
  obtain ⟨hordered, -⟩ := ordered_new.after
    [.createRoot "" "", .createRoot "" "", .addDependency "task-2" "task-1"] (by decide)
  exact ⟨haccepted, by decide, hiff.mpr ⟨hordered.acyclic, hordered.fresh⟩, hnew⟩

/-- A restored graph whose counter would give the id of its task again. -/
def regenerating : TaskGraph :=
  ⟨1, (∅ : Std.TreeMap TaskId TaskNode).insert "task-1"
    { TaskNode.new "task-1" "done" "" with status := .completed }⟩

/-- The next root takes the place of a completed task. -/
theorem regenerating_replaces : ¬ ∀ g : TaskGraph, g.validateReferences = .ok () →
    ∀ ops, g.next.toNat + creations ops < 2 ^ 64 → KeepsOrder g ops := by
  intro h
  have hkept := (h regenerating rfl [.createRoot "" ""] (by decide)).calls
    [] (.createRoot "" "") [] rfl
  exact (hkept.created _ rfl).1 rfl

end TaskGraph

end EeEditor.Orchestrator
