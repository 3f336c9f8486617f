import Mathlib.Data.Finset.Max
import Mathlib.Data.List.FinRange
import Mathlib.Data.List.Perm.Basic
import Mathlib.Order.Lattice.Nat
import EeEditor.Orchestrator.TurnSlices
import EeEditor.Sequence.Worklist

/-!
# The waves layer the batch

The graph of `ee-agent-orchestrator/src/tool_dependencies.rs`: which planned tool waits for which
other one, and the waves that Kahn's algorithm lays them out in. The indices of a batch are those
below its length. A counter that would go below zero panics, and the result is then `none`.

## The invariant of the rounds

Every node that Kahn's algorithm has taken has the longest chain of dependencies that ends in it as
its level, and the nodes that it cannot take wait for one another. The waves are the levels.
-/

namespace EeEditor.Orchestrator

open Function Relation

variable {J : Type} {n : ℕ}

inductive ToolDataClass where
  | fileText
  | terminalHandle
  | terminalOutput
  | terminalExit
  | userInput
  | subagentSummary
deriving DecidableEq

structure ToolDependency where
  requires : List ToolDataClass
  produces : List ToolDataClass

structure ToolDefinition where
  name : String
  description : String
  sideEffectClass : SideEffectClass
  dependency : ToolDependency

structure PlannedTool (J : Type) where
  intent : ToolIntent J
  definition : ToolDefinition

structure ToolDependencyGraph (n : ℕ) where
  waves : List (List (Fin n))

/-! ## Edges -/

/-- The first of the two tools produces a class that the second one requires. -/
def PlannedTool.depends (tool other : PlannedTool J) : Bool :=
  tool.definition.dependency.produces.any fun cls ↦
    other.definition.dependency.requires.contains cls

structure Edges (n : ℕ) where
  successors : Fin n → List (Fin n)
  indegree : Fin n → ℕ

/-- A tool that waits for itself counts in its own indegree and is no successor. -/
def Edges.add (depends : Fin n → Fin n → Bool) (index : Fin n) (self : Edges n)
    (otherIndex : Fin n) : Edges n :=
  if depends index otherIndex ∧ index ≠ otherIndex then
    { successors := update self.successors index (self.successors index ++ [otherIndex])
      indegree := update self.indegree otherIndex (self.indegree otherIndex + 1) }
  else if depends index otherIndex then
    { self with indegree := update self.indegree index (self.indegree index + 1) }
  else self

def edges (depends : Fin n → Fin n → Bool) : Edges n :=
  (List.finRange n).foldl
    (fun edges index ↦ (List.finRange n).foldl (Edges.add depends index) edges)
    ⟨fun _ ↦ [], fun _ ↦ 0⟩

/-! ## Levels -/

structure Kahn (n : ℕ) where
  ready : Finset (Fin n)
  indegree : Fin n → ℕ
  level : Fin n → ℕ
  processed : ℕ

def Kahn.start (indegree : Fin n → ℕ) : Kahn n :=
  ⟨Finset.univ.filter (indegree · = 0), indegree, fun _ ↦ 0, 0⟩

def Kahn.relax (node : Fin n) (self : Kahn n) (next : Fin n) : Option (Kahn n) :=
  if self.indegree next = 0 then none
  else
    let indegree := update self.indegree next (self.indegree next - 1)
    some
      { self with
        ready := if indegree next = 0 then insert next self.ready else self.ready
        indegree
        level := update self.level next (max (self.level next) (self.level node + 1)) }

def Kahn.take (successors : Fin n → List (Fin n)) (self : Kahn n) (node : Fin n) :
    Option (Kahn n) :=
  (successors node).foldlM (Kahn.relax node)
    { self with ready := self.ready.erase node, processed := self.processed + 1 }

/-- The smallest index is taken first. No index is ready twice, which bounds the fuel. -/
def Kahn.run (successors : Fin n → List (Fin n)) : ℕ → Kahn n → Option (Kahn n)
  | 0, _ => none
  | fuel + 1, self =>
    if hready : self.ready.Nonempty then
      (self.take successors (self.ready.min' hready)).bind (Kahn.run successors fuel)
    else some self

/-! ## Waves -/

/-- Empty waves are added up to the depth of the index. -/
def pushWave (level : Fin n → ℕ) (waves : List (List (Fin n))) (index : Fin n) :
    List (List (Fin n)) :=
  (waves ++ List.replicate (level index + 1 - waves.length) []).modify (level index) (· ++ [index])

def findDuplicate : List String → List String → Option String
  | _, [] => none
  | seen, id :: ids => if id ∈ seen then some id else findDuplicate (id :: seen) ids

def ToolDependencyGraph.build (planned : List (PlannedTool J)) :
    Option (Except OrchestratorError (ToolDependencyGraph planned.length)) :=
  match findDuplicate [] (planned.map (·.intent.toolCallId)) with
  | some id =>
    some (.error (.invalidState ("duplicate tool call id in planned batch: " ++ id)))
  | none =>
    let edges := edges fun index other ↦ (planned.get index).depends (planned.get other)
    (Kahn.run edges.successors (planned.length + 1) (.start edges.indegree)).bind fun kahn ↦
      if kahn.processed ≠ planned.length then
        some (.error (.invalidState "cyclic tool dependency in planned batch"))
      else
        some (.ok ⟨(List.finRange planned.length).foldl (pushWave kahn.level) []⟩)

variable {depends : Fin n → Fin n → Bool}

/-! ## The edges of a batch -/

theorem Edges.successors_add (index : Fin n) (e : Edges n) (j k : Fin n) :
    (Edges.add depends index e j).successors k =
      e.successors k ++ if k = index ∧ depends index j ∧ index ≠ j then [j] else [] := by
  rw [Edges.add]
  by_cases hedge : depends index j ∧ index ≠ j
  · rw [if_pos hedge]
    by_cases hk : k = index
    · subst hk
      simp [hedge]
    · simp [hk]
  · have hnone : ¬ (k = index ∧ depends index j ∧ index ≠ j) := fun h ↦ hedge h.2
    rw [if_neg hedge, if_neg hnone, List.append_nil]
    split <;> rfl

theorem Edges.indegree_add (index : Fin n) (e : Edges n) (j k : Fin n) :
    (Edges.add depends index e j).indegree k =
      e.indegree k + if k = j ∧ depends index j then 1 else 0 := by
  rw [Edges.add]
  by_cases hdep : depends index j
  · by_cases hself : index = j
    · subst hself
      by_cases hk : k = index <;> simp [hdep, hk]
    · by_cases hk : k = j <;> simp [hdep, hself, hk]
  · simp [hdep]

theorem successors_foldl_add (index : Fin n) (e : Edges n) (l : List (Fin n)) (k : Fin n) :
    (l.foldl (Edges.add depends index) e).successors k =
      e.successors k ++ if k = index then l.filter (fun j ↦ depends index j ∧ index ≠ j)
        else [] := by
  induction l generalizing e with
  | nil => simp
  | cons j l ih =>
    rw [List.foldl_cons, ih, Edges.successors_add, List.append_assoc, List.filter_cons]
    by_cases hk : k = index
    · by_cases hedge : depends index j ∧ index ≠ j <;> simp [hk, hedge]
    · simp [hk]

theorem indegree_foldl_add (index : Fin n) (e : Edges n) (l : List (Fin n)) (k : Fin n) :
    (l.foldl (Edges.add depends index) e).indegree k =
      e.indegree k + if depends index k then l.count k else 0 := by
  induction l generalizing e with
  | nil => simp
  | cons j l ih =>
    rw [List.foldl_cons, ih, Edges.indegree_add, Nat.add_assoc, List.count_cons]
    by_cases hk : k = j
    · subst hk
      by_cases hdep : depends index k <;> simp [hdep, Nat.add_comm]
    · simp [hk, Ne.symm hk]

variable (depends) in
/-- The rounds of the outer loop for the indices of a list. -/
def rounds (l : List (Fin n)) : Edges n :=
  l.foldl (fun e index ↦ (List.finRange n).foldl (Edges.add depends index) e)
    ⟨fun _ ↦ [], fun _ ↦ 0⟩

theorem rounds_concat (l : List (Fin n)) (index : Fin n) :
    rounds depends (l ++ [index]) =
      (List.finRange n).foldl (Edges.add depends index) (rounds depends l) := by
  rw [rounds, List.foldl_concat]
  rfl

theorem successors_rounds {l : List (Fin n)} (hl : l.Nodup) (k : Fin n) :
    (rounds depends l).successors k =
      if k ∈ l then (List.finRange n).filter (fun j ↦ depends k j ∧ k ≠ j) else [] := by
  induction l using List.reverseRecOn with
  | nil => rfl
  | append_singleton l index ih =>
    obtain ⟨hl, hindex⟩ : l.Nodup ∧ index ∉ l := by
      rw [List.nodup_append] at hl
      exact ⟨hl.1, fun h ↦ hl.2.2 index h index (List.mem_singleton_self index) rfl⟩
    rw [rounds_concat, successors_foldl_add, ih hl]
    by_cases hk : k = index
    · subst hk
      simp [hindex]
    · simp [hk]

theorem indegree_rounds (l : List (Fin n)) (k : Fin n) :
    (rounds depends l).indegree k = l.countP (depends · k) := by
  induction l using List.reverseRecOn with
  | nil => rfl
  | append_singleton l index ih =>
    have hcount : (List.finRange n).count k = 1 :=
      List.count_eq_one_of_mem (List.nodup_finRange n) (List.mem_finRange k)
    rw [rounds_concat, indegree_foldl_add, ih, hcount, List.countP_append, List.countP_singleton]

theorem mem_successors {i j : Fin n} :
    j ∈ (edges depends).successors i ↔ depends i j ∧ i ≠ j := by
  rw [edges, ← rounds, successors_rounds (List.nodup_finRange n), if_pos (List.mem_finRange i)]
  simp

theorem nodup_successors (i : Fin n) : ((edges depends).successors i).Nodup := by
  rw [edges, ← rounds, successors_rounds (List.nodup_finRange n), if_pos (List.mem_finRange i)]
  exact (List.nodup_finRange n).filter _

theorem indegree_edges (j : Fin n) :
    (edges depends).indegree j = (Finset.univ.filter (depends · j)).card := by
  rw [edges, ← rounds, indegree_rounds, List.countP_eq_length_filter]
  rw [← List.toFinset_card_of_nodup ((List.nodup_finRange n).filter _)]
  congr 1
  ext i
  simp

/-! ## Levels -/

/-- What taking the node does to the nodes of the list. -/
structure Relaxed (node : Fin n) (l : List (Fin n)) (k k' : Kahn n) : Prop where
  indegree : ∀ i, k'.indegree i = k.indegree i - if i ∈ l then 1 else 0
  level : ∀ i, k'.level i = if i ∈ l then max (k.level i) (k.level node + 1) else k.level i
  ready : ∀ i, i ∈ k'.ready ↔ i ∈ k.ready ∨ i ∈ l ∧ k'.indegree i = 0
  processed : k'.processed = k.processed

theorem Kahn.relaxed_relax (node : Fin n) {next : Fin n} {k : Kahn n} (hpos : k.indegree next ≠ 0) :
    ∃ k', Kahn.relax node k next = some k' ∧ Relaxed node [next] k k' := by
  refine ⟨_, if_neg hpos, ?_, ?_, ?_, rfl⟩
  · intro i
    by_cases hi : i = next <;> simp [hi]
  · intro i
    by_cases hi : i = next <;> simp [hi]
  · intro i
    by_cases hi : i = next
    · subst hi
      by_cases hzero : k.indegree i - 1 = 0 <;> simp [hzero]
    · by_cases hzero : k.indegree next - 1 = 0 <;> simp [hi, hzero]

theorem Relaxed.cons {node next : Fin n} {l : List (Fin n)} {k₁ k₂ k₃ : Kahn n}
    (h : Relaxed node [next] k₁ k₂) (h' : Relaxed node l k₂ k₃) (hnext : next ∉ l)
    (hnode : node ≠ next) : Relaxed node (next :: l) k₁ k₃ := by
  have hlevel : k₂.level node = k₁.level node := by rw [h.level, if_neg (by simpa using hnode)]
  refine ⟨fun i ↦ ?_, fun i ↦ ?_, fun i ↦ ?_, h'.processed.trans h.processed⟩
  · rw [h'.indegree, h.indegree]
    by_cases hi : i = next
    · simp [hi, hnext]
    · simp [hi]
  · rw [h'.level, h.level, hlevel]
    by_cases hi : i = next
    · simp [hi, hnext]
    · simp [hi]
  · rw [h'.ready, h.ready]
    by_cases hi : i = next
    · have hsame : k₃.indegree next = k₂.indegree next := by
        rw [h'.indegree, if_neg hnext, Nat.sub_zero]
      simp [hi, hnext, hsame]
    · simp [hi]

theorem exists_relaxed {node : Fin n} {l : List (Fin n)} (hl : l.Nodup) (hnode : node ∉ l)
    {k : Kahn n} (hpos : ∀ i ∈ l, k.indegree i ≠ 0) :
    ∃ k', l.foldlM (Kahn.relax node) k = some k' ∧ Relaxed node l k k' := by
  induction l generalizing k with
  | nil => exact ⟨k, rfl, by simp, by simp, by simp, rfl⟩
  | cons next l ih =>
    obtain ⟨hnext, hl⟩ := List.nodup_cons.mp hl
    obtain ⟨hne, hnode⟩ : node ≠ next ∧ node ∉ l := by simpa using hnode
    obtain ⟨k₁, hk₁, h₁⟩ := Kahn.relaxed_relax node (hpos next List.mem_cons_self)
    have hpos₁ : ∀ i ∈ l, k₁.indegree i ≠ 0 := by
      intro i hi
      have hi' : i ≠ next := fun h ↦ hnext (h ▸ hi)
      rw [h₁.indegree, if_neg (by simpa using hi')]
      exact hpos i (List.mem_cons_of_mem _ hi)
    obtain ⟨k₂, hk₂, h₂⟩ := ih hl hnode hpos₁
    exact ⟨k₂, by rw [List.foldlM_cons, hk₁]; exact hk₂, h₁.cons h₂ hnext hne⟩

variable (depends) in
/-- The nodes `done` have been taken. -/
structure Kahn.Layered (done : Finset (Fin n)) (k : Kahn n) : Prop where
  closed : ∀ i ∈ done, ∀ j, depends j i → j ∈ done
  depth : ∀ i ∈ done, Depth (fun j i ↦ depends j i) i (k.level i)
  indegree : ∀ i, k.indegree i = (Finset.univ.filter fun j ↦ depends j i ∧ j ∉ done).card
  level : ∀ i, k.level i = (done.filter (depends · i)).sup (k.level · + 1)
  ready : ∀ i, i ∈ k.ready ↔ i ∉ done ∧ k.indegree i = 0
  processed : k.processed = done.card

theorem Kahn.layered_start (depends : Fin n → Fin n → Bool) :
    Kahn.Layered depends ∅ (.start (edges depends).indegree) where
  closed := by simp
  depth := by simp
  indegree i := by simp [Kahn.start, indegree_edges]
  level i := by simp [Kahn.start]
  ready i := by simp [Kahn.start]
  processed := rfl

namespace Kahn.Layered

variable {done : Finset (Fin n)} {k : Kahn n} {node : Fin n}

theorem indegree_eq_zero (h : Kahn.Layered depends done k) {i : Fin n} :
    k.indegree i = 0 ↔ ∀ j, depends j i → j ∈ done := by
  rw [h.indegree, Finset.card_eq_zero, Finset.filter_eq_empty_iff]
  simp

/-- A node whose producers are done has its level as its depth. -/
theorem depth_of_closed (h : Kahn.Layered depends done k)
    (hclosed : ∀ j, depends j node → j ∈ done) :
    Depth (fun j i ↦ depends j i) node (k.level node) := by
  rw [h.level]
  apply depth_of_preds
  · intro j hj
    refine ⟨k.level j, h.depth j (hclosed j hj), ?_⟩
    exact Finset.le_sup (f := (k.level · + 1)) (Finset.mem_filter.mpr ⟨hclosed j hj, hj⟩)
  · rcases (done.filter (depends · node)).eq_empty_or_nonempty with hnone | hsome
    · exact .inl (by rw [hnone, Finset.sup_empty]; rfl)
    · obtain ⟨j, hj, hmax⟩ := Finset.exists_mem_eq_sup _ hsome (k.level · + 1)
      obtain ⟨hdone, hedge⟩ := Finset.mem_filter.mp hj
      exact .inr ⟨j, k.level j, hedge, h.depth j hdone, hmax⟩

theorem card_pending_insert (hfresh : node ∉ done) (i : Fin n) :
    (Finset.univ.filter fun j ↦ depends j i ∧ j ∉ done).card - (if depends node i then 1 else 0) =
      (Finset.univ.filter fun j ↦ depends j i ∧ j ∉ insert node done).card := by
  by_cases hdep : depends node i
  · have hsplit : (Finset.univ.filter fun j ↦ depends j i ∧ j ∉ done) =
        insert node (Finset.univ.filter fun j ↦ depends j i ∧ j ∉ insert node done) := by
      ext j
      by_cases hj : j = node
      · simp [hj, hdep, hfresh]
      · simp [hj]
    rw [hsplit, Finset.card_insert_of_notMem (by simp), if_pos hdep, Nat.add_sub_cancel]
  · rw [if_neg hdep, Nat.sub_zero]
    congr 1
    ext j
    by_cases hj : j = node
    · simp [hj, hdep]
    · simp [hj]

theorem take (h : Kahn.Layered depends done k) (hnode : node ∈ k.ready) :
    ∃ k', k.take (edges depends).successors node = some k' ∧
      node ∉ done ∧ Kahn.Layered depends (insert node done) k' := by
  obtain ⟨hfresh, hzero⟩ := (h.ready node).mp hnode
  have hclosed := h.indegree_eq_zero.mp hzero
  have hself : ¬ depends node node := fun hdep ↦ hfresh (hclosed node hdep)
  have hpos : ∀ i ∈ (edges depends).successors node, k.indegree i ≠ 0 := by
    intro i hi hi0
    exact hfresh (h.indegree_eq_zero.mp hi0 node (mem_successors.mp hi).1)
  obtain ⟨k', hk', hrel⟩ := exists_relaxed (nodup_successors node)
    (fun hmem ↦ (mem_successors.mp hmem).2 rfl)
    (k := { k with ready := k.ready.erase node, processed := k.processed + 1 }) hpos
  have hsucc : ∀ i, i ∈ (edges depends).successors node ↔ depends node i := by
    intro i
    rw [mem_successors]
    exact ⟨And.left, fun hdep ↦ ⟨hdep, fun heq ↦ hself (heq ▸ hdep)⟩⟩
  have hout : ∀ i ∈ insert node done, ¬ depends node i := by
    intro i hi hdep
    rcases Finset.mem_insert.mp hi with rfl | hi
    · exact hself hdep
    · exact hfresh (h.closed i hi node hdep)
  have hlevel : ∀ i, k'.level i =
      if depends node i then max (k.level i) (k.level node + 1) else k.level i := by
    intro i
    rw [hrel.level]
    simp only [hsucc]
  have hsame : ∀ i ∈ insert node done, k'.level i = k.level i := by
    intro i hi
    rw [hlevel, if_neg (hout i hi)]
  have hindegree : ∀ i, k'.indegree i = k.indegree i - if depends node i then 1 else 0 := by
    intro i
    rw [hrel.indegree]
    simp only [hsucc]
  refine ⟨k', hk', hfresh, ?_, ?_, ?_, ?_, ?_, ?_⟩
  · intro i hi j hdep
    rcases Finset.mem_insert.mp hi with rfl | hi
    · exact Finset.mem_insert_of_mem (hclosed j hdep)
    · exact Finset.mem_insert_of_mem (h.closed i hi j hdep)
  · intro i hi
    rw [hsame i hi]
    rcases Finset.mem_insert.mp hi with rfl | hi
    · exact h.depth_of_closed hclosed
    · exact h.depth i hi
  · intro i
    rw [hindegree, h.indegree, card_pending_insert hfresh]
  · intro i
    rw [hlevel, h.level, Finset.filter_insert]
    have hcongr : ∀ s ⊆ insert node done,
        s.sup (k'.level · + 1) = s.sup (k.level · + 1) := fun s hs ↦
      Finset.sup_congr rfl fun j hj ↦ by rw [hsame j (hs hj)]
    by_cases hdep : depends node i
    · rw [if_pos hdep, if_pos hdep,
        hcongr _ (Finset.insert_subset_insert _ (Finset.filter_subset _ _)),
        Finset.sup_insert, max_comm]
    · rw [if_neg hdep, if_neg hdep,
        hcongr _ ((Finset.filter_subset _ _).trans (Finset.subset_insert _ _))]
  · intro i
    rw [hrel.ready, hsucc, Finset.mem_insert, Finset.mem_erase, h.ready, hindegree]
    by_cases hdep : depends node i
    · have hi : ¬ (i = node ∨ i ∈ done) := fun hi ↦ hout i (Finset.mem_insert.mpr hi) hdep
      have hi0 : k.indegree i ≠ 0 := hpos i ((hsucc i).mpr hdep)
      simp [hdep, hi, hi0]
    · rw [if_neg hdep]
      simp [hdep, not_or, and_assoc]
  · rw [hrel.processed, Finset.card_insert_of_notMem hfresh, h.processed]

theorem run (fuel : ℕ) (h : Kahn.Layered depends done k) (hfuel : n < done.card + fuel) :
    ∃ k' all, Kahn.run (edges depends).successors fuel k = some k' ∧
      Kahn.Layered depends all k' ∧ k'.ready = ∅ := by
  induction fuel generalizing done k with
  | zero =>
    have := done.card_le_univ
    rw [Fintype.card_fin] at this
    omega
  | succ fuel ih =>
    by_cases hready : k.ready.Nonempty
    · obtain ⟨k₁, hk₁, hfresh, h₁⟩ := h.take (k.ready.min'_mem hready)
      obtain ⟨k', all, hk', h'⟩ :=
        ih h₁ (by rw [Finset.card_insert_of_notMem hfresh]; omega)
      exact ⟨k', all, by rw [Kahn.run, dif_pos hready, hk₁]; exact hk', h'⟩
    · exact ⟨k, done, by rw [Kahn.run, dif_neg hready], h,
        Finset.not_nonempty_iff_eq_empty.mp hready⟩

/-- With nothing ready, what has not been taken waits for itself. -/
theorem processed_eq_iff (h : Kahn.Layered depends done k) (hready : k.ready = ∅) :
    k.processed = n ↔ ¬ ∃ i, TransGen (fun j i ↦ depends j i) i i := by
  have hall : k.processed = n ↔ done = Finset.univ := by
    rw [h.processed, ← Finset.card_eq_iff_eq_univ, Fintype.card_fin]
  rw [hall]
  constructor
  · rintro rfl ⟨i, hcycle⟩
    exact (h.depth i (Finset.mem_univ i)).not_cycle hcycle
  · intro hacyclic
    by_contra hsome
    obtain ⟨i, hi⟩ : ∃ i, i ∉ done := by simpa [Finset.eq_univ_iff_forall] using hsome
    refine hacyclic (exists_cycle (s := {i | i ∉ done}) ⟨i, hi⟩ fun j hj ↦ ?_)
    have hj0 : k.indegree j ≠ 0 := fun h0 ↦ by simpa [hready] using (h.ready j).mpr ⟨hj, h0⟩
    have := mt h.indegree_eq_zero.mpr hj0
    push Not at this
    obtain ⟨a, hdep, ha⟩ := this
    exact ⟨a, ha, hdep⟩

end Kahn.Layered

/-! ## Waves -/

variable {level : Fin n → ℕ}

theorem length_pushWave (waves : List (List (Fin n))) (index : Fin n) :
    (pushWave level waves index).length = max waves.length (level index + 1) := by
  rw [pushWave, List.length_modify, List.length_append, List.length_replicate]
  omega

theorem getElem?_pushWave (waves : List (List (Fin n))) (index : Fin n) (d : ℕ) :
    ((pushWave level waves index)[d]?).getD [] =
      (waves[d]?).getD [] ++ if level index = d then [index] else [] := by
  rw [pushWave, List.getElem?_modify, List.getElem?_append, List.getElem?_replicate]
  by_cases hd : d < waves.length
  · rw [if_pos hd, List.getElem?_eq_getElem hd]
    by_cases hlevel : level index = d <;> simp [hlevel]
  · rw [if_neg hd, List.getElem?_eq_none (Nat.le_of_not_lt hd)]
    by_cases hlevel : level index = d
    · have hnew : d - waves.length < level index + 1 - waves.length := by omega
      subst hlevel
      rw [if_pos hnew]
      simp
    · by_cases hpad : d - waves.length < level index + 1 - waves.length
      · simp [hlevel, hpad]
      · simp [hlevel, hpad]

theorem length_pushWaves (level : Fin n → ℕ) (l : List (Fin n)) (d : ℕ) :
    d < (l.foldl (pushWave level) []).length ↔ ∃ i ∈ l, d ≤ level i := by
  induction l using List.reverseRecOn with
  | nil => simp
  | append_singleton l index ih =>
    rw [List.foldl_concat, length_pushWave, lt_max_iff, ih, Nat.lt_succ_iff]
    simp [or_and_right, exists_or]

theorem getElem?_pushWaves (l : List (Fin n)) (d : ℕ) :
    ((l.foldl (pushWave level) [])[d]?).getD [] = l.filter (level · = d) := by
  induction l using List.reverseRecOn with
  | nil => simp
  | append_singleton l index ih =>
    rw [List.foldl_concat, getElem?_pushWave, ih, List.filter_append, List.filter_singleton]
    simp

theorem getElem_waves (d : ℕ) (hd : d < ((List.finRange n).foldl (pushWave level) []).length) :
    ((List.finRange n).foldl (pushWave level) [])[d] = (List.finRange n).filter (level · = d) := by
  rw [← getElem?_pushWaves, List.getElem?_eq_getElem hd, Option.getD_some]

/-- The waves are an exact layering of the relation: each index once, in the wave of its depth. -/
structure ExactLayering (R : Fin n → Fin n → Prop) (waves : List (List (Fin n))) : Prop where
  perm : waves.flatten.Perm (List.finRange n)
  ascending : ∀ wave ∈ waves, wave ≠ [] ∧ wave.Pairwise (· < ·)
  earlier : ∀ d e (hd : d < waves.length) (he : e < waves.length), ∀ i ∈ waves[d], ∀ j ∈ waves[e],
    R i j → d < e
  depth : ∀ d (hd : d < waves.length), ∀ i ∈ waves[d], Depth R i d

theorem exists_of_level {R : Fin n → Fin n → Prop} (hdepth : ∀ i, Depth R i (level i)) {i : Fin n}
    {d : ℕ} (hd : d ≤ level i) : ∃ j, level j = d := by
  induction hk : level i - d generalizing i with
  | zero => exact ⟨i, by omega⟩
  | succ k ih =>
    have hi : Depth R i (level i - 1 + 1) := by
      rw [show level i - 1 + 1 = level i by omega]
      exact hdepth i
    obtain ⟨j, -, hj⟩ := hi.exists_pred fun a _ ↦ ⟨level a, hdepth a⟩
    have hlevel : level j = level i - 1 := (hdepth j).unique hj
    exact ih (i := j) (by omega) (by omega)

theorem exactLayering_of_depth {R : Fin n → Fin n → Prop} (hdepth : ∀ i, Depth R i (level i)) :
    ExactLayering R ((List.finRange n).foldl (pushWave level) []) := by
  have hmem : ∀ d (hd : d < ((List.finRange n).foldl (pushWave level) []).length),
      ∀ i ∈ ((List.finRange n).foldl (pushWave level) [])[d], level i = d := by
    intro d hd i hi
    rw [getElem_waves] at hi
    simpa using hi
  refine ⟨?_, ?_, ?_, ?_⟩
  · refine (List.perm_ext_iff_of_nodup ?_ (List.nodup_finRange n)).mpr fun i ↦ ?_
    · refine List.nodup_flatten.mpr ⟨fun wave hwave ↦ ?_, ?_⟩
      · obtain ⟨d, hd, rfl⟩ := List.mem_iff_getElem.mp hwave
        rw [getElem_waves]
        exact (List.nodup_finRange n).filter _
      · refine List.pairwise_iff_getElem.mpr fun d e hd he hde i hi hj ↦ ?_
        exact hde.ne ((hmem d hd i hi).symm.trans (hmem e he i hj))
    · have hlength := (length_pushWaves level (List.finRange n) (level i)).mpr
        ⟨i, List.mem_finRange i, le_rfl⟩
      refine iff_of_true (List.mem_flatten.mpr ⟨_, List.getElem_mem hlength, ?_⟩)
        (List.mem_finRange i)
      rw [getElem_waves]
      simp
  · intro wave hwave
    obtain ⟨d, hd, rfl⟩ := List.mem_iff_getElem.mp hwave
    obtain ⟨i, -, hi⟩ := (length_pushWaves _ _ d).mp hd
    obtain ⟨j, hj⟩ := exists_of_level hdepth hi
    rw [getElem_waves]
    refine ⟨List.ne_nil_of_mem (a := j) (by simpa using hj), ?_⟩
    exact (List.pairwise_lt_finRange n).filter _
  · intro d e hd he i hi j hj hedge
    rw [← hmem d hd i hi, ← hmem e he j hj]
    exact (hdepth i).lt_of_edge (hdepth j) hedge
  · intro d hd i hi
    rw [← hmem d hd i hi]
    exact hdepth i

/-! ## Building -/

theorem findDuplicate_eq_none {seen ids : List String} :
    findDuplicate seen ids = none ↔ ids.Nodup ∧ ∀ id ∈ ids, id ∉ seen := by
  induction ids generalizing seen with
  | nil => simp [findDuplicate]
  | cons id ids ih =>
    rw [findDuplicate]
    by_cases hid : id ∈ seen
    · simp [hid]
    · rw [if_neg hid, ih]
      grind

/-- The tool at the first index produces a class that the one at the second index requires. -/
def Produces (planned : List (PlannedTool J)) (i j : Fin planned.length) : Prop :=
  ∃ cls ∈ (planned.get i).definition.dependency.produces,
    cls ∈ (planned.get j).definition.dependency.requires

theorem depends_iff (planned : List (PlannedTool J)) (i j : Fin planned.length) :
    (planned.get i).depends (planned.get j) ↔ Produces planned i j := by
  simp [PlannedTool.depends, Produces]

/-- What is refused: an id that two intents share, or tools that wait for one another. -/
def Unplannable (planned : List (PlannedTool J)) : Prop :=
  ¬ (planned.map (·.intent.toolCallId)).Nodup ∨ ∃ i, TransGen (Produces planned) i i

theorem build_spec (planned : List (PlannedTool J)) :
    (Unplannable planned ∧ ∃ reason,
      ToolDependencyGraph.build planned = some (.error (.invalidState reason))) ∨
    (¬ Unplannable planned ∧ ∃ graph, ToolDependencyGraph.build planned = some (.ok graph) ∧
      ExactLayering (Produces planned) graph.waves) := by
  have hR : (fun i j ↦ ((planned.get i).depends (planned.get j) : Prop)) = Produces planned := by
    funext i j
    exact propext (depends_iff planned i j)
  rw [ToolDependencyGraph.build, Unplannable]
  cases hdup : findDuplicate [] (planned.map (·.intent.toolCallId)) with
  | some id =>
    refine .inl ⟨.inl fun hnodup ↦ ?_, _, rfl⟩
    rw [findDuplicate_eq_none.mpr ⟨hnodup, by simp⟩] at hdup
    cases hdup
  | none =>
    obtain ⟨hnodup, -⟩ := findDuplicate_eq_none.mp hdup
    obtain ⟨k, done, hk, hlayered, hready⟩ := (Kahn.layered_start fun i j ↦
      (planned.get i).depends (planned.get j)).run (planned.length + 1) (by simp)
    have hiff := hlayered.processed_eq_iff hready
    rw [hR] at hiff
    simp only [hk, Option.bind_some]
    by_cases hall : k.processed = planned.length
    · rw [if_neg (not_not_intro hall)]
      refine .inr ⟨?_, _, rfl, exactLayering_of_depth fun i ↦ ?_⟩
      · rintro (hids | hcycle)
        · exact hids hnodup
        · exact hiff.mp hall hcycle
      · have hdone : done = Finset.univ := by
          rw [← Finset.card_eq_iff_eq_univ, Fintype.card_fin, ← hlayered.processed, hall]
        rw [← hR]
        exact hlayered.depth i (hdone ▸ Finset.mem_univ i)
    · rw [if_pos hall]
      exact .inl ⟨.inr (not_not.mp (mt hiff.mpr hall)), _, rfl⟩

end EeEditor.Orchestrator
