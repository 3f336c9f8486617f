import EeEditor.Tree.Path
import Mathlib.Tactic.Common

/-!
# Converting between metrics

The model of `convert_metrics` in `xi-rope/src/tree/node.rs`. The loop goes down from the root, and
starts again at the same node with what is left of the measure when no child of it holds that, so it
is given a number of rounds. The measure that is converted picks one leaf, unless it is all there is
of a metric that does not fragment.
-/

namespace EeEditor.BTree

/-! ## Loops -/

/-- How a call ends: `running` is for one that has not ended yet. -/
inductive Outcome (α : Type)
  | done (a : α)
  | panicked
  | running

namespace Outcome

variable {α β : Type}

@[grind =] def ofOption : Option α → Outcome α
  | some a => done a
  | none => panicked

def bind : Outcome α → (α → Outcome β) → Outcome β
  | done a, f => f a
  | panicked, _ => panicked
  | running, _ => running

@[simp] theorem done_bind (a : α) (f : α → Outcome β) : (done a).bind f = f a := rfl

@[simp] theorem panicked_bind (f : α → Outcome β) : (panicked : Outcome α).bind f = panicked := rfl

@[simp] theorem running_bind (f : α → Outcome β) : (running : Outcome α).bind f = running := rfl

end Outcome

/-- A call that is given enough rounds ends so; it runs forever if it is `running` however many it
is given. -/
def Settles {α : Type} (f : ℕ → Outcome α) (r : Outcome α) : Prop := ∃ n, ∀ k, f (n + k) = r

namespace Settles

variable {α β : Type} {f g : ℕ → Outcome α} {r r' : Outcome α}

theorem const (r : Outcome α) : Settles (fun _ ↦ r) r := ⟨0, fun _ ↦ rfl⟩

/-- A call ends in one way. -/
theorem unique (h : Settles f r) (h' : Settles f r') : r = r' := by
  obtain ⟨n, hn⟩ := h
  obtain ⟨n', hn'⟩ := h'
  rw [← hn n', ← hn' n, Nat.add_comm]

/-- A round that leads to a call with the rounds that are left. -/
theorem succ (h : Settles g r) (hf : ∀ fuel, f (fuel + 1) = g fuel) : Settles f r := by
  obtain ⟨n, hn⟩ := h
  refine ⟨n + 1, fun k ↦ ?_⟩
  rw [Nat.succ_add, hf, hn]

theorem bind {k : α → ℕ → Outcome β} {s : Outcome β} {a : α} (h : Settles f (.done a))
    (hk : Settles (k a) s) : Settles (fun fuel ↦ (f fuel).bind fun a ↦ k a fuel) s := by
  obtain ⟨n, hn⟩ := h
  obtain ⟨m, hm⟩ := hk
  refine ⟨n + m, fun j ↦ ?_⟩
  dsimp only
  rw [Nat.add_assoc, hn, Outcome.done_bind, ← Nat.add_assoc, Nat.add_comm n m, Nat.add_assoc, hm]

/-- A result is handed on. -/
theorem map {a : α} (h : Settles f (.done a)) (g : α → β) :
    Settles (fun fuel ↦ (f fuel).bind fun a ↦ .done (g a)) (.done (g a)) :=
  h.bind (.const (.done (g a)))

theorem bind_panicked (h : Settles f .panicked) (k : α → Outcome β) :
    Settles (fun fuel ↦ (f fuel).bind k) .panicked := by
  obtain ⟨n, hn⟩ := h
  refine ⟨n, fun j ↦ ?_⟩
  dsimp only
  rw [hn, Outcome.panicked_bind]

theorem bind_running (h : Settles f .running) (k : α → Outcome β) :
    Settles (fun fuel ↦ (f fuel).bind k) .running := by
  obtain ⟨n, hn⟩ := h
  refine ⟨n, fun j ↦ ?_⟩
  dsimp only
  rw [hn, Outcome.running_bind]

end Settles

/-! ## The conversion -/

variable {L : Type} {M1 M2 : Metric L} {h : ℕ}

/-- The loop over the children of a node: the child that holds the measure, with what is left of it
and what is before that child. -/
def convertScan (M1 M2 : Metric L) : List (Node L h) → ℕ → ℕ → Option (Node L h) × ℕ × ℕ
  | [], m1, m2 => (none, m1, m2)
  | child :: children, m1, m2 =>
    let m1Fudge := if M1.canFragment then 1 else 0
    if m1 < child.measure M1 + m1Fudge then (some child, m1, m2)
    else convertScan M1 M2 children (m1 - child.measure M1) (m2 + child.measure M2)

/-- The rest of the measure, converted within a leaf. -/
@[grind =] def convertLeaf (M1 M2 : Metric L) (l : L) (m1 m2 : ℕ) : Outcome ℕ :=
  (Outcome.ofOption (M1.toBaseUnits l m1)).bind fun base ↦
    (Outcome.ofOption (M2.fromBaseUnits l base)).bind fun m ↦ .done (m2 + m)

/-- The loop down to a leaf. -/
def convertFrom (M1 M2 : Metric L) : ℕ → (h : ℕ) → Node L h → ℕ → ℕ → Outcome ℕ
  | 0, _, _, _, _ => .running
  | _ + 1, 0, l, m1, m2 => convertLeaf M1 M2 l m1 m2
  | fuel + 1, h + 1, n, m1, m2 =>
    match convertScan M1 M2 n.children m1 m2 with
    | (some child, m1, m2) => convertFrom M1 M2 fuel h child m1 m2
    | (none, m1, m2) => convertFrom M1 M2 fuel (h + 1) n m1 m2

def convertMetrics (M1 M2 : Metric L) (root : Node L h) (m1 fuel : ℕ) : Outcome ℕ :=
  if m1 = 0 then .done 0 else convertFrom M1 M2 fuel h root m1 0

/-- `m1_fudge`. -/
def fudge (M : Metric L) : ℕ := if M.canFragment then 1 else 0

/-- The measure of some nodes. -/
def measureNodes (M : Metric L) (ns : List (Node L h)) : ℕ := (ns.map (Node.measure M)).sum

@[simp] theorem measureNodes_nil : measureNodes M1 ([] : List (Node L h)) = 0 := rfl

@[simp] theorem measureNodes_cons (n : Node L h) (ns : List (Node L h)) :
    measureNodes M1 (n :: ns) = n.measure M1 + measureNodes M1 ns := by
  rw [measureNodes, List.map_cons, List.sum_cons, measureNodes]

theorem measureNodes_eq (ns : List (Node L h)) :
    measureNodes M1 ns = measureOf M1 (Node.leavesOf ns) := by
  induction ns with
  | nil => rfl
  | cons n ns ih =>
    rw [measureNodes_cons, ih, Node.leavesOf_cons, measureOf_append, Node.measure_eq]

/-- The child that holds the measure. -/
theorem convertScan_some (M2 : Metric L) (ns : List (Node L h)) (m1 m2 : ℕ) (hlow : fudge M1 ≤ m1)
    (hhigh : m1 < measureNodes M1 ns + fudge M1) :
    ∃ before n after, ns = before ++ n :: after ∧ measureNodes M1 before + fudge M1 ≤ m1 ∧
      m1 < measureNodes M1 before + n.measure M1 + fudge M1 ∧
      convertScan M1 M2 ns m1 m2
        = (some n, m1 - measureNodes M1 before, m2 + measureNodes M2 before) := by
  induction ns generalizing m1 m2 with
  | nil =>
    rw [measureNodes_nil] at hhigh
    omega
  | cons n ns ih =>
    rw [convertScan]
    by_cases hlt : m1 < n.measure M1 + fudge M1
    · exact ⟨[], n, ns, rfl, by simpa using hlow, by simpa using hlt, if_pos hlt⟩
    · rw [measureNodes_cons] at hhigh
      obtain ⟨before, n', after, rfl, hle, hlt', hscan⟩ :=
        ih (m1 - n.measure M1) (m2 + n.measure M2) (by omega) (by omega)
      refine ⟨n :: before, n', after, rfl, ?_, ?_, ?_⟩
      · rw [measureNodes_cons]
        omega
      · rw [measureNodes_cons]
        omega
      · rw [measureNodes_cons, measureNodes_cons, ← Nat.sub_sub, ← Nat.add_assoc]
        exact (if_neg hlt).trans hscan

/-- Without such a child the loop is done with all of them. -/
theorem convertScan_none (M2 : Metric L) (ns : List (Node L h)) (m1 m2 : ℕ)
    (hle : measureNodes M1 ns + fudge M1 ≤ m1) :
    convertScan M1 M2 ns m1 m2 = (none, m1 - measureNodes M1 ns, m2 + measureNodes M2 ns) := by
  induction ns generalizing m1 m2 with
  | nil => rfl
  | cons n ns ih =>
    rw [measureNodes_cons] at hle
    rw [convertScan, measureNodes_cons, measureNodes_cons, ← Nat.sub_sub, ← Nat.add_assoc]
    exact (if_neg (show ¬ m1 < n.measure M1 + fudge M1 by omega)).trans (ih _ _ (by omega))

/-- A measure that the tree has, and that is not all of it for a metric that does not fragment, is
converted in the leaf that holds it. -/
theorem convertFrom_eq (M2 : Metric L) : (h : ℕ) → (n : Node L h) → (m1 m2 : ℕ) → fudge M1 ≤ m1 →
    m1 < n.measure M1 + fudge M1 →
      ∃ pre l post, Node.leaves h n = pre ++ l :: post ∧ measureOf M1 pre + fudge M1 ≤ m1 ∧
        m1 < measureOf M1 pre + M1.measure l + fudge M1 ∧
        ∀ k, convertFrom M1 M2 (h + 1 + k) h n m1 m2
          = convertLeaf M1 M2 l (m1 - measureOf M1 pre) (m2 + measureOf M2 pre)
  | 0, l, m1, m2, hlow, hhigh => by
    refine ⟨[], l, [], rfl, by simpa using hlow,
      by simpa [Node.measure, Node.total] using hhigh, ?_⟩
    intro k
    rw [Nat.add_right_comm, convertFrom, measureOf_nil, measureOf_nil, Nat.sub_zero, Nat.add_zero]
  | h + 1, n, m1, m2, hlow, hhigh => by
    have hmeasure : n.measure M1 = measureNodes M1 n.children := rfl
    rw [hmeasure] at hhigh
    obtain ⟨before, c, after, hchildren, hle, hlt, hscan⟩ :=
      convertScan_some M2 n.children m1 m2 hlow hhigh
    obtain ⟨pre, l, post, hleaves, hle', hlt', hconvert⟩ := convertFrom_eq M2 h c
      (m1 - measureNodes M1 before) (m2 + measureNodes M2 before) (by omega) (by omega)
    refine ⟨Node.leavesOf before ++ pre, l, post ++ Node.leavesOf after, ?_, ?_, ?_, fun k ↦ ?_⟩
    · rw [Node.leaves_succ, hchildren, Node.leavesOf_append, Node.leavesOf_cons, hleaves]
      simp
    · rw [measureOf_append, ← measureNodes_eq]
      omega
    · rw [measureOf_append, ← measureNodes_eq]
      omega
    · rw [Nat.add_right_comm, convertFrom, hscan]
      dsimp only
      rw [hconvert, measureOf_append, measureOf_append, ← measureNodes_eq, ← measureNodes_eq,
        Nat.sub_sub, Nat.add_assoc]

/-! ## How a conversion ends -/

variable {root : Node L h} {m1 : ℕ} {r : Outcome ℕ}

/-- A measure that one leaf holds. -/
theorem convertMetrics_leaf (M2 : Metric L) (hpos : 0 < m1)
    (hhigh : m1 < root.measure M1 + fudge M1) :
    ∃ pre l post, root.leaves h = pre ++ l :: post ∧ measureOf M1 pre + fudge M1 ≤ m1 ∧
      m1 < measureOf M1 pre + M1.measure l + fudge M1 ∧
      Settles (convertMetrics M1 M2 root m1)
        (convertLeaf M1 M2 l (m1 - measureOf M1 pre) (measureOf M2 pre)) := by
  have hlow : fudge M1 ≤ m1 := by
    rw [fudge]
    split <;> omega
  obtain ⟨pre, l, post, hleaves, hle, hlt, hconvert⟩ := convertFrom_eq M2 h root m1 0 hlow hhigh
  refine ⟨pre, l, post, hleaves, hle, hlt, h + 1, fun k ↦ ?_⟩
  rw [convertMetrics, if_neg hpos.ne', hconvert, Nat.zero_add]

/-- With no child for the measure the loop starts again at the node, with the rest. -/
theorem convertFrom_again (M2 : Metric L) {n : Node L (h + 1)} (m2 fuel : ℕ)
    (hle : n.measure M1 + fudge M1 ≤ m1) :
    convertFrom M1 M2 (fuel + 1) (h + 1) n m1 m2
      = convertFrom M1 M2 fuel (h + 1) n (m1 - n.measure M1) (m2 + n.measure M2) := by
  have hscan := convertScan_none M2 n.children m1 m2 hle
  rw [convertFrom, hscan]
  rfl

/-- A measure that is more than all there is of a metric that fragments: nothing is ever left over,
so that the loop goes on forever when there is none of it. -/
theorem convertFrom_forever (M2 : Metric L) {n : Node L (h + 1)} (hfragment : M1.canFragment = true)
    (hzero : n.measure M1 = 0) (hpos : 0 < m1) (m2 fuel : ℕ) :
    convertFrom M1 M2 fuel (h + 1) n m1 m2 = .running := by
  induction fuel generalizing m2 with
  | zero => rfl
  | succ fuel ih =>
    rw [convertFrom_again M2 m2 fuel (by
      rw [hzero, fudge, if_pos hfragment]
      omega), hzero]
    exact ih _

end EeEditor.BTree
