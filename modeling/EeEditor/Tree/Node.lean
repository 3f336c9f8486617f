import Mathlib.Algebra.BigOperators.Group.List.Basic
import Mathlib.Algebra.GroupWithZero.Nat
import Mathlib.Data.Nat.Basic
import Mathlib.Order.Bounds.Basic
import Mathlib.Tactic.Common

/-!
# Trees of leaves

The model of `xi-rope/src/tree/mod.rs` and of the metrics in `tree/node.rs`. A node of height zero
is a leaf and a node of height `h + 1` is the list of its children, all of height `h`. The length
and the info that the source stores in a node are those accumulated from its children, so that they
are functions of the node here.
-/

namespace EeEditor.BTree

/-- The leaves of a tree: pieces of the content, with a length in base units. Two pieces can be put
together, which is how the content of a tree is told as one piece. -/
class Leaf (L : Type) where
  len : L → ℕ
  empty : L
  append : L → L → L
  len_empty : len empty = 0
  len_append : ∀ a b, len (append a b) = len a + len b

/-- The content of some leaves as one. -/
def concat {L : Type} [Leaf L] (ls : List L) : L := ls.foldr Leaf.append Leaf.empty

/-- A metric on the leaves. The conversions panic where they are `none`. -/
structure Metric (L : Type) where
  measure : L → ℕ
  toBaseUnits : L → ℕ → Option ℕ
  fromBaseUnits : L → ℕ → Option ℕ
  isBoundary : L → ℕ → Bool
  prev : L → ℕ → Option ℕ
  next : L → ℕ → Option ℕ
  canFragment : Bool

def maxChildren : ℕ := 8

/-- The greatest number of a `usize`. -/
def usizeMax : ℕ := 2 ^ 64 - 1

/-- A node of the given height. -/
def Node (L : Type) : ℕ → Type
  | 0 => L
  | h + 1 => List (Node L h)

variable {L : Type}

namespace Node

/-- `get_children`. -/
def children {h : ℕ} (n : Node L (h + 1)) : List (Node L h) := n

def leaves : (h : ℕ) → Node L h → List L
  | 0, l => [l]
  | h + 1, n => n.children.flatMap (leaves h)

/-- What the nodes of a list hold. -/
def leavesOf {h : ℕ} (ns : List (Node L h)) : List L := ns.flatMap (leaves h)

/-- A number accumulated from the leaves. -/
def total (f : L → ℕ) : (h : ℕ) → Node L h → ℕ
  | 0, l => f l
  | h + 1, n => (n.children.map (total f h)).sum

def len [Leaf L] {h : ℕ} (n : Node L h) : ℕ := total Leaf.len h n

def measure (M : Metric L) {h : ℕ} (n : Node L h) : ℕ := total M.measure h n

/-- What `assert_integrity` checks of a node below the root. -/
def Inner [Leaf L] : (h : ℕ) → Node L h → Prop
  | 0, (l : L) => 0 < Leaf.len l
  | h + 1, n =>
    2 ≤ n.children.length ∧ n.children.length ≤ maxChildren ∧ ∀ c ∈ n.children, Inner h c

end Node

/-- A tree that passes `assert_integrity`: only the root may be an empty leaf. -/
structure Tree (L : Type) [Leaf L] where
  height : ℕ
  root : Node L height
  integrity : height = 0 ∨ root.Inner height

namespace Tree

variable [Leaf L]

def leaves (t : Tree L) : List L := t.root.leaves t.height

def len (t : Tree L) : ℕ := t.root.len

/-- The whole content. -/
def flat (t : Tree L) : L := concat t.leaves

end Tree

/-! ## Lengths and measures -/

/-- The length of some leaves. -/
def lenOf [Leaf L] (ls : List L) : ℕ := (ls.map Leaf.len).sum

section

variable [Leaf L] {ls ls' : List L} {l : L}

@[simp] theorem lenOf_nil : lenOf ([] : List L) = 0 := rfl

@[simp] theorem lenOf_cons (l : L) (ls : List L) : lenOf (l :: ls) = Leaf.len l + lenOf ls := by
  rw [lenOf, List.map_cons, List.sum_cons, lenOf]

@[simp] theorem lenOf_append (ls ls' : List L) : lenOf (ls ++ ls') = lenOf ls + lenOf ls' := by
  rw [lenOf, List.map_append, List.sum_append, lenOf, lenOf]

@[simp] theorem concat_cons (l : L) (ls : List L) :
    concat (l :: ls) = Leaf.append l (concat ls) := rfl

theorem len_concat (ls : List L) : Leaf.len (concat ls) = lenOf ls := by
  induction ls with
  | nil => exact Leaf.len_empty
  | cons l ls ih => rw [concat_cons, Leaf.len_append, ih, lenOf_cons]

end

namespace Node

variable {h : ℕ} {f : L → ℕ}

@[simp] theorem leavesOf_nil : leavesOf ([] : List (Node L h)) = [] := rfl

@[simp] theorem leavesOf_cons (n : Node L h) (ns : List (Node L h)) :
    leavesOf (n :: ns) = leaves h n ++ leavesOf ns := List.flatMap_cons

@[simp] theorem leavesOf_append (ns ns' : List (Node L h)) :
    leavesOf (ns ++ ns') = leavesOf ns ++ leavesOf ns' := List.flatMap_append

theorem leaves_succ (n : Node L (h + 1)) : leaves (h + 1) n = leavesOf n.children := rfl

theorem total_eq (f : L → ℕ) : (h : ℕ) → (n : Node L h) → total f h n = ((leaves h n).map f).sum
  | 0, l => (Nat.add_zero (f l)).symm
  | h + 1, n => by
    rw [leaves_succ, total]
    induction n.children with
    | nil => rfl
    | cons n ns ih =>
      rw [List.map_cons, List.sum_cons, ih, total_eq f h n, leavesOf_cons, List.map_append,
        List.sum_append]

theorem len_eq [Leaf L] (n : Node L h) : n.len = lenOf (leaves h n) := total_eq _ h n

/-- The leaves below the root are not empty. -/
theorem Inner.pos [Leaf L] : {h : ℕ} → {n : Node L h} → n.Inner h → ∀ l ∈ leaves h n, 0 < Leaf.len l
  | 0, _, hn, l, hl => by
    obtain rfl := List.mem_singleton.mp hl
    exact hn
  | h + 1, n, hn, l, hl => by
    obtain ⟨c, hc, hlc⟩ := List.mem_flatMap.mp hl
    exact (hn.2.2 c hc).pos l hlc

theorem Inner.leaves_ne_nil [Leaf L] : {h : ℕ} → {n : Node L h} → n.Inner h → leaves h n ≠ []
  | 0, _, _ => List.cons_ne_nil _ _
  | h + 1, n, hn => by
    rw [leaves_succ]
    obtain ⟨hlen, -, hchildren⟩ := hn
    cases hcs : n.children with
    | nil =>
      rw [hcs] at hlen
      exact absurd hlen (Nat.not_succ_le_zero 1)
    | cons c cs =>
      have hc := hchildren c (hcs ▸ List.mem_cons_self)
      rw [leavesOf_cons]
      exact List.append_ne_nil_of_left_ne_nil hc.leaves_ne_nil _

end Node

/-! ## Full trees -/

/-- A tree of any height in which every node has four children, with one leaf throughout. -/
def Node.tower (l : L) : (h : ℕ) → Node L h
  | 0 => l
  | h + 1 => List.replicate 4 (tower l h)

theorem Node.inner_tower [Leaf L] {l : L} (hl : 0 < Leaf.len l) : (h : ℕ) → (tower l h).Inner h
  | 0 => hl
  | h + 1 => by
    have hlen : (tower l (h + 1)).children.length = 4 := List.length_replicate
    refine ⟨by omega, by rw [hlen]; decide, fun c hc ↦ ?_⟩
    obtain ⟨-, rfl⟩ := List.mem_replicate.mp hc
    exact inner_tower hl h

theorem Node.leaves_tower (l : L) : (h : ℕ) → leaves h (tower l h) = List.replicate (4 ^ h) l
  | 0 => rfl
  | h + 1 => by
    change (List.replicate 4 (tower l h)).flatMap (leaves h) = _
    rw [List.flatMap_replicate, leaves_tower l h, List.flatten_replicate_replicate, Nat.pow_succ,
      Nat.mul_comm]

theorem Node.len_tower [Leaf L] (l : L) (h : ℕ) : (tower l h).len = 4 ^ h * Leaf.len l := by
  rw [len_eq, leaves_tower, lenOf, List.map_replicate, List.sum_replicate_nat]

def Tree.tower [Leaf L] (l : L) (hl : 0 < Leaf.len l) (h : ℕ) : Tree L :=
  ⟨h, Node.tower l h, .inr (Node.inner_tower hl h)⟩

/-- A tree of some leaves below the root. -/
def Tree.ofLeaves [Leaf L] (ls : List L) (hle : 2 ≤ ls.length ∧ ls.length ≤ maxChildren)
    (hpos : ∀ l ∈ ls, 0 < Leaf.len l) : Tree L :=
  ⟨1, ls, .inr ⟨hle.1, hle.2, hpos⟩⟩

theorem Tree.leaves_ofLeaves [Leaf L] (ls : List L)
    (hle : 2 ≤ ls.length ∧ ls.length ≤ maxChildren) (hpos : ∀ l ∈ ls, 0 < Leaf.len l) :
    (Tree.ofLeaves ls hle hpos).leaves = ls :=
  List.flatMap_singleton' ls

/-! ## Nearest boundaries -/

/-- `r` is the least element of the set after `p`, if there is one. -/
def IsNext (B : Set ℕ) (p : ℕ) : Option ℕ → Prop
  | none => ∀ q ∈ B, q ≤ p
  | some q => IsLeast {q ∈ B | p < q} q

/-- `r` is the greatest element of the set before `p`, if there is one. -/
def IsPrev (B : Set ℕ) (p : ℕ) : Option ℕ → Prop
  | none => ∀ q ∈ B, p ≤ q
  | some q => IsGreatest {q ∈ B | q < p} q

variable {B : Set ℕ} {p p' : ℕ} {r : Option ℕ}

/-- Nothing is passed over from one position to a later one. -/
theorem IsNext.of_gap (hr : IsNext B p' r) (hle : p ≤ p') (hgap : ∀ q ∈ B, p < q → p' < q) :
    IsNext B p r := by
  cases r with
  | none =>
    intro q hq
    by_contra hlt
    have := hr q hq
    have := hgap q hq (by omega)
    omega
  | some x => exact ⟨⟨hr.1.1, hle.trans_lt hr.1.2⟩, fun q hq ↦ hr.2 ⟨hq.1, hgap q hq.1 hq.2⟩⟩

theorem IsPrev.of_gap (hr : IsPrev B p' r) (hle : p' ≤ p) (hgap : ∀ q ∈ B, q < p → q < p') :
    IsPrev B p r := by
  cases r with
  | none =>
    intro q hq
    by_contra hlt
    have := hr q hq
    have := hgap q hq (by omega)
    omega
  | some x => exact ⟨⟨hr.1.1, hr.1.2.trans_le hle⟩, fun q hq ↦ hr.2 ⟨hq.1, hgap q hq.1 hq.2⟩⟩

end EeEditor.BTree
