import Mathlib.Data.List.Induction
import EeEditor.Tree.Cursor

/-!
# Paths

A path from the root of a tree to a leaf is told by its frames: at each level, the siblings before
and after the node that the path goes through. The cached levels of a cursor are those of a path
(`Cursor.OnPath`), and every way down the tree keeps to this (`descendBy_path`). What a cursor can
tell of the path is which leaves lie before it and after it (`Cursor.At`).
-/

namespace EeEditor.BTree

variable {L : Type}

/-- The siblings before and after the node of a path, for each level. -/
abbrev Frames (L : Type) := (k : ℕ) → List (Node L k) × List (Node L k)

namespace Frames

variable {f g : Frames L} {l : L} {h k i : ℕ}

/-- The node of a level, over the leaf that the path leads to. -/
def node (f : Frames L) (l : L) : (k : ℕ) → Node L k
  | 0 => l
  | k + 1 => ((f k).1 ++ node f l k :: (f k).2 : List (Node L k))

/-- The leaves of the node of a level before the path. -/
def before (f : Frames L) : ℕ → List L
  | 0 => []
  | k + 1 => Node.leavesOf (f k).1 ++ before f k

/-- The leaves of the node of a level after the path. -/
def after (f : Frames L) : ℕ → List L
  | 0 => []
  | k + 1 => after f k ++ Node.leavesOf (f k).2

theorem children_node (f : Frames L) (l : L) (k : ℕ) :
    (f.node l (k + 1)).children = (f k).1 ++ f.node l k :: (f k).2 := rfl

theorem leaves_node (f : Frames L) (l : L) (k : ℕ) :
    Node.leaves k (f.node l k) = f.before k ++ l :: f.after k := by
  induction k with
  | zero => rfl
  | succ k ih =>
    rw [Node.leaves_succ, children_node, Node.leavesOf_append, Node.leavesOf_cons, ih, before,
      after]
    simp only [List.append_assoc, List.cons_append]

/-- What a path is like up to a level depends on the frames below it. -/
theorem congr_below (hfg : ∀ j < k, f j = g j) :
    f.node l k = g.node l k ∧ f.before k = g.before k ∧ f.after k = g.after k := by
  induction k with
  | zero => exact ⟨rfl, rfl, rfl⟩
  | succ k ih =>
    obtain ⟨hnode, hbefore, hafter⟩ := ih fun j hj ↦ hfg j (Nat.lt_succ_of_lt hj)
    rw [node, node, before, before, after, after, hnode, hbefore, hafter,
      hfg k (Nat.lt_succ_self k)]
    exact ⟨rfl, rfl, rfl⟩

/-- Below a level the path of `g`, at the level other siblings, above it the path of `f`. -/
def splice (f g : Frames L) (i : ℕ) (siblings : List (Node L i) × List (Node L i)) : Frames L :=
  fun k ↦ if k < i then g k else Function.update f i siblings k

variable {siblings : List (Node L i) × List (Node L i)}

theorem splice_of_lt (hk : k < i) : f.splice g i siblings k = g k := if_pos hk

theorem splice_self : f.splice g i siblings i = siblings :=
  (if_neg (Nat.lt_irrefl i)).trans (Function.update_self ..)

theorem splice_of_gt (hk : i < k) : f.splice g i siblings k = f k :=
  (if_neg (Nat.not_lt_of_gt hk)).trans (Function.update_of_ne (Nat.ne_of_gt hk) ..)

/-- The path up to the level of a splice. -/
theorem splice_below (l : L) : (f.splice g i siblings).node l i = g.node l i ∧
    (f.splice g i siblings).before i = g.before i ∧ (f.splice g i siblings).after i = g.after i :=
  congr_below fun _ ↦ splice_of_lt

/-- Paths that agree above a level lead through the same nodes there, if they do at the level. -/
theorem node_congr_above {l' : L} (hfg : ∀ j > i, f j = g j)
    (hnode : f.node l (i + 1) = g.node l' (i + 1)) (hk : i < k) : f.node l k = g.node l' k := by
  induction hk with
  | refl => exact hnode
  | @step k hk ih => rw [node, node, ih, hfg k hk]

/-- Paths that agree above a level differ there in the leaves that they do at the level. -/
theorem before_congr_above {m : List L} (hfg : ∀ j > i, f j = g j)
    (hm : g.before (i + 1) = f.before (i + 1) ++ m) (hk : i < k) :
    g.before k = f.before k ++ m := by
  induction hk with
  | refl => exact hm
  | @step k hk ih => rw [before, before, ih, hfg k hk, List.append_assoc]

end Frames

/-! ## Descending -/

/-- The cache of a path: its levels are those of the frames. -/
def Cache.Follows (cache : Cache L) (f : Frames L) (l : L) (h : ℕ) : Prop :=
  ∀ k < h, k < cursorCacheSize → cache k = some (f.node l (k + 1), (f k).1.length)

section

variable {σ : Type} {pick : (h : ℕ) → List (Node L h) → σ → Option (ℕ × σ)}

/-- A way down the tree that keeps to an invariant of the leaves before, of, and after the node. -/
structure Keeps (pick : (h : ℕ) → List (Node L h) → σ → Option (ℕ × σ))
    (P : List L → List L → List L → σ → Prop) : Prop where
  isSome : ∀ {h : ℕ} {ns : List (Node L h)} {s : σ}, ns ≠ [] → ∃ i s', pick h ns s = some (i, s')
  pick : ∀ {h : ℕ} {ns : List (Node L h)} {s s' : σ} {i : ℕ} {b a : List L},
    P b (Node.leavesOf ns) a s → pick h ns s = some (i, s') →
      ∃ ns₁ n ns₂, ns = ns₁ ++ n :: ns₂ ∧ ns₁.length = i ∧
        P (b ++ Node.leavesOf ns₁) (Node.leaves h n) (Node.leavesOf ns₂ ++ a) s'

/-- Every way down the tree ends at a leaf, along a path that the cache follows. -/
theorem descendBy_path [Leaf L] {P : List L → List L → List L → σ → Prop} (hpick : Keeps pick P) :
    {h : ℕ} → {n : Node L h} → h = 0 ∨ n.Inner h → {b a : List L} → {s : σ} →
      P b (Node.leaves h n) a s → (cache : Cache L) →
      ∃ cache' l s' f, descendBy pick h n s cache = some (cache', l, s') ∧ n = Frames.node f l h ∧
        cache'.Follows f l h ∧ (∀ k, h ≤ k ∨ cursorCacheSize ≤ k → cache' k = cache k) ∧
        P (b ++ f.before h) [l] (f.after h ++ a) s'
  | 0, l, _, b, a, s, hP, cache => by
    refine ⟨cache, l, s, fun _ ↦ ([], []), rfl, rfl, fun k hk ↦ absurd hk (Nat.not_lt_zero k),
      fun _ _ ↦ rfl, ?_⟩
    rwa [Frames.before, Frames.after, List.append_nil, List.nil_append]
  | h + 1, n, hn, b, a, s, hP, cache => by
    obtain ⟨hlen, -, hchildren⟩ := hn.resolve_left (Nat.succ_ne_zero h)
    have hne : n.children ≠ [] := fun hnil ↦ by
      rw [hnil] at hlen
      exact absurd hlen (Nat.not_succ_le_zero 1)
    obtain ⟨i, s₁, hi⟩ := hpick.isSome (s := s) hne
    obtain ⟨ns₁, c, ns₂, hns, rfl, hP₁⟩ := hpick.pick hP hi
    have hc : c ∈ n.children := by
      rw [hns]
      exact List.mem_append_right ns₁ List.mem_cons_self
    obtain ⟨cache', l, s', f, hdescend, hnode, hfollows, hrest, hP'⟩ :=
      descendBy_path hpick (.inr (hchildren c hc)) hP₁
        (if h < cursorCacheSize then Function.update cache h (some (n, ns₁.length)) else cache)
    have hget : n.children[ns₁.length]? = some c := by
      rw [hns, List.getElem?_append_right (Nat.le_refl _), Nat.sub_self]
      rfl
    -- the frames below are those of the child, and this level has the siblings of the child
    have hbelow : ∀ k < h, Function.update f h (ns₁, ns₂) k = f k := fun k hk ↦
      Function.update_of_ne (Nat.ne_of_lt hk) ..
    obtain ⟨hnode', hbefore, hafter⟩ := Frames.congr_below (l := l) hbelow
    have hself : Function.update f h (ns₁, ns₂) h = (ns₁, ns₂) := Function.update_self ..
    have hroot : n = Frames.node (Function.update f h (ns₁, ns₂)) l (h + 1) := by
      change n.children = _
      rw [hns, Frames.node, hself, hnode', ← hnode]
    refine ⟨cache', l, s', Function.update f h (ns₁, ns₂), ?_, hroot, ?_, ?_, ?_⟩
    · simp only [descendBy, hi, hget, Option.bind_eq_bind, Option.bind_some]
      exact hdescend
    · intro k hk hsize
      rcases Nat.lt_succ_iff_lt_or_eq.mp hk with hk | rfl
      · rw [hfollows k hk hsize, hbelow k hk,
          (Frames.congr_below fun j hj ↦ hbelow j (Nat.lt_of_lt_of_le hj hk)).1]
      · rw [hrest k (.inl (Nat.le_refl k)), if_pos hsize, Function.update_self, hself, ← hroot]
    · intro k hk
      rw [hrest k (hk.imp_left Nat.le_of_succ_le)]
      split
      · refine Function.update_of_ne ?_ ..
        omega
      · rfl
    · rw [Frames.before, Frames.after, hself, hbefore, hafter, ← List.append_assoc,
        List.append_assoc (f.after h)]
      exact hP'

end

theorem keeps_pickFirst : Keeps (L := L) pickFirst fun b _ _ _ ↦ b = [] where
  isSome {h ns s} hne := ⟨0, (), if_neg (by simpa using hne)⟩
  pick {h ns s s' i b a} hb hi := by
    cases ns with
    | nil => cases hi
    | cons n ns =>
      obtain ⟨rfl, rfl⟩ := Prod.mk.inj (Option.some.inj hi)
      exact ⟨[], n, ns, rfl, rfl, by rw [hb]; rfl⟩

theorem keeps_pickLast : Keeps (L := L) pickLast fun _ _ a _ ↦ a = [] where
  isSome {h ns s} hne := ⟨ns.length - 1, (), if_neg (by simpa using hne)⟩
  pick {h ns s s' i b a} ha hi := by
    cases ns using List.reverseRecOn with
    | nil => cases hi
    | append_singleton ns n =>
      rw [pickLast, if_neg (by simp), List.length_append, List.length_singleton] at hi
      obtain ⟨rfl, rfl⟩ := Prod.mk.inj (Option.some.inj hi)
      exact ⟨ns, n, [], rfl, rfl, by rw [ha]; rfl⟩

/-- The descent of a position goes to a leaf that holds it, or to the last one. -/
theorem keeps_pickOffset [Leaf L] (position : ℕ) : Keeps (L := L) (pickOffset position)
    fun b m a offset ↦ offset = lenOf b ∧ offset ≤ position ∧
      (position < offset + lenOf m ∨ a = []) where
  isSome {h ns s} hne := by
    induction ns generalizing s with
    | nil => exact absurd rfl hne
    | cons n ns ih =>
      cases ns with
      | nil => exact ⟨0, s, rfl⟩
      | cons n' ns =>
        rw [pickOffset]
        split
        · exact ⟨0, s, rfl⟩
        · obtain ⟨i, s', h⟩ := ih (s := s + n.len) (List.cons_ne_nil _ _)
          exact ⟨i + 1, s', by rw [h]; rfl⟩
  pick {h ns s s' i b a} hP hi := by
    induction ns generalizing s i b with
    | nil => cases hi
    | cons n ns ih =>
      obtain ⟨hs, hle, hlt⟩ := hP
      cases ns with
      | nil =>
        obtain ⟨rfl, rfl⟩ := Prod.mk.inj (Option.some.inj hi)
        refine ⟨[], n, [], rfl, rfl, ?_, hle, ?_⟩
        · rw [hs, Node.leavesOf_nil, List.append_nil]
        · rwa [Node.leavesOf_cons, Node.leavesOf_nil, List.append_nil] at hlt
      | cons n' ns =>
        rw [pickOffset] at hi
        split at hi
        · rename_i hhere
          obtain ⟨rfl, rfl⟩ := Prod.mk.inj (Option.some.inj hi)
          refine ⟨[], n, n' :: ns, rfl, rfl, ?_, hle, .inl ?_⟩
          · rw [hs, Node.leavesOf_nil, List.append_nil]
          · rwa [Node.len_eq] at hhere
        · rename_i hbeyond
          obtain ⟨⟨j, t⟩, hj, heq⟩ := Option.map_eq_some_iff.mp hi
          obtain ⟨rfl, rfl⟩ := Prod.mk.inj heq
          rw [Node.leavesOf_cons, lenOf_append, ← Nat.add_assoc] at hlt
          obtain ⟨ns₁, m, ns₂, hns, rfl, hP'⟩ := ih (b := b ++ Node.leaves h n)
            ⟨by rw [hs, lenOf_append, Node.len_eq], Nat.not_lt.mp hbeyond,
              by rwa [Node.len_eq]⟩ hj
          refine ⟨n :: ns₁, m, ns₂, by rw [hns]; rfl, rfl, ?_⟩
          rwa [List.append_assoc, ← Node.leavesOf_cons] at hP'

/-- The measure of some leaves. -/
@[grind =] def measureOf (M : Metric L) (ls : List L) : ℕ := (ls.map M.measure).sum

section

variable {M : Metric L}

@[simp] theorem measureOf_nil : measureOf M [] = 0 := rfl

@[simp] theorem measureOf_cons (l : L) (ls : List L) :
    measureOf M (l :: ls) = M.measure l + measureOf M ls := by
  rw [measureOf, List.map_cons, List.sum_cons, measureOf]

@[simp] theorem measureOf_append (ls ls' : List L) :
    measureOf M (ls ++ ls') = measureOf M ls + measureOf M ls' := by
  rw [measureOf, List.map_append, List.sum_append, measureOf, measureOf]

theorem Node.measure_eq {h : ℕ} (n : Node L h) :
    n.measure M = measureOf M (Node.leaves h n) := Node.total_eq _ h n

end

/-- The descent of a measure goes to the first leaf by the end of which it is reached, or to the
last one. -/
theorem keeps_pickMeasure [Leaf L] (M : Metric L) (measure : ℕ) : Keeps (L := L) (pickMeasure M)
    fun b m a s ↦ 0 < s.1 ∧ measureOf M b + s.1 = measure ∧ s.2 = lenOf b ∧
      (s.1 ≤ measureOf M m ∨ a = []) where
  isSome {h ns s} hne := by
    induction ns generalizing s with
    | nil => exact absurd rfl hne
    | cons n ns ih =>
      cases ns with
      | nil => exact ⟨0, s, rfl⟩
      | cons n' ns =>
        obtain ⟨m, o⟩ := s
        rw [pickMeasure]
        split
        · exact ⟨0, _, rfl⟩
        · obtain ⟨i, s', h⟩ := ih (s := (m - n.measure M, o + n.len)) (List.cons_ne_nil _ _)
          exact ⟨i + 1, s', by rw [h]; rfl⟩
  pick {h ns s s' i b a} hP hi := by
    induction ns generalizing s i b with
    | nil => cases hi
    | cons n ns ih =>
      obtain ⟨hpos, hsum, hlen, hle⟩ := hP
      cases ns with
      | nil =>
        obtain ⟨rfl, rfl⟩ := Prod.mk.inj (Option.some.inj hi)
        refine ⟨[], n, [], rfl, rfl, hpos, ?_, ?_, ?_⟩
        · rwa [Node.leavesOf_nil, List.append_nil]
        · rwa [Node.leavesOf_nil, List.append_nil]
        · rwa [Node.leavesOf_cons, Node.leavesOf_nil, List.append_nil] at hle
      | cons n' ns =>
        obtain ⟨m, o⟩ := s
        dsimp only at hpos hsum hlen hle
        rw [pickMeasure] at hi
        split at hi
        · rename_i hhere
          obtain ⟨rfl, rfl⟩ := Prod.mk.inj (Option.some.inj hi)
          refine ⟨[], n, n' :: ns, rfl, rfl, hpos, ?_, ?_, .inl ?_⟩
          · rwa [Node.leavesOf_nil, List.append_nil]
          · rwa [Node.leavesOf_nil, List.append_nil]
          · rwa [Node.measure_eq] at hhere
        · rename_i hbeyond
          obtain ⟨⟨j, t⟩, hj, heq⟩ := Option.map_eq_some_iff.mp hi
          obtain ⟨rfl, rfl⟩ := Prod.mk.inj heq
          rw [Node.leavesOf_cons, measureOf_append] at hle
          rw [Node.measure_eq] at hbeyond
          obtain ⟨ns₁, k, ns₂, hns, rfl, hP'⟩ := ih (b := b ++ Node.leaves h n)
            ⟨by rw [Node.measure_eq]; omega, by rw [measureOf_append, Node.measure_eq]; omega,
              by rw [hlen, lenOf_append, Node.len_eq], by
                rw [Node.measure_eq]
                exact hle.imp_left fun hle ↦ by omega⟩ hj
          refine ⟨n :: ns₁, k, ns₂, by rw [hns]; rfl, rfl, ?_⟩
          rwa [List.append_assoc, ← Node.leavesOf_cons] at hP'

end EeEditor.BTree
