import EeEditor.Tree.Navigation

/-!
# Runs of cursor operations

A cursor of a tree after any sequence of operations (`Cursor.Reached`) is valid or has at least a
path to a leaf, so that what each operation does is known in every state a run gets to.
-/

namespace EeEditor.BTree

variable {L : Type} [Leaf L]

/-- A call on a cursor, with the metric that it is called for. -/
inductive CursorOp (L : Type)
  | set (position : ℕ)
  | next (M : Metric L)
  | prev (M : Metric L)
  | nextLeaf
  | prevLeaf
  | atOrNext (M : Metric L)
  | atOrPrev (M : Metric L)

namespace Cursor

variable {h : ℕ} {root : Node L h} {c : Cursor root} {pre post : List L} {l : L} {M : Metric L}
  {metrics : List (Metric L)} {p : ℕ}

def step (c : Cursor root) : CursorOp L → Cursor root
  | .set position => c.set position
  | .next M => (c.next M).1
  | .prev M => (c.prev M).1
  | .nextLeaf => c.nextLeaf
  | .prevLeaf => c.prevLeaf
  | .atOrNext M => (c.atOrNext M).1
  | .atOrPrev M => (c.atOrPrev M).1

/-- A valid cursor at a position from which the metric tells the next boundary. -/
def Sees (c : Cursor root) (M : Metric L) : Prop :=
  c.leaf.isSome → M.Clear (concat (root.leaves h)) c.position

/-- The calls that a run is made of: the position is one of the tree, and the next boundary is asked
for only where it can be told. -/
def Admits (metrics : List (Metric L)) (c : Cursor root) : CursorOp L → Prop
  | .set position => position ≤ root.len
  | .next M => M ∈ metrics ∧ c.Sees M
  | .prev M => M ∈ metrics
  | .nextLeaf => True
  | .prevLeaf => True
  | .atOrNext M => M ∈ metrics ∧ c.Sees M
  | .atOrPrev M => M ∈ metrics

/-- The cursors that runs of such calls get to. -/
inductive Reached (metrics : List (Metric L)) : Cursor root → Prop
  | new {p : ℕ} : p ≤ root.len → Reached metrics (new root p)
  | step {c : Cursor root} {op : CursorOp L} :
      Reached metrics c → c.Admits metrics op → Reached metrics (c.step op)

/-! ## What one call preserves -/

theorem new_sound (hroot : h = 0 ∨ root.Inner h) (hp : p ≤ root.len) : (new root p).Sound := by
  obtain ⟨pre, l, post, hstands, -⟩ :=
    NoneAbove.descend (c := ⟨p, fun _ ↦ none, none, 0⟩) hroot (fun _ _ _ ↦ rfl) hp
  exact hstands.sound

theorem next_of_none (hc : c.leaf = none) (M : Metric L) : c.next M = (c, none) := by
  rw [next_eq, if_pos (.inr (by rw [hc]; rfl)), ← hc]

theorem prev_of_none (hc : c.leaf = none) (M : Metric L) : c.prev M = (c, none) := by
  rw [prev_eq, if_pos (.inr (by rw [hc]; rfl)), ← hc]

theorem isBoundary_of_none (hc : c.leaf = none) (M : Metric L) : c.isBoundary M = false := by
  rw [isBoundary, hc]

/-- A valid cursor, told by its leaf. -/
theorem Sound.stands (hc : c.Sound) (hleaf : c.leaf.isSome) :
    ∃ pre l post, c.Stands pre l post := by
  obtain ⟨pre, l, post, -, hnone | hstands⟩ := hc
  · rw [hnone] at hleaf
    exact absurd hleaf Bool.false_ne_true
  · exact ⟨pre, l, post, hstands⟩

theorem Sound.next (hroot : h = 0 ∨ root.Inner h) (hM : M.Lawful) (hc : c.Sound)
    (hsees : c.Sees M) :
    (c.next M).1.Sound := by
  rcases hleaf : c.leaf with _ | l'
  · rw [next_of_none hleaf]
    exact hc
  have hsome : c.leaf.isSome := by rw [hleaf]; rfl
  obtain ⟨pre, l, post, hstands⟩ := hc.stands hsome
  have hclear := hsees hsome
  rw [hstands.at_leaf.leaves] at hclear
  obtain ⟨o, hposition, -, -⟩ := hstands.exists_offset
  rcases hstands.lt with hlt | ⟨rfl, hend⟩
  · have ho : o < Leaf.len l := by omega
    rw [hposition, clear_concat hM ho] at hclear
    cases hq : M.next l o with
    | some q =>
      have hq' := (hM.next_some ho hq).mpr hclear
      exact (hstands.next_some hroot hposition ho hq).2 (hM.le_len hq'.1.1)
    | none => exact (hstands.next_none hroot hM hposition ho hq).2
  · have hlen := hstands.at_leaf.len
    rw [lenOf_nil] at hlen
    rw [next_eq, if_pos (.inl (by omega))]
    exact hstands.at_leaf.invalidate _

theorem Sound.prev (hroot : h = 0 ∨ root.Inner h) (hM : M.Lawful) (hc : c.Sound) :
    (c.prev M).1.Sound := by
  rcases hleaf : c.leaf with _ | l'
  · rw [prev_of_none hleaf]
    exact hc
  obtain ⟨pre, l, post, hstands⟩ := hc.stands (by rw [hleaf]; rfl)
  exact (hstands.prev hroot hM).2

theorem Sound.nextLeaf (hroot : h = 0 ∨ root.Inner h) (hc : c.Sound) : c.nextLeaf.Sound := by
  rcases hleaf : c.leaf with _ | l'
  · rw [Cursor.nextLeaf, hleaf]
    exact hc
  obtain ⟨pre, l, post, hstands⟩ := hc.stands (by rw [hleaf]; rfl)
  rcases hstands.at_leaf.nextLeaf hroot hstands.leaf with ⟨-, hat, hnone, -⟩ |
    ⟨l', post', rfl, hat, hleaf', hpos⟩
  · exact hat.sound hnone
  · have := pos_of_leaves hroot hat.leaves (by simp; omega) l' (by simp)
    exact Stands.sound ⟨hat, hleaf', hpos.ge, .inl (by omega)⟩

/-- `prev_leaf` goes back to a leaf even from an invalid cursor. -/
theorem Sound.prevLeaf (hroot : h = 0 ∨ root.Inner h) (hc : c.Sound) : c.prevLeaf.Sound := by
  obtain ⟨pre, l, post, hat, -⟩ := hc
  rcases List.eq_nil_or_concat' pre with rfl | ⟨pre, l', rfl⟩
  · obtain ⟨hat', hleaf, -⟩ := hat.prevLeaf_nil
    exact hat'.sound hleaf
  · obtain ⟨hat', hleaf, hpos⟩ := hat.prevLeaf hroot
    have := pos_of_leaves hroot hat'.leaves (by simp; omega) l' (by simp)
    exact Stands.sound ⟨hat', hleaf, hpos.ge, .inl (by omega)⟩

theorem Sound.step (hroot : h = 0 ∨ root.Inner h) (hmetrics : ∀ M ∈ metrics, M.Lawful)
    {op : CursorOp L} (hc : c.Sound) (hop : c.Admits metrics op) : (c.step op).Sound := by
  cases op with
  | set position =>
    obtain ⟨pre, l, post, hstands, -⟩ := hc.set_cases hroot hop
    exact hstands.sound
  | next M => exact hc.next hroot (hmetrics M hop.1) hop.2
  | prev M => exact hc.prev hroot (hmetrics M hop)
  | nextLeaf => exact hc.nextLeaf hroot
  | prevLeaf => exact hc.prevLeaf hroot
  | atOrNext M =>
    rw [Cursor.step, atOrNext]
    split
    · exact hc
    · exact hc.next hroot (hmetrics M hop.1) hop.2
  | atOrPrev M =>
    rw [Cursor.step, atOrPrev]
    split
    · exact hc
    · exact hc.prev hroot (hmetrics M hop)

/-- What a whole run preserves. -/
theorem Reached.sound (hroot : h = 0 ∨ root.Inner h) (hmetrics : ∀ M ∈ metrics, M.Lawful)
    (hc : Reached metrics c) : c.Sound := by
  induction hc with
  | new hp => exact new_sound hroot hp
  | step _ hop ih => exact ih.step hroot hmetrics hop

/-! ## Agreement with the whole content -/

/-- The cursor is at a position, and its leaf holds it. -/
def Points (c : Cursor root) (p : ℕ) : Prop :=
  c.pos = p ∧ ∃ pre l post, root.leaves h = pre ++ l :: post ∧ lenOf pre ≤ p ∧
    (p < lenOf pre + Leaf.len l ∨ (post = [] ∧ p = lenOf pre + Leaf.len l)) ∧
      c.getLeaf = some (l, p - lenOf pre)

theorem Stands.points (hc : c.Stands pre l post) (hp : c.position = p) : c.Points p := by
  subst hp
  refine ⟨rfl, pre, l, post, hc.at_leaf.leaves, hc.le, hc.lt, ?_⟩
  rw [getLeaf, hc.leaf, hc.at_leaf.offset]
  rfl

theorem Sound.points_set (hroot : h = 0 ∨ root.Inner h) (hc : c.Sound) (hp : p ≤ root.len) :
    (c.set p).Points p ↔ ¬ c.Strays p := by
  obtain ⟨pre, l, post, hstands, hiff⟩ := hc.set_cases hroot hp
  exact ⟨fun h ↦ hiff.mp h.1, fun h ↦ hstands.points (hiff.mpr h)⟩

/-- What a cursor of a tree answers: `set` goes to a position unless it strays, and a valid cursor
finds the boundaries around its position, the next one where the metric tells it. -/
structure Agrees (metrics : List (Metric L)) (c : Cursor root) : Prop where
  set : ∀ p ≤ root.len, (c.set p).Points p ↔ ¬ c.Strays p
  next : c.leaf.isSome → ∀ M ∈ metrics,
    IsNext (M.boundaries (concat (root.leaves h))) c.pos (c.next M).2 ↔
      M.Clear (concat (root.leaves h)) c.pos
  prev : c.leaf.isSome → ∀ M ∈ metrics,
    IsPrev (M.boundaries (concat (root.leaves h))) c.pos (c.prev M).2
  isBoundary : c.leaf.isSome → ∀ M ∈ metrics,
    c.isBoundary M = true ↔ c.pos ∈ M.boundaries (concat (root.leaves h))
  invalid : c.leaf = none → ∀ M ∈ metrics,
    (c.next M).2 = none ∧ (c.prev M).2 = none ∧ c.isBoundary M = false

theorem Reached.agrees (hroot : h = 0 ∨ root.Inner h) (hmetrics : ∀ M ∈ metrics, M.Lawful)
    (hc : Reached metrics c) : c.Agrees metrics := by
  have hsound := hc.sound hroot hmetrics
  refine ⟨fun p hp ↦ hsound.points_set hroot hp, ?_, ?_, ?_, ?_⟩
  · intro hleaf M hM
    obtain ⟨pre, l, post, hstands⟩ := hsound.stands hleaf
    rw [hstands.at_leaf.leaves]
    exact hstands.next_iff hroot (hmetrics M hM)
  · intro hleaf M hM
    obtain ⟨pre, l, post, hstands⟩ := hsound.stands hleaf
    rw [hstands.at_leaf.leaves]
    exact (hstands.prev hroot (hmetrics M hM)).1
  · intro hleaf M hM
    obtain ⟨pre, l, post, hstands⟩ := hsound.stands hleaf
    rw [hstands.at_leaf.leaves]
    exact hstands.isBoundary hroot (hmetrics M hM)
  · intro hnone M _
    rw [next_of_none hnone, prev_of_none hnone, isBoundary_of_none hnone]
    exact ⟨rfl, rfl, rfl⟩

end Cursor

end EeEditor.BTree
