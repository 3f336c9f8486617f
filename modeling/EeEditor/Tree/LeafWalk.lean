import EeEditor.Tree.CursorAt
import EeEditor.Tree.Slices
import EeEditor.Tree.Chunks

/-!
# From the first leaf to the last

A cursor that is made at the beginning of a tree and moved by `next_leaf` comes to every leaf once,
in order, with its position at the beginning of the leaf. A loop over the leaves of a rope keeps
this and need not tell the path that the cursor has cached.
-/

namespace EeEditor.BTree

namespace Cursor

section

variable {L : Type} [Leaf L] {h : ℕ} {root : Node L h} {c : Cursor root} {l : L} {pre post : List L}

/-- The cursor stands at the beginning of a leaf. -/
structure Begins (c : Cursor root) (pre : List L) (l : L) (post : List L) : Prop where
  /-- The path of the cursor leads to the leaf. -/
  at_leaf : c.At pre l post
  /-- The leaf is the one that the cursor holds. -/
  leaf : c.leaf = some l
  /-- Nothing of the leaf is before the cursor. -/
  position : c.position = lenOf pre

theorem Begins.getLeaf (hc : c.Begins pre l post) : c.getLeaf = some (l, 0) := by
  rw [Cursor.getLeaf, hc.leaf, hc.position, hc.at_leaf.offset, Nat.sub_self]
  rfl

theorem begins_new (hroot : h = 0 ∨ root.Inner h) :
    ∃ l post, (new root 0).Begins [] l post := by
  obtain ⟨pre, l, post, hat, hleaf, hposition, hle, -⟩ := new_at hroot 0
  have hnil : pre = [] := by
    cases pre with
    | nil => rfl
    | cons l' pre =>
      have hpos := pos_of_leaves hroot hat.leaves
        (by rw [List.length_append, List.length_cons, List.length_cons]; omega) l'
        List.mem_cons_self
      rw [lenOf_cons] at hle
      omega
  subst hnil
  exact ⟨l, post, hat, hleaf, hposition⟩

/-- After the last leaf the cursor is at the end of the tree. -/
theorem Begins.nextLeaf (hroot : h = 0 ∨ root.Inner h) (hc : c.Begins pre l post) :
    match post with
    | [] => c.nextLeaf.leaf = none ∧ c.nextLeaf.position = root.len
    | l' :: post => c.nextLeaf.Begins (pre ++ [l]) l' post := by
  rcases hc.at_leaf.nextLeaf hroot hc.leaf with ⟨rfl, -, hnone, hposition⟩ |
    ⟨l', post', rfl, hat, hleaf, hposition⟩
  · exact ⟨hnone, hposition⟩
  · exact ⟨hat, hleaf, hposition⟩

end

end Cursor

end EeEditor.BTree
