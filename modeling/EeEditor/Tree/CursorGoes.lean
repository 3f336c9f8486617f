import Mathlib
import EeEditor.Tree.Breaks
import EeEditor.Tree.CursorRuns
import EeEditor.Tree.TextLaws

/-!
# Cursors of ropes and breaks

What the cursors of the two trees of the editor answer after any run of calls.
-/

namespace EeEditor.BTree

/-- Over every run a cursor agrees with the flat content, except where `set` takes its shortcut to a
leaf before that is longer than one unit, and where `next` starts within a character that does not
end two bytes on. -/
theorem cursor_agrees_of_reached (t : Tree Text) (c : Cursor t.root) (breaks : Tree BreaksLeaf)
    (d : Cursor breaks.root) :
    (Cursor.Reached textMetrics c → c.Agrees textMetrics) ∧
      (Cursor.Reached [breaksMetric] d → d.Agrees [breaksMetric]) := by
  refine ⟨fun hc ↦ hc.agrees t.integrity textMetrics_lawful,
    fun hd ↦ hd.agrees breaks.integrity ?_⟩
  intro M hM
  rw [List.mem_singleton.mp hM]
  exact breaksMetric_lawful

/-- A cursor that has looked for the end of the line in a rope of four leaves. -/
theorem cursor_agrees_after_next :
    (((Cursor.new fourLeaves.root 2500).step (.next linesMetric)).Agrees textMetrics) ∧
      (Cursor.new (h := 0) (L := BreaksLeaf) ⟨7, [3], by simp, by simp, by simp⟩ 2).Agrees
        [breaksMetric] := by
  refine (cursor_agrees_of_reached fourLeaves _
    ⟨0, ⟨7, [3], by simp, by simp, by simp⟩, .inl rfl⟩ _).imp (· (.step (.new ?_) ?_))
      (· (.new ?_))
  · exact (by decide : 2500 ≤ 4000).trans len_fourLeaves.ge
  · exact ⟨by simp [textMetrics], fun _ ↦ .inl rfl⟩
  · exact Nat.le_of_ble_eq_true rfl

/-! ## The shortcut to the leaf before -/

/-- At the second of the leaves of a tree the shortcut goes astray, unless they have length one. -/
theorem new_strays {L : Type} [Leaf L] {l : L} (hl : 1 < Leaf.len l) :
    (Cursor.new (Node.tower l 1) (Leaf.len l)).leaf.isSome ∧
      (Cursor.new (Node.tower l 1) (Leaf.len l)).Strays (Leaf.len l - 1) := by
  have hroot : 1 = 0 ∨ (Node.tower l 1).Inner 1 := .inr (Node.inner_tower (by omega) 1)
  have hleaves : (Node.tower l 1).leaves 1 = [l] ++ l :: [l, l] := Node.leaves_tower l 1
  obtain ⟨hat, hleaf, -⟩ := Cursor.descend_eq (c := ⟨Leaf.len l, fun _ ↦ none, none, 0⟩) hroot
    (fun _ _ _ ↦ rfl) hleaves (by simp) (by simp; omega)
  have hsome : (Cursor.new (Node.tower l 1) (Leaf.len l)).leaf.isSome := by
    rw [Cursor.new, hleaf]
    rfl
  have hoffset : (Cursor.new (Node.tower l 1) (Leaf.len l)).offsetOfLeaf = Leaf.len l := by
    rw [Cursor.new, hat.offset, lenOf_cons, lenOf_nil, Nat.add_zero]
  refine ⟨hsome, hsome, by omega, [], l, l :: [l, l], hleaves, ?_, by omega⟩
  rw [hoffset, lenOf_nil, Nat.zero_add]

/-- From the second leaf of a rope `set` cannot go back by one byte: the cursor ends at the
beginning. -/
theorem set_before_leaf_strays : ∃ (t : Tree Text) (c : Cursor t.root),
    Cursor.Reached textMetrics c ∧ c.leaf.isSome ∧ ∃ p ≤ t.len, ¬ (c.set p).Points p := by
  have hlen : Leaf.len (List.replicate 1000 'a') = 1000 := length_bytes_replicate 1000 'a'
  have hpos : 0 < Leaf.len (List.replicate 1000 'a') := by rw [hlen]; decide
  obtain ⟨hsome, hstrays⟩ := new_strays (l := List.replicate 1000 'a') (by rw [hlen]; decide)
  have htotal : (Tree.tower (List.replicate 1000 'a') hpos 1).root.len = 4000 := by
    rw [Tree.tower, Node.len_tower, hlen]
    exact Nat.mul_comm 4 1000
  rw [hlen] at hstrays hsome
  have hreached : Cursor.Reached textMetrics
      (Cursor.new (Tree.tower (List.replicate 1000 'a') hpos 1).root 1000) :=
    .new (by rw [htotal]; decide)
  have hp : 1000 - 1 ≤ (Tree.tower (List.replicate 1000 'a') hpos 1).root.len := by
    rw [htotal]
    decide
  refine ⟨_, _, hreached, hsome, 1000 - 1, hp, ?_⟩
  rw [(hreached.sound (Tree.integrity _) textMetrics_lawful).points_set (Tree.integrity _) hp,
    not_not]
  exact hstrays

end EeEditor.BTree
