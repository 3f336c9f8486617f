import EeEditor.Tree.Path

/-!
# Where a cursor stands

A cursor stands at a leaf, with some leaves before it and some after it (`Cursor.At`). The
operations are specified by this: `new`, `set` and `descend_metric` go to the leaf that holds a
position or a measure, `next_leaf` and `prev_leaf` to the neighbours, however high the tree and
wherever the cached levels end.
-/

namespace EeEditor.BTree

variable {L : Type}

namespace Frames

variable {f : Frames L} {i : ℕ}

theorem before_eq_nil (hf : ∀ k < i, (f k).1 = []) : f.before i = [] := by
  induction i with
  | zero => rfl
  | succ i ih =>
    rw [before, ih fun k hk ↦ hf k (Nat.lt_succ_of_lt hk), hf i (Nat.lt_succ_self i)]
    rfl

theorem after_eq_nil (hf : ∀ k < i, (f k).2 = []) : f.after i = [] := by
  induction i with
  | zero => rfl
  | succ i ih =>
    rw [after, ih fun k hk ↦ hf k (Nat.lt_succ_of_lt hk), hf i (Nat.lt_succ_self i)]
    rfl

end Frames

namespace Cursor

variable [Leaf L] {h : ℕ} {root : Node L h} {c : Cursor root} {f : Frames L} {l l' : L}
  {pre pre' post post' : List L}

/-- The cache follows a path of the tree, and has no levels above the root. -/
structure OnPath (c : Cursor root) (f : Frames L) (l : L) : Prop where
  node : root = f.node l h
  follows : c.cache.Follows f l h
  above : ∀ k, h ≤ k → k < cursorCacheSize → c.cache k = none
  offset : c.offsetOfLeaf = lenOf (f.before h)

/-- The cursor stands at a leaf of the tree. -/
def At (c : Cursor root) (pre : List L) (l : L) (post : List L) : Prop :=
  ∃ f : Frames L, c.OnPath f l ∧ f.before h = pre ∧ f.after h = post

/-- Nothing but the cache and the offset of the leaf matters. -/
theorem At.congr {d : Cursor root} (hc : c.At pre l post) (hcache : d.cache = c.cache)
    (hoffset : d.offsetOfLeaf = c.offsetOfLeaf) : d.At pre l post := by
  obtain ⟨f, ⟨hnode, hfollows, habove, hoff⟩, hbefore, hafter⟩ := hc
  exact ⟨f, ⟨hnode, hcache ▸ hfollows, hcache ▸ habove, hoffset.trans hoff⟩, hbefore, hafter⟩

theorem At.leaves (hc : c.At pre l post) : Node.leaves h root = pre ++ l :: post := by
  obtain ⟨f, hf, rfl, rfl⟩ := hc
  rw [← f.leaves_node l h, ← hf.node]

theorem At.offset (hc : c.At pre l post) : c.offsetOfLeaf = lenOf pre := by
  obtain ⟨f, hf, rfl, rfl⟩ := hc
  exact hf.offset

theorem At.len (hc : c.At pre l post) : root.len = lenOf pre + Leaf.len l + lenOf post := by
  rw [Node.len_eq, hc.leaves, lenOf_append, lenOf_cons, Nat.add_assoc]

/-! ## Descents -/

/-- The levels above the root are never cached. -/
def NoneAbove (c : Cursor root) : Prop := ∀ k, h ≤ k → k < cursorCacheSize → c.cache k = none

theorem At.noneAbove (hc : c.At pre l post) : c.NoneAbove := by
  obtain ⟨f, hf, -⟩ := hc
  exact hf.above

theorem descend_at (hroot : h = 0 ∨ root.Inner h) (hc : c.NoneAbove) :
    ∃ pre l post, c.descend.At pre l post ∧ c.descend.leaf = some l ∧
      c.descend.position = c.position ∧ lenOf pre ≤ c.position ∧
        (c.position < lenOf pre + Leaf.len l ∨ post = []) := by
  obtain ⟨cache, l, offset, f, hdescend, hnode, hfollows, hrest, hoffset, hle, hlt⟩ :=
    descendBy_path (keeps_pickOffset c.position) hroot (b := []) (a := []) (s := 0)
      ⟨rfl, Nat.zero_le _, .inr rfl⟩ c.cache
  rw [List.nil_append] at hoffset
  rw [List.append_nil] at hlt
  have heq : c.descend = { c with cache, leaf := some l, offsetOfLeaf := offset } := by
    rw [descend, hdescend]
  rw [heq]
  refine ⟨f.before h, l, f.after h, ⟨f, ⟨hnode, hfollows, ?_, hoffset⟩, rfl, rfl⟩, rfl, rfl,
    hoffset ▸ hle, ?_⟩
  · intro k hk hsize
    exact (hrest k (.inl hk)).trans (hc k hk hsize)
  · rwa [← hoffset, ← Nat.add_zero (Leaf.len l), ← lenOf_nil (L := L), ← lenOf_cons]

theorem descendMetric_at (hroot : h = 0 ∨ root.Inner h) (hc : c.NoneAbove) (M : Metric L)
    {measure : ℕ} (hpos : 0 < measure) :
    ∃ pre l post, (c.descendMetric M measure).At pre l post ∧
      (c.descendMetric M measure).leaf = some l ∧
      (c.descendMetric M measure).position = lenOf pre ∧ measureOf M pre < measure ∧
        (measure ≤ measureOf M pre + M.measure l ∨ post = []) := by
  obtain ⟨cache, l, s, f, hdescend, hnode, hfollows, hrest, hleft, hsum, hoffset, hle⟩ :=
    descendBy_path (keeps_pickMeasure M measure) hroot (b := []) (a := []) (s := (measure, 0))
      ⟨hpos, by simp, rfl, .inr rfl⟩ c.cache
  rw [List.nil_append] at hoffset hsum
  rw [List.append_nil] at hle
  have heq : c.descendMetric M measure
      = { position := s.2, cache, leaf := some l, offsetOfLeaf := s.2 } := by
    rw [descendMetric, hdescend]
  rw [heq]
  refine ⟨f.before h, l, f.after h, ⟨f, ⟨hnode, hfollows, ?_, hoffset⟩, rfl, rfl⟩, rfl, hoffset,
    by omega, ?_⟩
  · intro k hk hsize
    exact (hrest k (.inl hk)).trans (hc k hk hsize)
  · rw [measureOf_cons, measureOf_nil] at hle
    exact hle.imp_left fun hle ↦ by omega

theorem new_at (hroot : h = 0 ∨ root.Inner h) (position : ℕ) :
    ∃ pre l post, (new root position).At pre l post ∧ (new root position).leaf = some l ∧
      (new root position).position = position ∧ lenOf pre ≤ position ∧
        (position < lenOf pre + Leaf.len l ∨ post = []) :=
  descend_at hroot fun _ _ _ ↦ rfl

/-! ## Neighbours -/

/-- The nodes of a path are nodes of the tree. -/
theorem OnPath.inner (hroot : h = 0 ∨ root.Inner h) (hc : c.OnPath f l) {k : ℕ} (hk : k < h) :
    (f.node l (k + 1)).Inner (k + 1) := by
  obtain ⟨j, rfl⟩ := Nat.exists_eq_add_of_lt hk
  have hinner : (f.node l (k + j + 1)).Inner (k + j + 1) :=
    hc.node ▸ hroot.resolve_left (Nat.succ_ne_zero _)
  clear hc hroot hk c root
  induction j with
  | zero => exact hinner
  | succ j ih =>
    refine ih (hinner.2.2 _ ?_)
    rw [Frames.children_node]
    exact List.mem_append_right _ List.mem_cons_self

/-- What the levels of the cache say about moving on. -/
theorem OnPath.level_cases (hc : c.OnPath f l) (room : ℕ → ℕ → Bool) :
    (∃ i, i < h ∧ i < cursorCacheSize ∧ levelFor c.cache room = some i ∧
        c.cache i = some (f.node l (i + 1), (f i).1.length) ∧
        room (f i).1.length (f.node l (i + 1)).children.length = true ∧
        ∀ k < i, room (f k).1.length (f.node l (k + 1)).children.length = false) ∨
      (∃ i, levelFor c.cache room = some i ∧ c.cache i = none ∧
        ∀ k < h, room (f k).1.length (f.node l (k + 1)).children.length = false) ∨
      (levelFor c.cache room = none ∧ cursorCacheSize ≤ h ∧
        ∀ k < cursorCacheSize, room (f k).1.length (f.node l (k + 1)).children.length = false) := by
  have hat : ∀ k < h, k < cursorCacheSize → endsAt c.cache room k
      = room (f k).1.length (f.node l (k + 1)).children.length := by
    intro k hk hsize
    rw [endsAt, hc.follows k hk hsize]
  cases hlevel : levelFor c.cache room with
  | none =>
    right; right
    have hall := List.find?_eq_none.mp hlevel
    have hh : cursorCacheSize ≤ h := by
      by_contra hlt
      rw [Nat.not_le] at hlt
      refine hall h (List.mem_range.mpr hlt) ?_
      rw [endsAt, hc.above h (Nat.le_refl h) hlt]
    refine ⟨rfl, hh, fun k hk ↦ ?_⟩
    have hk' := hall k (List.mem_range.mpr hk)
    rw [hat k (Nat.lt_of_lt_of_le hk hh) hk, Bool.not_eq_true] at hk'
    exact hk'
  | some i =>
    obtain ⟨hi, as, bs, hrange, hbefore⟩ := List.find?_eq_some_iff_append.mp hlevel
    have hsize : i < cursorCacheSize := by
      refine List.mem_range.mp ?_
      rw [hrange]
      exact List.mem_append_right as List.mem_cons_self
    have hlow : ∀ k < i, k ∈ as := by
      intro k hk
      have hmem : k ∈ List.range cursorCacheSize := List.mem_range.mpr (hk.trans hsize)
      have hsorted := hrange ▸ List.pairwise_lt_range (n := cursorCacheSize)
      rw [hrange, List.mem_append, List.mem_cons] at hmem
      rcases hmem with hmem | rfl | hmem
      · exact hmem
      · exact absurd hk (Nat.lt_irrefl k)
      · have := (List.pairwise_cons.mp (List.pairwise_append.mp hsorted).2.1).1 k hmem
        exact absurd this (Nat.not_lt_of_gt hk)
    have hfull : ∀ k < i, k < h → room (f k).1.length (f.node l (k + 1)).children.length
      = false := by
      intro k hk hkh
      have := hbefore k (hlow k hk)
      rwa [hat k hkh (hk.trans hsize), Bool.not_eq_true'] at this
    rcases Nat.lt_or_ge i h with hih | hih
    · left
      rw [hat i hih hsize] at hi
      exact ⟨i, hih, hsize, rfl, hc.follows i hih hsize, hi, fun k hk ↦ hfull k hk (hk.trans hih)⟩
    · right; left
      exact ⟨i, rfl, hc.above i hih hsize, fun k hk ↦ hfull k (Nat.lt_of_lt_of_le hk hih) hk⟩

/-- A move to another child of a cached level leads along a path again, which differs from the one
before it from that level down. -/
theorem OnPath.moves (hroot : h = 0 ∨ root.Inner h) (hc : c.OnPath f l)
    {pick : (h : ℕ) → List (Node L h) → Unit → Option (ℕ × Unit)}
    {P : List L → List L → List L → Unit → Prop} (hpick : Keeps pick P) {i : ℕ} (hi : i < h)
    (hsize : i < cursorCacheSize) {ns₁ ns₂ : List (Node L i)} {n : Node L i}
    (hns : (f.node l (i + 1)).children = ns₁ ++ n :: ns₂) (hP : P [] (Node.leaves i n) [] ()) :
    ∃ cache l' g, moveTo pick c.cache i (f.node l (i + 1)) ns₁.length = some (cache, l') ∧
      n = Frames.node g l' i ∧ P (g.before i) [l'] (g.after i) () ∧
      root = (f.splice g i (ns₁, ns₂)).node l' h ∧ cache.Follows (f.splice g i (ns₁, ns₂)) l' h ∧
      ∀ k, h ≤ k → k < cursorCacheSize → cache k = none := by
  have hn : n ∈ (f.node l (i + 1)).children := by
    rw [hns]
    exact List.mem_append_right _ List.mem_cons_self
  obtain ⟨cache, l', s, g, hdescend, hnode, hfollows, hrest, hP'⟩ :=
    descendBy_path hpick (.inr ((hc.inner hroot hi).2.2 n hn)) hP
      (Function.update c.cache i (some (f.node l (i + 1), ns₁.length)))
  have hget : (f.node l (i + 1)).children[ns₁.length]? = some n := by
    rw [hns, List.getElem?_append_right (Nat.le_refl _), Nat.sub_self]
    rfl
  have habove : ∀ j > i, f.splice g i (ns₁, ns₂) j = f j := fun j hj ↦ Frames.splice_of_gt hj
  have hlevel : (f.splice g i (ns₁, ns₂)).node l' (i + 1) = f.node l (i + 1) := by
    change _ = (f.node l (i + 1)).children
    rw [hns, hnode, Frames.node, Frames.splice_self, (Frames.splice_below l').1]
  have hnodes : ∀ k, i < k → (f.splice g i (ns₁, ns₂)).node l' k = f.node l k := fun k hk ↦
    Frames.node_congr_above habove hlevel hk
  refine ⟨cache, l', g, ?_, hnode, by simpa using hP', (hnodes h hi).symm ▸ hc.node, ?_, ?_⟩
  · simp only [moveTo, hget, hdescend, Option.bind_eq_bind, Option.bind_some]
    rfl
  · intro k hk hksize
    rcases Nat.lt_trichotomy k i with hki | rfl | hki
    · have hbelow : ∀ j < k + 1, f.splice g i (ns₁, ns₂) j = g j := fun j hj ↦
        Frames.splice_of_lt (Nat.lt_of_lt_of_le hj hki)
      rw [hfollows k hki hksize, (Frames.congr_below hbelow).1, Frames.splice_of_lt hki]
    · rw [hrest k (.inl (Nat.le_refl k)), Function.update_self, hlevel, Frames.splice_self]
    · rw [hrest k (.inl hki.le), Function.update_of_ne hki.ne', hc.follows k hk hksize,
        hnodes (k + 1) (Nat.lt_succ_of_lt hki), Frames.splice_of_gt hki]
  · intro k hk hksize
    rw [hrest k (.inl (hi.le.trans hk)), Function.update_of_ne (hi.trans_le hk).ne']
    exact hc.above k hk hksize

/-- A position lies in one leaf only. -/
theorem eq_of_holds {p : ℕ} (heq : pre ++ l :: post = pre' ++ l' :: post')
    (hle : lenOf pre ≤ p) (hlt : p < lenOf pre + Leaf.len l) (hle' : lenOf pre' ≤ p)
    (hlt' : p < lenOf pre' + Leaf.len l') : pre = pre' ∧ l = l' ∧ post = post' := by
  rcases List.append_eq_append_iff.mp heq with ⟨as, rfl, has⟩ | ⟨as, rfl, has⟩
  all_goals
    cases as with
    | nil =>
      obtain ⟨rfl, rfl⟩ := List.cons.inj has
      exact ⟨by rw [List.append_nil], rfl, rfl⟩
    | cons a as =>
      obtain ⟨rfl, -⟩ := List.cons.inj has
      rw [lenOf_append, lenOf_cons] at *
      omega

/-- The path moves right at the lowest cached level that has a sibling there. -/
theorem OnPath.nextLeaf_of_level (hroot : h = 0 ∨ root.Inner h) (hc : c.OnPath f l)
    (hleaf : c.leaf = some l) {i : ℕ} (hi : i < h) (hsize : i < cursorCacheSize)
    (hlevel : levelFor c.cache (fun j len ↦ j + 1 < len) = some i)
    (hroom : (f i).2 ≠ []) (hfull : ∀ k < i, (f k).2 = []) :
    ∃ l' post', f.after h = l' :: post' ∧ c.nextLeaf.At (f.before h ++ [l]) l' post' ∧
      c.nextLeaf.leaf = some l' ∧ c.nextLeaf.position = lenOf (f.before h ++ [l]) := by
  obtain ⟨n, ns, hsiblings⟩ := List.exists_cons_of_ne_nil hroom
  have hns : (f.node l (i + 1)).children = ((f i).1 ++ [f.node l i]) ++ n :: ns := by
    rw [Frames.children_node, hsiblings, List.append_assoc]
    rfl
  obtain ⟨cache, l', g, hmove, -, hbefore, hnode, hfollows, habove⟩ :=
    hc.moves hroot keeps_pickFirst hi hsize hns rfl
  have hlevel' : (f.splice g i ((f i).1 ++ [f.node l i], ns)).before (i + 1)
      = f.before (i + 1) ++ [l] := by
    rw [Frames.before, Frames.splice_self, (Frames.splice_below l).2.1, hbefore, List.append_nil,
      Node.leavesOf_append, Node.leavesOf_cons, Node.leavesOf_nil, List.append_nil,
      Frames.leaves_node, Frames.after_eq_nil hfull, Frames.before, List.append_assoc]
  have hpre := Frames.before_congr_above (fun j hj ↦ (Frames.splice_of_gt hj).symm) hlevel' hi
  have hposition : c.offsetOfLeaf + Leaf.len l = lenOf (f.before h ++ [l]) := by
    rw [hc.offset, lenOf_append, lenOf_cons, lenOf_nil, Nat.add_zero]
  have hnext : c.nextLeaf
      = ⟨lenOf (f.before h ++ [l]), cache, some l', lenOf (f.before h ++ [l])⟩ := by
    rw [List.length_append, List.length_singleton] at hmove
    simp only [nextLeaf, hleaf, hlevel, hc.follows i hi hsize, hmove, hposition]
  have hat : c.nextLeaf.At (f.before h ++ [l]) l'
      ((f.splice g i ((f i).1 ++ [f.node l i], ns)).after h) := by
    rw [hnext]
    exact ⟨_, ⟨hnode, hfollows, habove, by rw [hpre]⟩, hpre, rfl⟩
  refine ⟨l', _, ?_, hat, by rw [hnext], by rw [hnext]⟩
  have hleaves := hat.leaves
  rw [hc.node, Frames.leaves_node, List.append_assoc] at hleaves
  exact List.tail_eq_of_cons_eq (List.append_cancel_left hleaves)

/-- Where the descent of a position of the tree ends. -/
theorem descend_eq (hroot : h = 0 ∨ root.Inner h) (hc : c.NoneAbove)
    (hleaves : Node.leaves h root = pre ++ l :: post) (hle : lenOf pre ≤ c.position)
    (hlt : c.position < lenOf pre + Leaf.len l) : c.descend.At pre l post ∧
      c.descend.leaf = some l ∧ c.descend.position = c.position := by
  obtain ⟨pre', l', post', hat, hleaf, hposition, hle', hlt'⟩ := descend_at hroot hc
  have heq := hleaves.symm.trans hat.leaves
  have hlt'' : c.position < lenOf pre' + Leaf.len l' := by
    rcases hlt' with hlt' | rfl
    · exact hlt'
    · have hlen := congrArg lenOf heq
      simp only [lenOf_append, lenOf_cons, lenOf_nil] at hlen
      omega
  obtain ⟨rfl, rfl, rfl⟩ := eq_of_holds heq hle hlt hle' hlt''
  exact ⟨hat, hleaf, hposition⟩

/-- A leaf next to another is not empty. -/
theorem pos_of_leaves (hroot : h = 0 ∨ root.Inner h) (hleaves : Node.leaves h root = pre)
    (hlen : 1 < pre.length) : ∀ l ∈ pre, 0 < Leaf.len l := by
  rcases hroot with rfl | hroot
  · rw [← hleaves] at hlen
    exact absurd hlen (Nat.lt_irrefl 1)
  · exact hleaves ▸ hroot.pos

omit [Leaf L] in
/-- Without room to the right on a level there are no siblings there. -/
theorem not_room_right {k : ℕ}
    (hk : decide ((f k).1.length + 1 < (f.node l (k + 1)).children.length)
    = false) : (f k).2 = [] := by
  rw [Frames.children_node, List.length_append, List.length_cons, decide_eq_false_iff_not] at hk
  exact List.eq_nil_of_length_eq_zero (by omega)

/-- The next leaf, at its beginning, or none after the last one. -/
theorem At.nextLeaf (hroot : h = 0 ∨ root.Inner h) (hc : c.At pre l post)
    (hleaf : c.leaf = some l) :
    (post = [] ∧ c.nextLeaf.At pre l post ∧ c.nextLeaf.leaf = none ∧
        c.nextLeaf.position = root.len) ∨
      ∃ l' post', post = l' :: post' ∧ c.nextLeaf.At (pre ++ [l]) l' post' ∧
        c.nextLeaf.leaf = some l' ∧ c.nextLeaf.position = lenOf (pre ++ [l]) := by
  have hlen := hc.len
  have hoffset := hc.offset
  obtain ⟨f, hf, rfl, rfl⟩ := hc
  rcases hf.level_cases fun j len ↦ decide (j + 1 < len) with
    ⟨i, hi, hsize, hlevel, hcache, hroom, hfull⟩ | ⟨i, hlevel, hcache, hfull⟩ |
      ⟨hlevel, hsize, hfull⟩
  · right
    refine hf.nextLeaf_of_level hroot hleaf hi hsize hlevel ?_ fun k hk ↦
      not_room_right (hfull k hk)
    rintro hnil
    rw [Frames.children_node, List.length_append, List.length_cons, hnil] at hroom
    simp at hroom
  · left
    have hafter := Frames.after_eq_nil fun k hk ↦ not_room_right (hfull k hk)
    have hnext : c.nextLeaf = { c with position := c.offsetOfLeaf + Leaf.len l, leaf := none } := by
      simp only [Cursor.nextLeaf, hleaf, hlevel, hcache]
    rw [hnext]
    refine ⟨hafter, ⟨f, ⟨hf.node, hf.follows, hf.above, hf.offset⟩, rfl, rfl⟩, rfl, ?_⟩
    rw [hlen, hoffset, hafter, lenOf_nil, Nat.add_zero]
  · have hnext : c.nextLeaf = if c.offsetOfLeaf + Leaf.len l = root.len then
        { c with position := c.offsetOfLeaf + Leaf.len l, leaf := none }
        else descend { c with position := c.offsetOfLeaf + Leaf.len l } := by
      simp only [Cursor.nextLeaf, hleaf, hlevel]
    have hleaves : Node.leaves h root = f.before h ++ l :: f.after h := by
      rw [← Frames.leaves_node, ← hf.node]
    rw [hnext]
    cases hafter : f.after h with
    | nil =>
      left
      rw [hafter, lenOf_nil, Nat.add_zero] at hlen
      rw [if_pos (by rw [hlen, hoffset])]
      exact ⟨rfl, ⟨f, ⟨hf.node, hf.follows, hf.above, hf.offset⟩, rfl, hafter⟩, rfl,
        by rw [hlen, hoffset]⟩
    | cons l' post' =>
      right
      rw [hafter] at hleaves hlen
      have hpos := pos_of_leaves hroot hleaves (by simp; omega) l' (by simp)
      rw [lenOf_cons] at hlen
      rw [if_neg (by omega)]
      have hposition : lenOf (f.before h ++ [l]) = c.offsetOfLeaf + Leaf.len l := by
        rw [lenOf_append, lenOf_cons, lenOf_nil, Nat.add_zero, hoffset]
      have hleaves' : Node.leaves h root = (f.before h ++ [l]) ++ l' :: post' := by
        rw [hleaves, List.append_assoc]
        rfl
      obtain ⟨hat, hleaf', hpos'⟩ :=
        descend_eq (c := { c with position := c.offsetOfLeaf + Leaf.len l })
        hroot hf.above hleaves' hposition.le (by
          rw [hposition]
          exact Nat.lt_add_of_pos_right hpos)
      exact ⟨l', post', rfl, hat, hleaf', hpos'.trans hposition.symm⟩

/-- The path moves left at the lowest cached level that has a sibling there. -/
theorem OnPath.prevLeaf_of_level (hroot : h = 0 ∨ root.Inner h) (hc : c.OnPath f l)
    {i : ℕ} (hi : i < h) (hsize : i < cursorCacheSize) (hroom : 0 < (f i).1.length)
    (hfull : ∀ k < i, (f k).1 = []) :
    ∃ pre' l' cache, f.before h = pre' ++ [l'] ∧
      moveTo pickLast c.cache i (f.node l (i + 1)) ((f i).1.length - 1) = some (cache, l') ∧
      ∀ d : Cursor root, d.cache = cache → d.offsetOfLeaf = lenOf pre' →
        d.At pre' l' (l :: f.after h) := by
  obtain ⟨ns, n, hsiblings⟩ := List.eq_nil_or_concat' (f i).1 |>.resolve_left
    (List.ne_nil_of_length_pos hroom)
  have hns : (f.node l (i + 1)).children = ns ++ n :: (f.node l i :: (f i).2) := by
    rw [Frames.children_node, hsiblings, List.append_assoc]
    rfl
  obtain ⟨cache, l', g, hmove, hn, hafter, hnode, hfollows, habove⟩ :=
    hc.moves hroot keeps_pickLast hi hsize hns rfl
  have hlevel : f.before (i + 1)
      = (f.splice g i (ns, f.node l i :: (f i).2)).before (i + 1) ++ [l'] := by
    rw [Frames.before, Frames.before, Frames.splice_self, (Frames.splice_below l).2.1, hsiblings,
      Frames.before_eq_nil hfull, Node.leavesOf_append, Node.leavesOf_cons, hn, Frames.leaves_node,
      hafter]
    simp
  have hpre := Frames.before_congr_above (fun j hj ↦ Frames.splice_of_gt hj) hlevel hi
  refine ⟨_, l', cache, hpre, ?_, ?_⟩
  · rwa [hsiblings, List.length_append, List.length_singleton, Nat.add_sub_cancel]
  · intro d hcache hoffset
    have hat : d.At ((f.splice g i (ns, f.node l i :: (f i).2)).before h) l'
        ((f.splice g i (ns, f.node l i :: (f i).2)).after h) :=
      ⟨_, ⟨hnode, hcache ▸ hfollows, hcache ▸ habove, hoffset⟩, rfl, rfl⟩
    have hleaves := hat.leaves
    rw [hc.node, Frames.leaves_node, hpre, List.append_assoc] at hleaves
    have := List.tail_eq_of_cons_eq (List.append_cancel_left hleaves)
    rw [List.append_eq, List.nil_append] at this
    rwa [this]

omit [Leaf L] in
/-- Without room to the left on a level there are no siblings there. -/
theorem not_room_left {k : ℕ} (hk : decide (0 < (f k).1.length) = false) : (f k).1 = [] := by
  rw [decide_eq_false_iff_not, Nat.not_lt] at hk
  exact List.eq_nil_of_length_eq_zero (Nat.le_zero.mp hk)

/-- There is no leaf before the first one. -/
theorem At.prevLeaf_nil (hc : c.At [] l post) :
    c.prevLeaf.At [] l post ∧ c.prevLeaf.leaf = none ∧ c.prevLeaf.position = 0 := by
  have hprev : c.prevLeaf = { c with leaf := none, position := 0 } := if_pos hc.offset
  rw [hprev]
  exact ⟨hc.congr rfl rfl, rfl, rfl⟩

/-- What lies before a leaf that is not the first. -/
theorem At.offset_pos (hroot : h = 0 ∨ root.Inner h) (hc : c.At (pre ++ [l']) l post) :
    0 < Leaf.len l' ∧ c.offsetOfLeaf = lenOf pre + Leaf.len l' := by
  refine ⟨pos_of_leaves hroot hc.leaves (by simp; omega) l' (by simp), ?_⟩
  rw [hc.offset, lenOf_append, lenOf_cons, lenOf_nil, Nat.add_zero]

/-- The descent of the position before the leaf goes to the leaf before it. -/
theorem At.descend_before (hroot : h = 0 ∨ root.Inner h) (hc : c.At (pre ++ [l']) l post)
    {d : Cursor root} (hd : d.NoneAbove) (hposition : d.position = c.offsetOfLeaf - 1) :
    d.descend.At pre l' (l :: post) ∧ d.descend.leaf = some l' := by
  obtain ⟨hpos, hoffset⟩ := hc.offset_pos hroot
  have hleaves : Node.leaves h root = pre ++ l' :: (l :: post) := by
    rw [hc.leaves, List.append_assoc]
    rfl
  obtain ⟨hat, hleaf, -⟩ := descend_eq hroot hd hleaves (by omega) (by omega)
  exact ⟨hat, hleaf⟩

theorem leafAt_eq (c : Cursor root) (p : ℕ) :
    c.leafAt p = (new root p).leaf.map fun l ↦ (l, (new root p).offsetOfLeaf) := by
  rw [leafAt, new, descend]
  dsimp only
  cases descendBy (pickOffset p) h root 0 fun _ ↦ none with
  | none => rfl
  | some r => rfl

/-- The leaf before, at its beginning. -/
theorem At.prevLeaf (hroot : h = 0 ∨ root.Inner h) (hc : c.At (pre ++ [l']) l post) :
    c.prevLeaf.At pre l' (l :: post) ∧ c.prevLeaf.leaf = some l' ∧
      c.prevLeaf.position = lenOf pre := by
  obtain ⟨hpos, hoffset⟩ := hc.offset_pos hroot
  have hne : c.offsetOfLeaf ≠ 0 := by omega
  obtain ⟨hat, hleaf⟩ := hc.descend_before (d := { c with position := c.offsetOfLeaf - 1 }) hroot
    hc.noneAbove rfl
  obtain ⟨f, hf, hbefore, rfl⟩ := hc
  rcases hf.level_cases fun j _ ↦ decide (0 < j) with
    ⟨i, hi, hsize, hlevel, hcache, hroom, hfull⟩ | ⟨i, hlevel, hcache, hfull⟩ |
      ⟨hlevel, hsize, hfull⟩
  · obtain ⟨pre', l'', cache, hpre, hmove, hat'⟩ := hf.prevLeaf_of_level hroot hi hsize
      (of_decide_eq_true hroom) fun k hk ↦ not_room_left (hfull k hk)
    obtain ⟨rfl, hl⟩ := List.append_inj' (hbefore.symm.trans hpre) rfl
    obtain rfl := List.singleton_inj.mp hl
    have hprev : c.prevLeaf = ⟨lenOf pre, cache, some l', lenOf pre⟩ := by
      have hoff : c.offsetOfLeaf - Leaf.len l' = lenOf pre := by omega
      simp only [Cursor.prevLeaf, if_neg hne, hlevel, hcache, hmove, hoff]
    rw [hprev]
    exact ⟨hat' _ rfl rfl, rfl, rfl⟩
  · have hnil := Frames.before_eq_nil fun k hk ↦ not_room_left (hfull k hk)
    rw [hnil] at hbefore
    exact absurd hbefore.symm (List.append_ne_nil_of_right_ne_nil _ (List.cons_ne_nil _ _))
  · simp only [Cursor.prevLeaf, if_neg hne, hlevel]
    exact ⟨hat.congr rfl rfl, hleaf, hat.offset⟩

/-- A look at the leaf before. -/
theorem At.peekPrevLeaf (hroot : h = 0 ∨ root.Inner h) (hc : c.At (pre ++ [l']) l post) :
    c.peekPrevLeaf = some (l', lenOf pre) := by
  obtain ⟨hpos, hoffset⟩ := hc.offset_pos hroot
  have hne : c.offsetOfLeaf ≠ 0 := by omega
  have hoff : c.offsetOfLeaf - Leaf.len l' = lenOf pre := by omega
  have hleafAt : c.leafAt (c.offsetOfLeaf - 1) = some (l', lenOf pre) := by
    obtain ⟨hat, hleaf⟩ := hc.descend_before
      (d := ⟨c.offsetOfLeaf - 1, fun _ ↦ none, none, 0⟩) hroot
      (fun _ _ _ ↦ rfl) rfl
    rw [leafAt_eq, new, hleaf, Option.map_some, hat.offset]
  obtain ⟨f, hf, hbefore, rfl⟩ := hc
  rcases hf.level_cases fun j _ ↦ decide (0 < j) with
    ⟨i, hi, hsize, hlevel, hcache, hroom, hfull⟩ | ⟨i, hlevel, hcache, hfull⟩ |
      ⟨hlevel, hsize, hfull⟩
  · obtain ⟨pre', l'', cache, hpre, hmove, hat⟩ := hf.prevLeaf_of_level hroot hi hsize
      (of_decide_eq_true hroom) fun k hk ↦ not_room_left (hfull k hk)
    obtain ⟨rfl, hl⟩ := List.append_inj' (hbefore.symm.trans hpre) rfl
    obtain rfl := List.singleton_inj.mp hl
    simp only [Cursor.peekPrevLeaf, if_neg hne, hlevel, hcache, hmove, hoff, Option.bind_some,
      Option.map_some]
  · simp only [Cursor.peekPrevLeaf, if_neg hne, hlevel, hcache, Option.bind_some, Option.map_none,
      hleafAt]
  · simp only [Cursor.peekPrevLeaf, if_neg hne, hlevel, Option.bind_none, hleafAt]

end Cursor

end EeEditor.BTree
