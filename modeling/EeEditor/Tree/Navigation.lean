import EeEditor.Tree.Boundaries

/-!
# Navigation

The operations of a cursor against the whole content: `set` goes where it should except over its
shortcut to the leaf before, and a valid cursor finds the boundaries around its position.
-/

namespace EeEditor.BTree

variable {L : Type} [Leaf L] {h : ℕ} {M : Metric L} {pre post : List L} {l : L} {p m : ℕ}

/-- The leaf of a position among the leaves of two pieces. -/
theorem split_leaves {as bs : List L} (heq : as ++ bs = pre ++ l :: post) (hle : lenOf pre ≤ p)
    (hlt : p < lenOf pre + Leaf.len l) :
    (p < lenOf as ∧ ∃ post', as = pre ++ l :: post') ∨
      (lenOf as ≤ p ∧ ∃ pre', pre = as ++ pre' ∧ bs = pre' ++ l :: post) := by
  rcases List.append_eq_append_iff.mp heq with ⟨cs, rfl, hbs⟩ | ⟨cs, rfl, hcs⟩
  · right
    rw [lenOf_append] at hle
    exact ⟨by omega, cs, rfl, hbs⟩
  · cases cs with
    | nil =>
      right
      refine ⟨by simpa using hle, [], by simp, ?_⟩
      simpa using hcs.symm
    | cons c cs =>
      obtain ⟨rfl, -⟩ := List.cons.inj hcs
      left
      rw [lenOf_append, lenOf_cons]
      exact ⟨by omega, cs, rfl⟩

/-- The measure before the leaf of a position. -/
theorem measureLeafFrom_eq : (h : ℕ) → (n : Node L h) → (pre post : List L) → (p m : ℕ) →
    Node.leaves h n = pre ++ l :: post → lenOf pre ≤ p → p < lenOf pre + Leaf.len l →
      measureLeafFrom M h n p m = some (m + measureOf M pre)
  | 0, n, pre, post, p, m, hn, _, _ => by
    have hpre : pre = [] := by
      have hlen : 1 = (pre ++ l :: post).length := congrArg List.length hn
      rw [List.length_append, List.length_cons] at hlen
      exact List.eq_nil_of_length_eq_zero (by omega)
    rw [measureLeafFrom, hpre, measureOf_nil, Nat.add_zero]
  | h + 1, n, pre, post, p, m, hn, hle, hlt => by
    rw [measureLeafFrom]
    rw [Node.leaves_succ] at hn
    generalize n.children = cs at hn ⊢
    induction cs generalizing pre p m with
    | nil => simp at hn
    | cons c cs ih =>
      rw [Node.leavesOf_cons] at hn
      rw [measureLeafFrom.scan, Node.len_eq]
      rcases split_leaves hn hle hlt with ⟨hin, post', hc⟩ | ⟨hout, pre', rfl, hcs⟩
      · rw [if_pos hin, measureLeafFrom_eq h c pre post' p m hc hle hlt]
      · rw [lenOf_append] at hle hlt
        rw [if_neg (by omega), ih pre' _ _ (by omega) (by omega) hcs, Node.measure_eq,
          measureOf_append, Nat.add_assoc]

namespace Cursor

variable {root : Node L h} {c : Cursor root}

/-- A valid cursor: its leaf holds its position, which is at the end of the leaf only at the end of
the tree. -/
structure Stands (c : Cursor root) (pre : List L) (l : L) (post : List L) : Prop where
  at_leaf : c.At pre l post
  leaf : c.leaf = some l
  le : lenOf pre ≤ c.position
  lt : c.position < lenOf pre + Leaf.len l ∨ (post = [] ∧ c.position = lenOf pre + Leaf.len l)

theorem Stands.le_end (hc : c.Stands pre l post) : c.position ≤ lenOf pre + Leaf.len l := by
  rcases hc.lt with hlt | ⟨-, heq⟩
  · exact hlt.le
  · exact heq.le

/-- The position within the leaf. -/
theorem Stands.exists_offset (hc : c.Stands pre l post) :
    ∃ o, c.position = lenOf pre + o ∧ c.position - c.offsetOfLeaf = o ∧ o ≤ Leaf.len l := by
  have := hc.le_end
  obtain ⟨o, ho⟩ := Nat.exists_eq_add_of_le hc.le
  exact ⟨o, ho, by rw [hc.at_leaf.offset, ho, Nat.add_sub_cancel_left], by omega⟩

/-- A position of the tree that no leaf before the last one holds is held by the last. -/
theorem stands_of_le (hat : c.At pre l post) (hleaf : c.leaf = some l)
    (hle : lenOf pre ≤ c.position)
    (hlt : c.position < lenOf pre + Leaf.len l ∨ post = []) (hlen : c.position ≤ root.len) :
    c.Stands pre l post := by
  refine ⟨hat, hleaf, hle, ?_⟩
  rcases hlt with hlt | rfl
  · exact .inl hlt
  · have := hat.len
    rw [lenOf_nil, Nat.add_zero] at this
    rcases Nat.lt_or_ge c.position (lenOf pre + Leaf.len l) with hlt | hge
    · exact .inl hlt
    · exact .inr ⟨rfl, by omega⟩

theorem At.measureLeaf (hc : c.At pre l post) (hpos : 0 < Leaf.len l)
    (M : Metric L) : c.measureLeaf M (lenOf pre) = some (measureOf M pre) := by
  have := measureLeafFrom_eq (M := M) h root pre post (lenOf pre) 0 hc.leaves (Nat.le_refl _)
    (by omega)
  rwa [Nat.zero_add] at this

/-! ## Forwards -/

/-- A boundary that is found ahead in the leaf is where the cursor goes, valid if the boundary is in
the leaf. -/
theorem Stands.nextInsideLeaf_some (hroot : h = 0 ∨ root.Inner h) (hc : c.Stands pre l post)
    {o q : ℕ}
    (ho : c.position - c.offsetOfLeaf = o) (hq : M.next l o = some q) :
    ∃ d, c.nextInsideLeaf M = some d ∧ d.position = lenOf pre + q ∧
      (q ≤ Leaf.len l → ∃ pre' l' post', d.Stands pre' l' post') := by
  have hoffset := hc.at_leaf.offset
  have hlen := hc.at_leaf.len
  by_cases hend : q = Leaf.len l ∧ c.offsetOfLeaf + q ≠ root.len
  · obtain ⟨rfl, hne⟩ := hend
    refine ⟨c.nextLeaf, ?_, ?_⟩
    · simp only [nextInsideLeaf, hc.leaf, ho, hq, Option.bind_eq_bind, Option.bind_some]
      rw [if_pos ⟨trivial, hne⟩]
      rfl
    · rcases hc.at_leaf.nextLeaf hroot hc.leaf with ⟨rfl, -⟩ | ⟨l', post', rfl, hat, hleaf, hpos⟩
      · rw [lenOf_nil] at hlen
        omega
      · refine ⟨by simpa using hpos, fun _ ↦ ⟨pre ++ [l], l', post', hat, hleaf, hpos.ge, .inl ?_⟩⟩
        have := pos_of_leaves hroot hat.leaves (by simp; omega) l' (by simp)
        omega
  · refine ⟨{ c with position := c.offsetOfLeaf + q }, ?_, by rw [hoffset], ?_⟩
    · simp only [nextInsideLeaf, hc.leaf, ho, hq, Option.bind_eq_bind, Option.bind_some,
        if_neg hend]
      rfl
    · intro hle
      refine ⟨pre, l, post, hc.at_leaf.congr rfl rfl, hc.leaf, by simp [hoffset], ?_⟩
      dsimp only
      rw [hoffset]
      rcases Nat.lt_or_ge q (Leaf.len l) with hlt | hge
      · exact .inl (by omega)
      · obtain rfl : q = Leaf.len l := by omega
        refine .inr ⟨?_, rfl⟩
        cases post with
        | nil => rfl
        | cons l' post =>
          have := pos_of_leaves hroot hc.at_leaf.leaves (by simp; omega) l' (by simp)
          rw [lenOf_cons] at hlen
          refine absurd ⟨rfl, ?_⟩ hend
          omega

theorem Stands.nextInsideLeaf_none (hc : c.Stands pre l post) {o : ℕ}
    (ho : c.position - c.offsetOfLeaf = o) (hq : M.next l o = none) :
    c.nextInsideLeaf M = none := by
  simp only [nextInsideLeaf, hc.leaf, ho, hq, Option.bind_eq_bind, Option.bind_some,
    Option.bind_none]

/-- Without a boundary ahead in the leaf, the metric is one that fragments. -/
theorem canFragment_of_next (hM : M.Lawful) {o : ℕ} (ho : o < Leaf.len l)
    (hnone : IsNext (M.boundaries l) o none) : M.canFragment = true := by
  by_contra hatomic
  rw [Bool.not_eq_true] at hatomic
  have := hnone _ (hM.isBoundary_len hatomic (l := l))
  omega

theorem measure_eq_zero_of_next (hM : M.Lawful) (hfragment : M.canFragment = true)
    (hnone : IsNext (M.boundaries l) 0 none) : M.measure l = 0 := by
  refine (hM.measure_eq_zero hfragment).mpr (Set.eq_empty_iff_forall_notMem.mpr fun q hq ↦ ?_)
  obtain rfl := Nat.le_zero.mp (hnone q hq)
  rw [mem_boundaries, hM.isBoundary_zero, hfragment] at hq
  exact Bool.false_ne_true hq

/-- The descent to the next unit of a measure passes over leaves without measure only. -/
theorem descendMetric_next (hroot : h = 0 ∨ root.Inner h) (hc : c.At pre l post) :
    ∃ mid l' post', (c.descendMetric M (measureOf M pre + 1)).Stands (pre ++ mid) l' post' ∧
      (c.descendMetric M (measureOf M pre + 1)).position = lenOf (pre ++ mid) ∧
      measureOf M mid = 0 ∧ (0 < M.measure l' ∨ post' = []) := by
  obtain ⟨P, l', post', hat, hleaf, hpos, hlt, hle⟩ :=
    descendMetric_at hroot hc.noneAbove M (show 0 < measureOf M pre + 1 from Nat.succ_pos _)
  have heq := hat.leaves.symm.trans hc.leaves
  have hP : ∃ mid, P = pre ++ mid := by
    rcases List.append_eq_append_iff.mp heq with ⟨as, rfl, has⟩ | ⟨as, rfl, -⟩
    · cases as with
      | nil => exact ⟨[], by simp⟩
      | cons a as =>
        obtain ⟨rfl, rfl⟩ := List.cons.inj has
        rw [measureOf_append, measureOf_cons] at hle
        rcases hle with hle | hle
        · omega
        · simp at hle
    · exact ⟨as, rfl⟩
  obtain ⟨mid, rfl⟩ := hP
  rw [measureOf_append] at hlt hle
  have hlen := hat.len
  refine ⟨mid, l', post', stands_of_le hat hleaf hpos.ge ?_ (by omega), hpos, by omega,
    hle.imp_left fun hle ↦ by omega⟩
  rcases Nat.eq_zero_or_pos (Leaf.len l') with hzero | hposl
  · right
    cases post' with
    | nil => rfl
    | cons l'' post'' =>
      have := pos_of_leaves hroot hat.leaves (by simp; omega) l' (by simp)
      omega
  · exact .inl (by omega)

/-- A cursor as the operations leave it: valid, or with a path to some leaf. -/
def Sound (c : Cursor root) : Prop :=
  ∃ pre l post, c.At pre l post ∧ (c.leaf = none ∨ c.Stands pre l post)

theorem Stands.sound (hc : c.Stands pre l post) : c.Sound := ⟨pre, l, post, hc.at_leaf, .inr hc⟩

theorem At.sound (hc : c.At pre l post) (hleaf : c.leaf = none) : c.Sound :=
  ⟨pre, l, post, hc, .inl hleaf⟩

/-- A cursor that is made invalid keeps its path. -/
theorem At.invalidate (hc : c.At pre l post) (position : ℕ) :
    ({ c with position, leaf := none } : Cursor root).Sound :=
  ⟨pre, l, post, hc.congr rfl rfl, .inl rfl⟩

/-- The condition under which `next` gives up at once. -/
theorem Stands.not_ended (hc : c.Stands pre l post) (hlt : c.position < lenOf pre + Leaf.len l) :
    ¬ (root.len ≤ c.position ∨ c.leaf.isNone = true) := by
  have hlen := hc.at_leaf.len
  rw [hc.leaf, Option.isNone_some]
  simp only [Bool.false_eq_true, or_false]
  omega

/-- The boundary that the leaf finds ahead of the position is what `next` returns. -/
theorem Stands.next_some (hroot : h = 0 ∨ root.Inner h) (hc : c.Stands pre l post) {o q : ℕ}
    (hposition : c.position = lenOf pre + o) (ho : o < Leaf.len l) (hq : M.next l o = some q) :
    (c.next M).2 = some (lenOf pre + q) ∧ (q ≤ Leaf.len l → (c.next M).1.Sound) := by
  have hoffset : c.position - c.offsetOfLeaf = o := by
    rw [hc.at_leaf.offset, hposition, Nat.add_sub_cancel_left]
  obtain ⟨d, hd, hpos, hstands⟩ := hc.nextInsideLeaf_some hroot hoffset hq
  have hnext : c.next M = d.found := by
    rw [next, if_neg (hc.not_ended (by omega)), hd]
  rw [hnext, found, hpos]
  refine ⟨rfl, fun hle ↦ ?_⟩
  obtain ⟨pre', l', post', hd'⟩ := hstands hle
  exact hd'.sound

/-- What `next` does once it has gone on to a leaf. -/
def nextFromLeaf (self : Cursor root) (M : Metric L) : Cursor root × Option ℕ :=
  match self.nextInsideLeaf M with
  | some self => self.found
  | none =>
    match self.measureLeaf M self.position with
    | none => ({ self with leaf := none }, none)
    | some measure =>
      let self := self.descendMetric M (measure + 1)
      match self.nextInsideLeaf M with
      | some self => self.found
      | none => ({ self with position := root.len, leaf := none }, none)

theorem next_eq (c : Cursor root) (M : Metric L) : c.next M
    = if root.len ≤ c.position ∨ c.leaf.isNone then ({ c with leaf := none }, none)
      else match c.nextInsideLeaf M with
        | some self => self.found
        | none => if c.nextLeaf.leaf.isNone then (c.nextLeaf, none)
                    else c.nextLeaf.nextFromLeaf M :=
  rfl

/-- A boundary after the beginning of the leaf is found inside it. -/
theorem Stands.nextInsideLeaf_zero (hroot : h = 0 ∨ root.Inner h) (hM : M.Lawful)
    (hc : c.Stands pre l post) (hposition : c.position = lenOf pre) :
    (∃ d, c.nextInsideLeaf M = some d ∧ d.Sound ∧
        IsNext (boundariesOf M (pre ++ l :: post)) (lenOf pre) (some d.position)) ∨
      (c.nextInsideLeaf M = none ∧ IsNext (M.boundaries l) 0 none) := by
  have hzero : c.position - c.offsetOfLeaf = 0 := by
    rw [hc.at_leaf.offset, hposition, Nat.sub_self]
  have hnext := hM.next_zero (l := l)
  cases hq : M.next l 0 with
  | some q =>
    left
    rw [hq] at hnext
    obtain ⟨d, hd, hdpos, hstands⟩ := hc.nextInsideLeaf_some hroot hzero hq
    obtain ⟨pre', l', post', hd'⟩ := hstands (hM.le_len hnext.1.1)
    exact ⟨d, hd, hd'.sound, hdpos ▸ hnext.whole hM⟩
  | none =>
    right
    exact ⟨hc.nextInsideLeaf_none hzero hq, hq ▸ hnext⟩

/-- From the beginning of a leaf the search finds the next boundary of the whole. -/
theorem Stands.nextFromLeaf (hroot : h = 0 ∨ root.Inner h) (hM : M.Lawful)
    (hc : c.Stands pre l post)
    (hposition : c.position = lenOf pre) (hpos : 0 < Leaf.len l) :
    IsNext (boundariesOf M (pre ++ l :: post)) (lenOf pre) (c.nextFromLeaf M).2 ∧
      (c.nextFromLeaf M).1.Sound := by
  rcases hc.nextInsideLeaf_zero hroot hM hposition with ⟨d, hd, hsound, hnext⟩ | ⟨hnone, hempty⟩
  · rw [Cursor.nextFromLeaf, hd]
    exact ⟨hnext, hsound⟩
  have hfragment := canFragment_of_next hM hpos hempty
  obtain ⟨mid, l', post', hstands, hposition', hmid, hmeasure⟩ :=
    descendMetric_next (M := M) hroot hc.at_leaf
  have hleaves := hstands.at_leaf.leaves.symm.trans hc.at_leaf.leaves
  have hgo : c.nextFromLeaf M
      = match (c.descendMetric M (measureOf M pre + 1)).nextInsideLeaf M with
        | some self => self.found
        | none => ({ c.descendMetric M (measureOf M pre + 1) with
            position := root.len, leaf := none }, none) := by
    simp only [Cursor.nextFromLeaf, hnone, hposition, hc.at_leaf.measureLeaf hpos M]
  -- no boundary lies between the leaf and the one that the descent goes to
  have hgap := le_of_measure_zero hM hfragment pre mid (l' :: post') hmid
  rw [← List.append_assoc, hleaves, ← lenOf_append] at hgap
  have hle : lenOf pre ≤ lenOf (pre ++ mid) := by
    rw [lenOf_append]
    omega
  rw [hgo]
  rcases hstands.nextInsideLeaf_zero hroot hM hposition' with ⟨d, hd, hsound, hnext⟩ |
    ⟨hnone', hempty'⟩
  · rw [hd]
    rw [hleaves] at hnext
    exact ⟨hnext.of_gap hle hgap, hsound⟩
  · rw [hnone']
    dsimp only
    have hlast : post' = [] := hmeasure.resolve_left
      (measure_eq_zero_of_next hM hfragment hempty').not_gt
    have hend : IsNext (boundariesOf M (pre ++ l :: post)) (lenOf (pre ++ mid) + 0) none := by
      rw [← hleaves, hlast]
      refine IsNext.pass hM (Nat.zero_le _) hempty' fun y hy ↦ ?_
      have := le_lenOf hM hy
      rwa [lenOf_append, lenOf_cons, lenOf_nil, Nat.add_zero] at this
    exact ⟨hend.of_gap hle hgap, hstands.at_leaf.invalidate _⟩

/-- Without a boundary ahead in the leaf, `next` finds the next one of the whole. -/
theorem Stands.next_none (hroot : h = 0 ∨ root.Inner h) (hM : M.Lawful) (hc : c.Stands pre l post)
    {o : ℕ} (hposition : c.position = lenOf pre + o) (ho : o < Leaf.len l)
    (hq : M.next l o = none) :
    IsNext (boundariesOf M (pre ++ l :: post)) c.position (c.next M).2 ∧ (c.next M).1.Sound := by
  have hoffset : c.position - c.offsetOfLeaf = o := by
    rw [hc.at_leaf.offset, hposition, Nat.add_sub_cancel_left]
  have hnone := hM.next_none ho.le hq
  rw [next_eq, if_neg (hc.not_ended (by omega)), hc.nextInsideLeaf_none hoffset hq]
  dsimp only
  rw [hposition]
  rcases hc.at_leaf.nextLeaf hroot hc.leaf with ⟨rfl, hat, hleaf, hpos⟩ |
    ⟨l', post', rfl, hat, hleaf, hpos⟩
  · rw [hleaf, Option.isNone_none, if_pos rfl]
    refine ⟨hnone.pass hM ho.le fun y hy ↦ ?_, hat.sound hleaf⟩
    have := le_lenOf hM hy
    simpa using this
  · rw [hleaf, Option.isNone_some, if_neg Bool.false_ne_true]
    have hpos' : 0 < Leaf.len l' := pos_of_leaves hroot hat.leaves (by simp; omega) l' (by simp)
    have hstands : c.nextLeaf.Stands (pre ++ [l]) l' post' := ⟨hat, hleaf, hpos.ge, .inl (by omega)⟩
    have hnext := hstands.nextFromLeaf hroot hM hpos hpos'
    rw [List.append_assoc, List.singleton_append, lenOf_append, lenOf_cons, lenOf_nil] at hnext
    exact ⟨hnone.pass hM ho.le hnext.1, hnext.2⟩

/-! ## Backwards -/

/-- What `prev` does once it has gone back to a leaf. -/
def prevFromLeaf (self : Cursor root) (M : Metric L) (origPos : ℕ) : Cursor root × Option ℕ :=
  match self.lastInsideLeaf M origPos with
  | some self => self.found
  | none =>
    match self.measureLeaf M self.position with
    | none => ({ self with leaf := none }, none)
    | some 0 => ({ self with leaf := none, position := 0 }, none)
    | some measure =>
      let self := self.descendMetric M measure
      match self.lastInsideLeaf M origPos with
      | some self => self.found
      | none => (self, none)

theorem prev_eq (c : Cursor root) (M : Metric L) : c.prev M
    = if c.position = 0 ∨ c.leaf.isNone then ({ c with leaf := none }, none)
      else match c.prevInsideLeaf M with
        | some self => self.found
        | none => if c.prevLeaf.leaf.isNone then (c.prevLeaf, none)
            else c.prevLeaf.prevFromLeaf M c.position :=
  rfl

/-- Without a boundary before a position in the leaf, the metric is one that fragments. -/
theorem canFragment_of_prev (hM : M.Lawful) {o : ℕ} (ho : 0 < o)
    (hprev : IsPrev (M.boundaries l) o none) : M.canFragment = true := by
  by_contra hatomic
  rw [Bool.not_eq_true] at hatomic
  have := hprev 0 (by rw [mem_boundaries, hM.isBoundary_zero, hatomic]; rfl)
  omega

/-- The last boundary of a leaf, as seen from a later position: `last_inside_leaf` finds it unless
there is none, and stands at the next leaf when it is the end of the leaf. -/
theorem Stands.lastInsideLeaf (hroot : h = 0 ∨ root.Inner h) (hM : M.Lawful)
    (hc : c.Stands pre l post) (hpost : post ≠ []) (hpos : 0 < Leaf.len l)
    (hp : lenOf pre + Leaf.len l ≤ p) :
    (∃ d, c.lastInsideLeaf M p = some d ∧ d.Sound ∧
        IsPrev (boundariesOf M (pre ++ l :: post))
          (min p (lenOf pre + Leaf.len l + 1)) (some d.position)) ∨
      (c.lastInsideLeaf M p = none ∧ M.canFragment = true ∧
        ∀ y ∈ boundariesOf M (pre ++ l :: post), y < min p (lenOf pre + Leaf.len l + 1) →
          y ≤ lenOf pre) := by
  have hoffset := hc.at_leaf.offset
  have hmem := mem_boundariesOf_leaf hM pre post hpos (Nat.le_refl _)
  by_cases hend : c.offsetOfLeaf + Leaf.len l < p ∧ M.isBoundary l (Leaf.len l) = true
  · left
    refine ⟨c.nextLeaf, ?_, ?_⟩
    · simp only [Cursor.lastInsideLeaf, hc.leaf, Option.bind_eq_bind, Option.bind_some, if_pos hend]
      rfl
    rcases hc.at_leaf.nextLeaf hroot hc.leaf with ⟨hnil, -⟩ | ⟨l', post', rfl, hat, hleaf, hpos'⟩
    · exact absurd hnil hpost
    have hl' := pos_of_leaves hroot hat.leaves (by simp; omega) l' (by simp)
    have hstands : c.nextLeaf.Stands (pre ++ [l]) l' post' :=
      ⟨hat, hleaf, hpos'.ge, .inl (by omega)⟩
    rw [lenOf_append, lenOf_cons, lenOf_nil, Nat.add_zero] at hpos'
    refine ⟨hstands.sound, ?_⟩
    rw [hpos', Nat.min_eq_right (by omega)]
    exact ⟨⟨hmem.mpr hend.2, Nat.lt_succ_self _⟩, fun y hy ↦ Nat.le_of_lt_succ hy.2⟩
  -- the end of the leaf is not a boundary before the position
  have hgap : ∀ y ∈ boundariesOf M (pre ++ l :: post), y < min p (lenOf pre + Leaf.len l + 1) →
      y < lenOf pre + Leaf.len l := by
    intro y hy hyp
    rw [Nat.lt_min] at hyp
    refine Nat.lt_of_le_of_ne (Nat.le_of_lt_succ hyp.2) ?_
    rintro rfl
    exact hend ⟨by omega, hmem.mp hy⟩
  have hprev := hM.prev (l := l) hpos (Nat.le_refl _)
  cases hq : M.prev l (Leaf.len l) with
  | some q =>
    left
    rw [hq] at hprev
    refine ⟨{ c with position := c.offsetOfLeaf + q }, ?_, ?_, ?_⟩
    · simp only [Cursor.lastInsideLeaf, hc.leaf, Option.bind_eq_bind, Option.bind_some, if_neg hend,
        hq]
      rfl
    · have hlt : q < Leaf.len l := hprev.1.2
      have hstands : ({ c with position := c.offsetOfLeaf + q } : Cursor root).Stands pre l post :=
        ⟨hc.at_leaf.congr rfl rfl, hc.leaf, by simp [hoffset], .inl (by simpa [hoffset] using hlt)⟩
      exact hstands.sound
    · dsimp only
      rw [hoffset]
      exact (hprev.whole hM (Nat.le_refl _)).of_gap (by omega) hgap
  | none =>
    right
    rw [hq] at hprev
    refine ⟨?_, ?_, fun y hy hyp ↦ hprev.pass hM (Nat.le_refl _) y hy (hgap y hy hyp)⟩
    · simp only [Cursor.lastInsideLeaf, hc.leaf, Option.bind_eq_bind, Option.bind_some, if_neg hend,
        hq]
      rfl
    · exact canFragment_of_prev hM hpos hprev

/-- The descent to the last unit of the measure before a leaf passes over leaves without measure
only. -/
theorem descendMetric_prev (hroot : h = 0 ∨ root.Inner h) (hc : c.At pre l post)
    (hpos : 0 < measureOf M pre) :
    ∃ P l' mid, pre = P ++ l' :: mid ∧ measureOf M mid = 0 ∧ 0 < M.measure l' ∧
      (c.descendMetric M (measureOf M pre)).Stands P l' (mid ++ l :: post) := by
  obtain ⟨P, l', post', hat, hleaf, hposition, hlt, hle⟩ :=
    descendMetric_at hroot hc.noneAbove M hpos
  have heq := hat.leaves.symm.trans hc.leaves
  have hpre : ∃ mid, pre = P ++ l' :: mid ∧ post' = mid ++ l :: post := by
    rcases List.append_eq_append_iff.mp heq with ⟨as, rfl, has⟩ | ⟨as, rfl, -⟩
    · cases as with
      | nil =>
        rw [List.append_nil] at hlt
        exact absurd hlt (Nat.lt_irrefl _)
      | cons a as =>
        obtain ⟨rfl, rfl⟩ := List.cons.inj has
        exact ⟨as, rfl, rfl⟩
    · rw [measureOf_append] at hlt
      omega
  obtain ⟨mid, rfl, rfl⟩ := hpre
  have hle' := hle.resolve_right (by simp)
  rw [measureOf_append, measureOf_cons] at hlt hle'
  have hl' := pos_of_leaves hroot hat.leaves (by simp; omega) l' (by simp)
  exact ⟨P, l', mid, rfl, by omega, by omega, hat, hleaf, hposition.ge, .inl (by omega)⟩

/-- From the leaf before, the search finds the last boundary before a position, if those before it
are not after the leaf. -/
theorem Stands.prevFromLeaf (hroot : h = 0 ∨ root.Inner h) (hM : M.Lawful)
    (hc : c.Stands pre l post)
    (hposition : c.position = lenOf pre) (hpost : post ≠ []) (hpos : 0 < Leaf.len l)
    (hp : lenOf pre + Leaf.len l ≤ p)
    (hlast : ∀ y ∈ boundariesOf M (pre ++ l :: post), y < p → y ≤ lenOf pre + Leaf.len l) :
    IsPrev (boundariesOf M (pre ++ l :: post)) p (c.prevFromLeaf M p).2 ∧
      (c.prevFromLeaf M p).1.Sound := by
  have hlast' : ∀ y ∈ boundariesOf M (pre ++ l :: post), y < p →
      y < min p (lenOf pre + Leaf.len l + 1) := fun y hy hyp ↦
    Nat.lt_min.mpr ⟨hyp, Nat.lt_succ_of_le (hlast y hy hyp)⟩
  rcases hc.lastInsideLeaf hroot hM hpost hpos hp with ⟨d, hd, hsound, hprev⟩ |
    ⟨hnone, hfragment, hbefore⟩
  · rw [Cursor.prevFromLeaf, hd]
    exact ⟨hprev.of_gap (Nat.min_le_left _ _) hlast', hsound⟩
  have hmeasure := hc.at_leaf.measureLeaf hpos M
  rcases Nat.eq_zero_or_pos (measureOf M pre) with hzero | hposm
  · rw [hzero] at hmeasure
    simp only [Cursor.prevFromLeaf, hnone, hposition, hmeasure]
    refine ⟨fun y hy ↦ ?_, hc.at_leaf.invalidate _⟩
    by_contra hyp
    have hle := hbefore y hy (hlast' y hy (by omega))
    rw [mem_boundariesOf_append_of_le hM hle, boundariesOf_eq_empty hM hfragment hzero] at hy
    exact hy
  obtain ⟨P, l', mid, rfl, hmid, hmeasure', hstands⟩ := descendMetric_prev hroot hc.at_leaf hposm
  have hleaves : P ++ l' :: mid ++ l :: post = P ++ l' :: (mid ++ l :: post) := by simp
  have hl' := pos_of_leaves hroot hstands.at_leaf.leaves (by simp; omega) l' (by simp)
  have hgo : c.prevFromLeaf M p
      = match (c.descendMetric M (measureOf M (P ++ l' :: mid))).lastInsideLeaf M p with
        | some self => self.found
        | none => (c.descendMetric M (measureOf M (P ++ l' :: mid)), none) := by
    obtain ⟨m, hm⟩ := Nat.exists_eq_add_of_lt hposm
    rw [Nat.zero_add] at hm
    simp only [Cursor.prevFromLeaf, hnone, hposition, hmeasure, hm]
  rw [hgo]
  rw [lenOf_append, lenOf_cons] at hbefore hlast' hp
  -- the boundaries before the position are in the leaf of the descent, or before it
  have hgap : ∀ y ∈ boundariesOf M (P ++ l' :: (mid ++ l :: post)), y < p →
      y < min p (lenOf P + Leaf.len l' + 1) := by
    intro y hy hyp
    by_contra hlt
    rw [Nat.lt_min, not_and, Nat.not_lt] at hlt
    have hlt := hlt hyp
    have hy' := hy
    rw [List.append_cons] at hy'
    have hskip := le_of_measure_zero hM hfragment _ mid _ hmid y hy'
    rw [lenOf_append, lenOf_cons, lenOf_nil] at hskip
    have := hbefore y (by rwa [hleaves]) (hlast' y (by rwa [hleaves]) hyp)
    omega
  rw [hleaves]
  rcases hstands.lastInsideLeaf hroot hM (p := p) (by simp) hl' (by omega) with
    ⟨d, hd, hsound, hprev⟩ | ⟨-, -, hbefore'⟩
  · rw [hd]
    exact ⟨hprev.of_gap (Nat.min_le_left _ _) hgap, hsound⟩
  · exfalso
    refine hmeasure'.ne' ((hM.measure_eq_zero hfragment).mpr ?_)
    refine Set.eq_empty_iff_forall_notMem.mpr fun q hq ↦ ?_
    have hle := hM.le_len hq
    rcases Nat.eq_zero_or_pos q with rfl | hqpos
    · rw [mem_boundaries, hM.isBoundary_zero, hfragment] at hq
      exact Bool.false_ne_true hq
    · have := hbefore' _ ((mem_boundariesOf_leaf hM _ _ hqpos hle).mpr hq) (by omega)
      omega

/-- The boundary before the position of a valid cursor. -/
theorem Stands.prev (hroot : h = 0 ∨ root.Inner h) (hM : M.Lawful) (hc : c.Stands pre l post) :
    IsPrev (boundariesOf M (pre ++ l :: post)) c.position (c.prev M).2 ∧ (c.prev M).1.Sound := by
  obtain ⟨o, hposition, hoffset, ho⟩ := hc.exists_offset
  rw [prev_eq]
  by_cases hstart : c.position = 0 ∨ c.leaf.isNone = true
  · rw [if_pos hstart]
    rw [hc.leaf, Option.isNone_some, or_iff_left Bool.false_ne_true] at hstart
    rw [hstart]
    exact ⟨fun y _ ↦ Nat.zero_le y, hc.at_leaf.invalidate _⟩
  rw [if_neg hstart]
  rw [hc.leaf, Option.isNone_some, or_iff_left Bool.false_ne_true] at hstart
  have hcases : (∃ q, c.prevInsideLeaf M = some { c with position := c.offsetOfLeaf + q } ∧
      IsPrev (M.boundaries l) o (some q)) ∨
      (c.prevInsideLeaf M = none ∧ (o = 0 ∨ M.canFragment = true) ∧
        ∀ y ∈ boundariesOf M (pre ++ l :: post), y < c.position → y ≤ lenOf pre) := by
    rcases Nat.eq_zero_or_pos o with rfl | hpos
    · right
      refine ⟨?_, .inl rfl, fun y _ hy ↦ by omega⟩
      simp [prevInsideLeaf, hc.leaf, hoffset]
    have hprev := hM.prev hpos ho
    cases hq : M.prev l o with
    | some q =>
      left
      refine ⟨q, ?_, hq ▸ hprev⟩
      simp [prevInsideLeaf, hc.leaf, hoffset, hpos, hq]
    | none =>
      right
      rw [hq] at hprev
      refine ⟨?_, .inr (canFragment_of_prev hM hpos hprev), hposition ▸ hprev.pass hM ho⟩
      simp [prevInsideLeaf, hc.leaf, hoffset, hpos, hq]
  rcases hcases with ⟨q, hfound, hprev⟩ | ⟨hnone, hfragment, hbefore⟩
  · rw [hfound]
    have hlt : q < o := hprev.1.2
    have hstands : ({ c with position := c.offsetOfLeaf + q } : Cursor root).Stands pre l post :=
      ⟨hc.at_leaf.congr rfl rfl, hc.leaf, by simp [hc.at_leaf.offset], .inl (by
        dsimp only
        rw [hc.at_leaf.offset]
        omega)⟩
    refine ⟨?_, hstands.sound⟩
    dsimp only [found]
    rw [hposition, hc.at_leaf.offset]
    exact hprev.whole hM ho
  rw [hnone]
  dsimp only
  rcases List.eq_nil_or_concat' pre with rfl | ⟨pre, l', rfl⟩
  · obtain ⟨hat, hleaf, -⟩ := hc.at_leaf.prevLeaf_nil
    rw [hleaf, Option.isNone_none, if_pos rfl]
    refine ⟨fun y hy ↦ ?_, hat.sound hleaf⟩
    by_contra hlt
    obtain rfl := Nat.le_zero.mp (hbefore y hy (Nat.lt_of_not_ge hlt))
    rw [lenOf_nil, Nat.zero_add] at hposition
    rw [mem_boundariesOf, hM.isBoundary_zero, hfragment.resolve_left (hposition ▸ hstart)] at hy
    exact Bool.false_ne_true hy
  · obtain ⟨hat, hleaf, hpos⟩ := hc.at_leaf.prevLeaf hroot
    rw [hleaf, Option.isNone_some, if_neg Bool.false_ne_true]
    have hl' := pos_of_leaves hroot hat.leaves (by simp; omega) l' (by simp)
    have hle := hc.le
    rw [lenOf_append, lenOf_cons, lenOf_nil, Nat.add_zero] at hle
    have hstands : c.prevLeaf.Stands pre l' (l :: post) := ⟨hat, hleaf, hpos.ge, .inl (by omega)⟩
    have := hstands.prevFromLeaf hroot hM hpos (List.cons_ne_nil _ _) hl' hle
    rw [List.append_assoc, List.singleton_append, lenOf_append, lenOf_cons, lenOf_nil] at hbefore
    rw [List.append_assoc, List.singleton_append]
    exact this hbefore

/-- A valid cursor finds the next boundary where the metric tells it, and nowhere else. -/
theorem Stands.next_iff (hroot : h = 0 ∨ root.Inner h) (hM : M.Lawful) (hc : c.Stands pre l post) :
    IsNext (boundariesOf M (pre ++ l :: post)) c.position (c.next M).2 ↔
      M.Clear (concat (pre ++ l :: post)) c.position := by
  obtain ⟨o, hposition, -, -⟩ := hc.exists_offset
  have hlen := hc.at_leaf.len
  rcases hc.lt with hlt | ⟨rfl, hend⟩
  · have ho : o < Leaf.len l := by omega
    rw [hposition, clear_concat hM ho]
    cases hq : M.next l o with
    | some q =>
      rw [(hc.next_some hroot hposition ho hq).1, ← hM.next_some ho hq]
      refine ⟨fun hnext ↦ ?_, IsNext.whole hM⟩
      by_cases hfragment : M.canFragment = true
      · exact (hM.next_some ho hq).mpr (.inl hfragment)
      · exact hnext.of_whole hM (Bool.not_eq_true _ ▸ hfragment) ho
    | none =>
      have hnext := hposition ▸ (hc.next_none hroot hM hposition ho hq).1
      exact iff_of_true hnext (.inl (canFragment_of_next hM ho (hM.next_none ho.le hq)))
  · have hstop : root.len ≤ c.position ∨ c.leaf.isNone = true := .inl (by
      rw [lenOf_nil] at hlen
      omega)
    have hflat : Leaf.len (concat (pre ++ [l])) = c.position := by
      rw [len_concat, lenOf_append, lenOf_cons, lenOf_nil, hend, Nat.add_zero]
    rw [next_eq, if_pos hstop]
    refine iff_of_true (fun y hy ↦ (le_lenOf hM hy).trans ?_) ?_
    · rw [hend, lenOf_append, lenOf_cons, lenOf_nil, Nat.add_zero]
    · by_cases hfragment : M.canFragment = true
      · exact .inl hfragment
      · have hatomic := Bool.not_eq_true _ ▸ hfragment
        exact .inr (.inl (hflat ▸ hM.isBoundary_len hatomic))

/-- Whether the position of a valid cursor is a boundary. -/
theorem Stands.isBoundary (hroot : h = 0 ∨ root.Inner h) (hM : M.Lawful)
    (hc : c.Stands pre l post) :
    c.isBoundary M = true ↔ c.position ∈ boundariesOf M (pre ++ l :: post) := by
  obtain ⟨o, hposition, hoffset, ho⟩ := hc.exists_offset
  have hat := hc.at_leaf.offset
  rw [Cursor.isBoundary, hc.leaf]
  dsimp only
  by_cases hstart : c.position = c.offsetOfLeaf ∧ M.canFragment = false
  · rw [if_pos hstart, hstart.1, hat]
    exact iff_of_true rfl
      ((mem_boundariesOf_between hM).mpr (lenOf_mem_boundariesOf hM hstart.2 pre))
  rw [if_neg hstart]
  rcases Nat.eq_zero_or_pos o with rfl | hpos
  · have hfragment : M.canFragment = true := by
      rw [← Bool.not_eq_false]
      exact fun hatomic ↦ hstart ⟨by omega, hatomic⟩
    by_cases hzero : c.position = 0 ∨ c.offsetOfLeaf < c.position
    · have hposition' : c.position = 0 := by omega
      rw [if_pos hzero, hoffset, hposition', mem_boundariesOf, hM.isBoundary_zero,
        hM.isBoundary_zero]
    · rw [if_neg hzero]
      rcases List.eq_nil_or_concat' pre with rfl | ⟨pre, l', rfl⟩
      · exact absurd (.inl (by simpa using hposition)) hzero
      · rw [hc.at_leaf.peekPrevLeaf hroot]
        dsimp only
        have hl' := pos_of_leaves hroot hc.at_leaf.leaves (by simp; omega) l' (by simp)
        rw [← mem_boundaries, ← mem_boundariesOf_leaf hM pre (l :: post) hl'
          (Nat.le_refl _), hposition]
        simp
  · rw [if_pos (.inr (by omega)), hoffset, ← mem_boundaries,
      ← mem_boundariesOf_leaf hM pre post hpos ho, hposition]

/-! ## Going to a position -/

/-- The shortcut of `set` to the leaf before goes astray: it ends at the beginning of that leaf,
which is the position only if the leaf has length one. -/
def Strays (c : Cursor root) (p : ℕ) : Prop :=
  c.leaf.isSome ∧ p + 1 = c.offsetOfLeaf ∧ ∃ pre l post, Node.leaves h root = pre ++ l :: post ∧
    lenOf pre + Leaf.len l = c.offsetOfLeaf ∧ Leaf.len l ≠ 1

/-- `set` from an invalid cursor, or away from its leaf and its neighbours. -/
theorem NoneAbove.descend (hroot : h = 0 ∨ root.Inner h) (hc : c.NoneAbove)
    (hp : c.position ≤ root.len) :
    ∃ pre l post, c.descend.Stands pre l post ∧ c.descend.position = c.position := by
  obtain ⟨pre, l, post, hat, hleaf, hposition, hle, hlt⟩ := descend_at hroot hc
  rw [← hposition] at hle hlt hp
  exact ⟨pre, l, post, stands_of_le hat hleaf hle hlt hp, hposition⟩

theorem not_strays (hne : p + 1 ≠ c.offsetOfLeaf) : ¬ c.Strays p := fun h ↦ hne h.2.1

/-- Where the shortcut to the leaf before ends. -/
theorem At.strays_iff (hroot : h = 0 ∨ root.Inner h) {l' : L} (hc : c.At (pre ++ [l']) l post)
    (hleaf : c.leaf = some l) (hp : p + 1 = c.offsetOfLeaf) : c.Strays p ↔ lenOf pre ≠ p := by
  obtain ⟨hpos, hoffset⟩ := hc.offset_pos hroot
  have hleaves : Node.leaves h root = pre ++ l' :: l :: post := by
    rw [hc.leaves, List.append_assoc]
    rfl
  constructor
  · rintro ⟨-, -, pre', l'', post', hleaves', hoffset', hne⟩ heq
    have hpos'' : 0 < Leaf.len l'' := by
      refine pos_of_leaves hroot hleaves (by simp; omega) l'' ?_
      rw [← hleaves, hleaves']
      exact List.mem_append_right pre' List.mem_cons_self
    obtain ⟨rfl, rfl, -⟩ := eq_of_holds (p := p) (hleaves.symm.trans hleaves') (by omega) (by omega)
      (by omega) (by omega)
    omega
  · intro hne
    exact ⟨by rw [hleaf]; rfl, hp, pre, l', l :: post, hleaves, hoffset.symm, by omega⟩

/-- The shortcuts of `set`. -/
theorem set_eq (hleaf : c.leaf = some l) (p : ℕ) : c.set p
    = if c.offsetOfLeaf ≤ p ∧ p < c.offsetOfLeaf + Leaf.len l then { c with position := p }
      else if p = c.offsetOfLeaf + Leaf.len l ∧ p < root.len ∧
        ({ c with position := p } : Cursor root).nextLeaf.leaf.isSome then
        ({ c with position := p } : Cursor root).nextLeaf
      else if p + 1 = c.offsetOfLeaf ∧
        ({ c with position := p } : Cursor root).prevLeaf.leaf.isSome then
        ({ c with position := p } : Cursor root).prevLeaf
      else descend { c with position := p } := by
  simp only [set, hleaf]

/-- What `set` does: it goes to the position, or to the beginning of the leaf before. -/
theorem Sound.set_cases (hroot : h = 0 ∨ root.Inner h) (hc : c.Sound) (hp : p ≤ root.len) :
    ∃ pre l post, (c.set p).Stands pre l post ∧ ((c.set p).position = p ↔ ¬ c.Strays p) := by
  obtain ⟨pre, l, post, hat, hleaf⟩ := hc
  obtain ⟨pre', l', post', hdescend, hposition⟩ :=
    NoneAbove.descend (c := { c with position := p }) hroot hat.noneAbove hp
  rcases hleaf with hleaf | hstands
  · have hset : c.set p = descend { c with position := p } := by simp only [set, hleaf]
    rw [hset]
    refine ⟨pre', l', post', hdescend, iff_of_true hposition ?_⟩
    rintro ⟨hsome, -⟩
    rw [hleaf] at hsome
    exact Bool.false_ne_true hsome
  have hd : ({ c with position := p } : Cursor root).At pre l post := hat.congr rfl rfl
  have hoffset := hat.offset
  have hlen := hat.len
  rw [set_eq hstands.leaf]
  by_cases hsame : c.offsetOfLeaf ≤ p ∧ p < c.offsetOfLeaf + Leaf.len l
  · rw [if_pos hsame]
    exact ⟨pre, l, post, ⟨hd, hstands.leaf, by simpa [hoffset] using hsame.1,
      .inl (by simpa [hoffset] using hsame.2)⟩, iff_of_true rfl (not_strays (by omega))⟩
  rw [if_neg hsame]
  by_cases hend : p = c.offsetOfLeaf + Leaf.len l ∧ p < root.len
  · rcases hd.nextLeaf hroot hstands.leaf with ⟨rfl, -⟩ | ⟨l'', post'', rfl, hat', hleaf', hpos'⟩
    · rw [lenOf_nil] at hlen
      omega
    rw [if_pos ⟨hend.1, hend.2, by rw [hleaf']; rfl⟩]
    have := pos_of_leaves hroot hat'.leaves (by simp; omega) l'' (by simp)
    refine ⟨_, l'', post'', ⟨hat', hleaf', hpos'.ge, .inl (by omega)⟩,
      iff_of_true ?_ (not_strays (by omega))⟩
    rw [hpos', lenOf_append, lenOf_cons, lenOf_nil, Nat.add_zero, ← hoffset, ← hend.1]
  rw [if_neg fun h ↦ hend ⟨h.1, h.2.1⟩]
  by_cases hbefore : p + 1 = c.offsetOfLeaf
  · rcases List.eq_nil_or_concat' pre with rfl | ⟨pre, l'', rfl⟩
    · rw [lenOf_nil] at hoffset
      omega
    obtain ⟨hat', hleaf', hpos'⟩ := hd.prevLeaf hroot
    rw [if_pos ⟨hbefore, by rw [hleaf']; rfl⟩]
    have := pos_of_leaves hroot hat'.leaves (by simp; omega) l'' (by simp)
    refine ⟨pre, l'', l :: post, ⟨hat', hleaf', hpos'.ge, .inl (by omega)⟩, ?_⟩
    rw [hat.strays_iff hroot hstands.leaf hbefore, hpos', not_ne_iff]
  · rw [if_neg fun h ↦ hbefore h.1]
    exact ⟨pre', l', post', hdescend, iff_of_true hposition (not_strays hbefore)⟩

end Cursor

end EeEditor.BTree
