import EeEditor.Tree.Convert
import EeEditor.Tree.Navigation
import EeEditor.Tree.Slices

/-!
# Grapheme clusters over the leaves of a rope

The model of `prev_grapheme_offset` in `xi-rope/src/rope/core.rs` and of `Cursor::prev_grapheme` in
`xi-rope/src/rope/impls.rs`. A `GraphemeCursor` of the crate `unicode_segmentation` reads the text
backward, a leaf at a time, and is given what it asks for.

## Where the loop ends

The cluster is found in the leaf of the position or in the leaf before it. When it begins before
these two, the loop goes back to the position that it had before its last step, and from there to
the same leaf again, for ever (`prevGraphemeOffset_cases`).
-/

namespace EeEditor.BTree

/-! ## What is given -/

inductive GraphemeIncomplete where
  | preContext (offset : ℕ)
  | prevChunk
  | nextChunk
  | invalidOffset

/-- The `GraphemeCursor` of `unicode_segmentation`, with what its documentation says of going
backward. -/
structure GraphemeCursors where
  /-- The state of a cursor. -/
  State : Type
  /-- `new`, at an offset of a text of a length. -/
  new : ℕ → ℕ → State
  /-- `prev_boundary`, with a chunk and where it begins. -/
  prevBoundary : State → Text → ℕ → State × Except GraphemeIncomplete (Option ℕ)
  /-- `provide_context`. `none` is an assertion that fails. -/
  provideContext : State → Text → ℕ → Option State
  /-- Where the last cluster of a text begins. -/
  clusterStart : Text → ℕ
  /-- A cursor that was made behind a text has gone back to an offset in its last cluster. Of what
  is before, it was shown the text from another offset on. -/
  ReadTo : Text → ℕ → ℕ → State → Prop
  /-- Such a cursor has asked for the text that ends at another offset. -/
  Awaits : Text → ℕ → ℕ → State → Prop
  clusterStart_lt : ∀ before, before ≠ [] → clusterStart before < (bytes before).length
  clusterStart_boundary : ∀ before, isCharBoundary (bytes before) (clusterStart before) = true
  /-- There is no boundary between a carriage return and a newline. -/
  clusterStart_crlf : ∀ u v,
    clusterStart (u ++ '\r' :: '\n' :: v) ≠ (bytes (u ++ ['\r'])).length
  new_readTo : ∀ before len, before ≠ [] →
    ReadTo before (bytes before).length (bytes before).length (new (bytes before).length len)
  /-- At the beginning of a chunk the chunk before it is needed. -/
  at_start : ∀ {before pre known shown c} (chunk : Text), before = pre ++ known → pre ≠ [] →
    ReadTo before (bytes pre).length shown c →
      ∃ c', prevBoundary c chunk (bytes pre).length = (c', .error .prevChunk) ∧
        ReadTo before (bytes pre).length (bytes pre).length c'
  /-- Within a chunk the boundary is found, or the beginning of the chunk is reached, or more
  context is needed before that is known. -/
  within : ∀ {before pre part known shown c} (rest : Text), before = pre ++ (part ++ known) →
    part ≠ [] → ReadTo before (bytes (pre ++ part)).length shown c → ∃ c',
      (prevBoundary c (part ++ rest) (bytes pre).length = (c', .ok (some (clusterStart before))) ∧
        ((bytes pre).length < clusterStart before ∨ pre = [])) ∨
      (prevBoundary c (part ++ rest) (bytes pre).length = (c', .error .prevChunk) ∧
        pre ≠ [] ∧ clusterStart before ≤ (bytes pre).length ∧
        ReadTo before (bytes pre).length (bytes pre).length c') ∨
      (prevBoundary c (part ++ rest) (bytes pre).length =
          (c', .error (.preContext (min shown (bytes pre).length))) ∧
        0 < min shown (bytes pre).length ∧
        Awaits before (bytes (pre ++ part)).length (min shown (bytes pre).length) c')
  /-- The context that was asked for is taken. -/
  provided : ∀ {before pre context known offset c}, before = pre ++ (context ++ known) →
    context ≠ [] → Awaits before offset (bytes (pre ++ context)).length c →
      ∃ c', provideContext c context (bytes pre).length = some c' ∧
        ReadTo before offset (bytes pre).length c'

/-! ## The code -/

variable {h : ℕ} {root : Node Text h}

/-- The loop forward to a character boundary, with the position and the offset in the leaf. -/
def toCharBoundary (l : Text) (pos offset : ℕ) : ℕ × ℕ :=
  if offset < Leaf.len l ∧ isCharBoundary (bytes l) offset = false then
    toCharBoundary l (pos + 1) (offset + 1)
  else (pos, offset)
termination_by Leaf.len l - offset

/-- The loop over what the `GraphemeCursor` asks for. -/
def prevGraphemeLoop (g : GraphemeCursors) :
    ℕ → Cursor root → g.State → Text → ℕ → ℕ → Outcome (Option ℕ)
  | 0, _, _, _, _, _ => .running
  | fuel + 1, self, c, l, leafOffset, pos =>
    match g.prevBoundary c l leafOffset with
    | (_, .ok boundary) => .done boundary
    | (c, .error (.preContext _)) =>
      let self := self.prevLeaf
      match self.getLeaf with
      | none => .done none
      | some (pl, poffset) =>
        match g.provideContext c pl (self.pos - poffset) with
        | none => .panicked
        | some c => prevGraphemeLoop g fuel self c l leafOffset pos
    | (c, .error .prevChunk) =>
      let self := (self.set pos).prevLeaf
      match self.getLeaf with
      | none => .done none
      | some (pl, poffset) =>
        let leafOffset := self.pos - poffset
        prevGraphemeLoop g fuel self c pl leafOffset (leafOffset + Leaf.len pl)
    | (_, .error .nextChunk) => .done none
    | (_, .error .invalidOffset) => .done none

def prevGrapheme (g : GraphemeCursors) (self : Cursor root) (fuel : ℕ) : Outcome (Option ℕ) :=
  match self.getLeaf with
  | none => .done none
  | some (l, offset) =>
    let (pos, offset) := toCharBoundary l self.pos offset
    let leafOffset := pos - offset
    prevGraphemeLoop g fuel self (g.new pos (Leaf.len l + leafOffset)) l leafOffset pos

def prevGraphemeOffset (g : GraphemeCursors) (rope : Tree Text) (offset fuel : ℕ) :
    Outcome (Option ℕ) := prevGrapheme g (Cursor.new rope.root offset) fuel

/-! ## From leaf to leaf -/

section

variable {g : GraphemeCursors} {self : Cursor root} {c c' : g.State} {l l' x : Text}
  {pre post pre' post' : List Text} {leafOffset pos p : ℕ}

/-- One leaf holds the position of a cursor. -/
theorem Cursor.Stands.unique (hself : self.Stands pre' x post')
    (hleaves : Node.leaves h root = pre ++ l :: post) (hle : lenOf pre ≤ self.position)
    (hlt : self.position < lenOf pre + Leaf.len l ∨ post = []) :
    pre' = pre ∧ x = l ∧ post' = post := by
  have heq := hself.at_leaf.leaves.symm.trans hleaves
  have hlen := hself.at_leaf.len
  have hlen' : root.len = lenOf pre + Leaf.len l + lenOf post := by
    rw [Node.len_eq, hleaves, lenOf_append, lenOf_cons, Nat.add_assoc]
  rcases hself.lt with hlt' | ⟨rfl, hend⟩
  · have hlt : self.position < lenOf pre + Leaf.len l := by
      rcases hlt with hlt | rfl
      · exact hlt
      · rw [lenOf_nil] at hlen'
        omega
    exact Cursor.eq_of_holds heq hself.le hlt' hle hlt
  · rw [lenOf_nil] at hlen
    obtain rfl : post = [] := by
      rcases hlt with hlt | hpost
      · omega
      · exact hpost
    obtain ⟨rfl, hl⟩ := List.append_inj' heq rfl
    exact ⟨rfl, List.singleton_inj.mp hl, rfl⟩

/-- The leaf that holds a position is found from any leaf that begins before it. -/
theorem Cursor.Stands.set (hroot : h = 0 ∨ root.Inner h) (hself : self.Stands pre' x post')
    (hleaves : Node.leaves h root = pre ++ l :: post) (hle : lenOf pre ≤ p)
    (hlt : p < lenOf pre + Leaf.len l ∨ post = []) (hp : p ≤ root.len)
    (hbefore : lenOf pre' ≤ p) : (self.set p).Stands pre l post := by
  obtain ⟨pre₁, l₁, post₁, hstands, hposition⟩ := hself.sound.set_cases hroot hp
  have hset : (self.set p).position = p :=
    hposition.mpr (Cursor.not_strays (by rw [hself.at_leaf.offset]; omega))
  rw [← hset] at hle hlt
  obtain ⟨rfl, rfl, rfl⟩ := hstands.unique hleaves hle hlt
  exact hstands

/-- The leaf before is given to the loop, from its beginning. -/
theorem Cursor.Stands.prevLeaf (hroot : h = 0 ∨ root.Inner h)
    (hself : self.Stands (pre ++ [l']) l post) : self.prevLeaf.Stands pre l' (l :: post) ∧
      self.prevLeaf.getLeaf = some (l', 0) ∧ self.prevLeaf.pos = lenOf pre ∧ l' ≠ [] := by
  obtain ⟨hat, hleaf, hposition⟩ := hself.at_leaf.prevLeaf hroot
  have hpos := (hself.at_leaf.offset_pos hroot).1
  refine ⟨⟨hat, hleaf, hposition.ge, .inl (by omega)⟩, ?_, hposition, ?_⟩
  · rw [Cursor.getLeaf, hleaf, hposition, hat.offset, Nat.sub_self]
    rfl
  · rintro rfl
    exact Nat.lt_irrefl 0 hpos

/-- A round that provides context. -/
theorem prevGraphemeLoop_preContext (hroot : h = 0 ∨ root.Inner h)
    (hself : self.Stands (pre ++ [l']) x post) {offset : ℕ}
    (hanswer : g.prevBoundary c l leafOffset = (c', .error (.preContext offset)))
    {c'' : g.State} (hprovide : g.provideContext c' l' (lenOf pre) = some c'') (pos fuel : ℕ) :
    prevGraphemeLoop g (fuel + 1) self c l leafOffset pos =
      prevGraphemeLoop g fuel self.prevLeaf c'' l leafOffset pos := by
  obtain ⟨-, hleaf, hposition, -⟩ := hself.prevLeaf hroot
  rw [prevGraphemeLoop, hanswer]
  dsimp only
  rw [hleaf]
  dsimp only
  rw [hposition, Nat.sub_zero, hprovide]

/-- A round that goes to the leaf before that of the position. -/
theorem prevGraphemeLoop_prevChunk (hroot : h = 0 ∨ root.Inner h)
    (hself : self.Stands pre' x post')
    (hleaves : Node.leaves h root = (pre ++ [l']) ++ l :: post)
    (hle : lenOf (pre ++ [l']) ≤ pos) (hlt : pos < lenOf (pre ++ [l']) + Leaf.len l ∨ post = [])
    (hpos : pos ≤ root.len) (hbefore : lenOf pre' ≤ pos) {chunk : Text}
    (hanswer : g.prevBoundary c chunk leafOffset = (c', .error .prevChunk)) :
    ∃ next : Cursor root, next.Stands pre l' (l :: post) ∧ ∀ fuel,
      prevGraphemeLoop g (fuel + 1) self c chunk leafOffset pos =
        prevGraphemeLoop g fuel next c' l' (lenOf pre) (lenOf (pre ++ [l'])) := by
  have hset := hself.set hroot hleaves hle hlt hpos hbefore
  obtain ⟨hstands, hleaf, hposition, -⟩ := hset.prevLeaf hroot
  refine ⟨(self.set pos).prevLeaf, hstands, fun fuel ↦ ?_⟩
  rw [prevGraphemeLoop, hanswer]
  dsimp only
  rw [hleaf]
  dsimp only
  rw [hposition, Nat.sub_zero, lenOf_append, lenOf_cons, lenOf_nil, Nat.add_zero]

/-! ## Leaf by leaf -/

variable {before known part : Text} {shown : ℕ} {q r : List Text}

/-- While a leaf is read, the cursor goes back for context only. The boundary is found, or the leaf
before is asked for. -/
theorem prevGraphemeLoop_leaf (hroot : h = 0 ∨ root.Inner h) (pos : ℕ) (rest : Text)
    (hbefore : before = concat pre ++ (part ++ known)) (hpart : part ≠ [])
    (hread : g.ReadTo before (bytes (concat pre ++ part)).length shown c)
    (hself : self.Stands q x r) (hq : q <+: pre) (hshown : min shown (lenOf pre) = lenOf q) :
    ((lenOf pre < g.clusterStart before ∨ concat pre = []) ∧
      Settles (fun fuel ↦ prevGraphemeLoop g fuel self c (part ++ rest) (lenOf pre) pos)
        (.done (some (g.clusterStart before)))) ∨
    (concat pre ≠ [] ∧ g.clusterStart before ≤ lenOf pre ∧
      ∃ (last : Cursor root) (q' : List Text) (x' : Text) (r' : List Text) (c₁ c₂ : g.State),
        last.Stands q' x' r' ∧ q' <+: pre ∧
        g.prevBoundary c₁ (part ++ rest) (lenOf pre) = (c₂, .error .prevChunk) ∧
        g.ReadTo before (lenOf pre) (lenOf pre) c₂ ∧
        ∀ {out}, Settles (fun fuel ↦
            prevGraphemeLoop g fuel last c₁ (part ++ rest) (lenOf pre) pos) out →
          Settles (fun fuel ↦
            prevGraphemeLoop g fuel self c (part ++ rest) (lenOf pre) pos) out) := by
  induction q using List.reverseRecOn generalizing self x r c shown with
  | nil =>
    obtain ⟨c', ⟨hanswer, hfound⟩ | ⟨hanswer, hne, hle, hread'⟩ | ⟨-, hpos, -⟩⟩ :=
      g.within rest hbefore hpart hread
    · rw [← lenOf_eq] at hanswer hfound
      refine .inl ⟨hfound, (Settles.const _).succ fun fuel ↦ ?_⟩
      rw [prevGraphemeLoop, hanswer]
    · rw [← lenOf_eq] at hanswer hle hread'
      exact .inr ⟨hne, hle, self, [], x, r, c, c', hself, hq, hanswer, hread', fun h ↦ h⟩
    · rw [← lenOf_eq, hshown] at hpos
      exact absurd hpos (Nat.lt_irrefl 0)
  | append_singleton q y ih =>
    obtain ⟨c', ⟨hanswer, hfound⟩ | ⟨hanswer, hne, hle, hread'⟩ | ⟨hanswer, -, hawaits⟩⟩ :=
      g.within rest hbefore hpart hread
    · rw [← lenOf_eq] at hanswer hfound
      refine .inl ⟨hfound, (Settles.const _).succ fun fuel ↦ ?_⟩
      rw [prevGraphemeLoop, hanswer]
    · rw [← lenOf_eq] at hanswer hle hread'
      exact .inr ⟨hne, hle, self, _, x, r, c, c', hself, hq, hanswer, hread', fun h ↦ h⟩
    · obtain ⟨hstands, -, -, hy⟩ := hself.prevLeaf hroot
      obtain ⟨t, rfl⟩ := hq
      have hcontext : before = concat q ++ (y ++ (concat t ++ (part ++ known))) := by
        rw [hbefore, concat_append, concat_append]
        simp [concat, Leaf.append, Leaf.empty]
      have hlength : lenOf (q ++ [y]) = (bytes (concat q ++ y)).length := by
        rw [lenOf_eq, concat_append]
        simp [concat, Leaf.append, Leaf.empty]
      rw [← lenOf_eq, hshown] at hanswer hawaits
      rw [hlength] at hawaits
      obtain ⟨c'', hprovide, hread'⟩ := g.provided hcontext hy hawaits
      rw [← lenOf_eq] at hprovide hread'
      have hprefix : q <+: q ++ [y] ++ t := by
        rw [List.append_assoc]
        exact List.prefix_append _ _
      have hmin : min (lenOf q) (lenOf (q ++ [y] ++ t)) = lenOf q := by
        rw [lenOf_append, lenOf_append]
        omega
      have hround := prevGraphemeLoop_preContext hroot hself hanswer hprovide pos
      rcases ih hread' hstands hprefix hmin with ⟨hfound, hsettles⟩ |
        ⟨hne, hle, last, q', x', r', c₁, c₂, hlast, hq', hanswer', hread'', hback⟩
      · exact .inl ⟨hfound, hsettles.succ hround⟩
      · exact .inr ⟨hne, hle, last, q', x', r', c₁, c₂, hlast, hq', hanswer', hread'',
          fun h ↦ (hback h).succ hround⟩

/-- At the beginning of the leaf before, the loop turns in place. -/
theorem prevGraphemeLoop_forever (hroot : h = 0 ∨ root.Inner h)
    (hbefore : before = concat pre ++ known) (hne : concat pre ≠ [])
    (hself : self.Stands pre l' (l :: post))
    (hread : g.ReadTo before (lenOf pre) shown c) (fuel : ℕ) :
    prevGraphemeLoop g fuel self c l' (lenOf pre) (lenOf (pre ++ [l'])) = .running := by
  induction fuel generalizing self c shown with
  | zero => rfl
  | succ fuel ih =>
    have hleaves : Node.leaves h root = (pre ++ [l']) ++ l :: post := by
      rw [hself.at_leaf.leaves, List.append_assoc]
      rfl
    have hpos := Cursor.pos_of_leaves hroot hself.at_leaf.leaves (by simp; omega) l (by simp)
    have hlen := hself.at_leaf.len
    rw [lenOf_cons] at hlen
    have hlength : lenOf (pre ++ [l']) = lenOf pre + Leaf.len l' := by
      rw [lenOf_append, lenOf_cons, lenOf_nil, Nat.add_zero]
    rw [lenOf_eq] at hread
    obtain ⟨c', hanswer, hread'⟩ := g.at_start l' hbefore hne hread
    rw [← lenOf_eq] at hanswer hread'
    obtain ⟨next, hnext, hround⟩ := prevGraphemeLoop_prevChunk hroot hself hleaves (Nat.le_refl _)
      (.inl (by omega)) (by omega) (by omega) hanswer
    rw [hround]
    exact ih hnext hread'

/-- In the leaf before that of the position. -/
theorem prevGraphemeLoop_before (hroot : h = 0 ∨ root.Inner h)
    (hbefore : before = concat (pre ++ [l']) ++ known)
    (hself : self.Stands pre l' (l :: post))
    (hread : g.ReadTo before (lenOf (pre ++ [l'])) (lenOf (pre ++ [l'])) c) :
    Settles (fun fuel ↦ prevGraphemeLoop g fuel self c l' (lenOf pre) (lenOf (pre ++ [l'])))
      (if concat pre = [] ∨ lenOf pre < g.clusterStart before then
        .done (some (g.clusterStart before)) else .running) := by
  have hconcat : concat (pre ++ [l']) = concat pre ++ l' := by
    rw [concat_append]
    simp [concat, Leaf.append, Leaf.empty]
  have hbefore' : before = concat pre ++ (l' ++ known) := by
    rw [hbefore, hconcat, List.append_assoc]
  have hleaves : Node.leaves h root = (pre ++ [l']) ++ l :: post := by
    rw [hself.at_leaf.leaves, List.append_assoc]
    rfl
  have hpos := Cursor.pos_of_leaves hroot hself.at_leaf.leaves (by simp; omega)
  have hl' : l' ≠ [] := by
    rintro rfl
    exact Nat.lt_irrefl 0 (hpos [] (by simp))
  have hl := hpos l (by simp)
  have hlen := hself.at_leaf.len
  rw [lenOf_cons] at hlen
  have hlength : lenOf (pre ++ [l']) = lenOf pre + Leaf.len l' := by
    rw [lenOf_append, lenOf_cons, lenOf_nil, Nat.add_zero]
  have hread' : g.ReadTo before (bytes (concat pre ++ l')).length (lenOf (pre ++ [l'])) c := by
    rwa [← hconcat, ← lenOf_eq]
  have hleaf := prevGraphemeLoop_leaf hroot (lenOf (pre ++ [l'])) [] hbefore' hl' hread' hself
    List.prefix_rfl (by omega)
  rw [List.append_nil] at hleaf
  rcases hleaf with ⟨hfound, hsettles⟩ |
    ⟨hne, hle, last, q, y, r, c₁, c₂, hlast, hq, hanswer, hread'', hback⟩
  · rw [if_pos hfound.symm]
    exact hsettles
  · rw [if_neg (not_or.mpr ⟨hne, Nat.not_lt.mpr hle⟩)]
    have hqle : lenOf q ≤ lenOf pre := by
      obtain ⟨t, rfl⟩ := hq
      rw [lenOf_append]
      exact Nat.le_add_right _ _
    obtain ⟨next, hnext, hround⟩ := prevGraphemeLoop_prevChunk hroot hlast hleaves (Nat.le_refl _)
      (.inl (by omega)) (by omega) (by omega) hanswer
    refine hback (Settles.succ (g := fun _ ↦ .running) (.const _) fun fuel ↦ ?_)
    rw [hround]
    exact prevGraphemeLoop_forever hroot hbefore' hne hnext hread'' fuel

end

/-! ## The cluster before a position -/

theorem lenOf_dropLast_le (pre : List Text) : lenOf pre.dropLast ≤ lenOf pre := by
  rcases List.eq_nil_or_concat' pre with rfl | ⟨pre, l, rfl⟩
  · exact Nat.le_refl _
  · rw [List.dropLast_concat, lenOf_append]
    exact Nat.le_add_right _ _

theorem toCharBoundary_of_boundary {l : Text} {offset : ℕ}
    (h : isCharBoundary (bytes l) offset = true) (pos : ℕ) :
    toCharBoundary l pos offset = (pos, offset) := by
  rw [toCharBoundary, h, if_neg fun h ↦ Bool.noConfusion h.2]

/-- The text before a position is that of the leaves before, and a part of the leaf that holds
it. -/
theorem exists_part {before after l : Text} {pre post : List Text}
    (hflat : concat (pre ++ l :: post) = before ++ after) (hle : lenOf pre ≤ (bytes before).length)
    (hlt : (bytes before).length < lenOf pre + Leaf.len l ∨ post = []) :
    ∃ part rest, before = concat pre ++ part ∧ l = part ++ rest := by
  have hconcat : concat (pre ++ l :: post) = concat pre ++ (l ++ concat post) := concat_append _ _
  rw [hconcat] at hflat
  obtain ⟨part, rfl, hrest⟩ : ∃ part, before = concat pre ++ part ∧
      l ++ concat post = part ++ after := by
    rcases List.append_eq_append_iff.mp hflat with h | ⟨w, hw, hrest⟩
    · exact h
    · obtain rfl : w = [] := by
        by_contra hne
        have hpos := len_pos hne
        rw [lenOf_eq, hw, bytes_append, List.length_append] at hle
        change 0 < (bytes w).length at hpos
        omega
      exact ⟨[], by rw [hw, List.append_nil, List.append_nil], hrest.symm⟩
  rcases List.append_eq_append_iff.mp hrest with ⟨w, rfl, hafter⟩ | ⟨w, rfl, -⟩
  · rcases hlt with hlt | rfl
    · obtain rfl : w = [] := by
        by_contra hne
        have hpos := len_pos hne
        rw [lenOf_eq, bytes_append, bytes_append, List.length_append, List.length_append] at hlt
        change _ < _ + (bytes l).length at hlt
        omega
      exact ⟨l, [], by rw [List.append_nil], by rw [List.append_nil]⟩
    · obtain ⟨rfl, rfl⟩ := List.append_eq_nil_iff.mp hafter.symm
      exact ⟨l, [], by rw [List.append_nil], by rw [List.append_nil]⟩
  · exact ⟨part, w, rfl, rfl⟩

/-- The cluster is found that begins in the leaf of the position or behind the beginning of the leaf
before it, if that is not the first. Otherwise the loop does not end. -/
theorem prevGraphemeOffset_settles (g : GraphemeCursors) (rope : Tree Text) {before after l : Text}
    {pre post : List Text} (hflat : rope.flat = before ++ after) (hne : before ≠ [])
    (hleaves : rope.leaves = pre ++ l :: post) (hle : lenOf pre ≤ (bytes before).length)
    (hlt : (bytes before).length < lenOf pre + Leaf.len l ∨ post = []) :
    Settles (prevGraphemeOffset g rope (bytes before).length)
      (if concat pre.dropLast = [] ∨ lenOf pre.dropLast < g.clusterStart before then
        .done (some (g.clusterStart before)) else .running) := by
  have hroot := rope.integrity
  have hleaves' : Node.leaves rope.height rope.root = pre ++ l :: post := hleaves
  have hlength : (bytes before).length ≤ rope.root.len := by
    rw [Node.len_eq, lenOf_eq]
    change _ ≤ (bytes rope.flat).length
    rw [hflat, bytes_append, List.length_append]
    exact Nat.le_add_right _ _
  obtain ⟨pre', x, post', hat, hleaf, hposition, hle', hlt'⟩ :=
    Cursor.new_at hroot (bytes before).length
  have hself := Cursor.stands_of_le hat hleaf (by rwa [hposition]) (by rwa [hposition])
    (by rwa [hposition])
  obtain ⟨rfl, rfl, rfl⟩ := hself.unique hleaves' (by rwa [hposition]) (by rwa [hposition])
  obtain ⟨part, rest, rfl, rfl⟩ :=
    exists_part (by rw [← hleaves]; exact hflat) hle hlt
  have hcaret : (bytes (concat pre' ++ part)).length = lenOf pre' + (bytes part).length := by
    rw [bytes_append, List.length_append, lenOf_eq]
  have hoffset : (Cursor.new rope.root (bytes (concat pre' ++ part)).length).getLeaf =
      some (part ++ rest, (bytes part).length) := by
    rw [Cursor.getLeaf, hleaf, hposition, hat.offset, hcaret, Nat.add_sub_cancel_left]
    rfl
  have hpos : (Cursor.new rope.root (bytes (concat pre' ++ part)).length).pos =
      (bytes (concat pre' ++ part)).length := hposition
  have hstart : (bytes (concat pre' ++ part)).length - (bytes part).length = lenOf pre' := by omega
  have hloop : prevGraphemeOffset g rope (bytes (concat pre' ++ part)).length = fun fuel ↦
      prevGraphemeLoop g fuel (Cursor.new rope.root (bytes (concat pre' ++ part)).length)
        (g.new (bytes (concat pre' ++ part)).length (Leaf.len (part ++ rest) + lenOf pre'))
        (part ++ rest) (lenOf pre') (bytes (concat pre' ++ part)).length := by
    funext fuel
    rw [prevGraphemeOffset, prevGrapheme, hoffset]
    dsimp only
    rw [toCharBoundary_of_boundary (isCharBoundary_between part rest)]
    dsimp only
    rw [hpos, hstart]
  have hread := g.new_readTo _ (Leaf.len (part ++ rest) + lenOf pre') hne
  rw [hloop]
  generalize g.new _ _ = c at hread ⊢
  -- the leaf before, from the leaf that holds the position
  have hbeforeLeaf {last : Cursor rope.root} {q r : List Text} {y : Text} {c₁ c₂ : g.State}
      (hconcat : concat pre' ≠ []) (hlast : last.Stands q y r) (hq : q <+: pre')
      (hanswer : g.prevBoundary c₁ (part ++ rest) (lenOf pre') = (c₂, .error .prevChunk))
      (hread : g.ReadTo (concat pre' ++ part) (lenOf pre') (lenOf pre') c₂) :
      Settles (fun fuel ↦ prevGraphemeLoop g fuel last c₁ (part ++ rest) (lenOf pre')
          (bytes (concat pre' ++ part)).length)
        (if concat pre'.dropLast = [] ∨
            lenOf pre'.dropLast < g.clusterStart (concat pre' ++ part) then
          .done (some (g.clusterStart (concat pre' ++ part))) else .running) := by
    rcases List.eq_nil_or_concat' pre' with rfl | ⟨pre, l', rfl⟩
    · exact absurd rfl hconcat
    have hqle : lenOf q ≤ lenOf (pre ++ [l']) := by
      obtain ⟨t, ht⟩ := hq
      rw [← ht, lenOf_append]
      exact Nat.le_add_right _ _
    obtain ⟨next, hnext, hround⟩ := prevGraphemeLoop_prevChunk hroot hlast hleaves' hle hlt
      hlength (by omega) hanswer
    rw [List.dropLast_concat]
    exact (prevGraphemeLoop_before hroot rfl hnext hread).succ hround
  by_cases hpart : part = []
  · subst hpart
    have hconcat : concat pre' ≠ [] := by rwa [List.append_nil] at hne
    rw [List.append_nil, ← lenOf_eq] at hread
    rw [lenOf_eq] at hread
    obtain ⟨c', hanswer, hread'⟩ := g.at_start ([] ++ rest) rfl hconcat
      (by rw [List.append_nil]; exact hread)
    rw [← lenOf_eq] at hanswer hread'
    rw [List.append_nil] at hread'
    refine hbeforeLeaf hconcat hself List.prefix_rfl hanswer ?_
    rwa [List.append_nil]
  · have hmin : min (bytes (concat pre' ++ part)).length (lenOf pre') = lenOf pre' := by omega
    have hwhole : concat pre' ++ part = concat pre' ++ (part ++ []) := by rw [List.append_nil]
    rcases prevGraphemeLoop_leaf hroot (bytes (concat pre' ++ part)).length rest
        hwhole hpart hread hself List.prefix_rfl hmin with
      ⟨hfound, hsettles⟩ | ⟨hconcat, -, last, q, y, r, c₁, c₂, hlast, hq, hanswer, hread', hback⟩
    · rw [if_pos]
      · exact hsettles
      · rcases hfound with hfound | hnil
        · exact .inr ((lenOf_dropLast_le pre').trans_lt hfound)
        · refine .inl ?_
          rcases List.eq_nil_or_concat' pre' with rfl | ⟨pre, l', rfl⟩
          · rfl
          · rw [concat_append] at hnil
            rw [List.dropLast_concat]
            exact (List.append_eq_nil_iff.mp hnil).1
    · exact hback (hbeforeLeaf hconcat hlast hq hanswer hread')

/-- The last cluster of a text begins in the leaf of its end, or behind the beginning of the leaf
before that, unless this leaf is the first. -/
def InReach (g : GraphemeCursors) (rope : Tree Text) (before : Text) : Prop :=
  ∀ pre l post, rope.leaves = pre ++ l :: post → lenOf pre ≤ (bytes before).length →
    ((bytes before).length < lenOf pre + Leaf.len l ∨ post = []) →
      concat pre.dropLast = [] ∨ lenOf pre.dropLast < g.clusterStart before

theorem inReach_of_leaf {g : GraphemeCursors} {rope : Tree Text} (hrope : rope.height = 0)
    (before : Text) : InReach g rope before := by
  cases rope with
  | mk height root integrity =>
    obtain rfl : height = 0 := hrope
    intro pre l post hleaves _ _
    have hlength := congrArg List.length hleaves
    rw [List.length_append, List.length_cons] at hlength
    change 1 = _ at hlength
    obtain rfl : pre = [] := List.eq_nil_of_length_eq_zero (by omega)
    exact .inl rfl

/-- The cluster is found just when it begins within reach. -/
theorem prevGraphemeOffset_cases (g : GraphemeCursors) (rope : Tree Text) {before after : Text}
    (hflat : rope.flat = before ++ after) (hne : before ≠ []) :
    (InReach g rope before ∧ Settles (prevGraphemeOffset g rope (bytes before).length)
      (.done (some (g.clusterStart before)))) ∨
    (¬ InReach g rope before ∧
      Settles (prevGraphemeOffset g rope (bytes before).length) .running) := by
  obtain ⟨pre, l, post, hat, -, hposition, hle, hlt⟩ :=
    Cursor.new_at rope.integrity (bytes before).length
  have hsettles := prevGraphemeOffset_settles g rope hflat hne hat.leaves hle hlt
  split_ifs at hsettles with hreach
  · refine .inl ⟨fun pre' l' post' hleaves hle' hlt' ↦ ?_, hsettles⟩
    have hsettles' := prevGraphemeOffset_settles g rope hflat hne hleaves hle' hlt'
    split_ifs at hsettles' with hreach'
    · exact hreach'
    · cases hsettles.unique hsettles'
  · exact .inr ⟨fun h ↦ hreach (h pre l post hat.leaves hle hlt), hsettles⟩

/-! ## A text of one cluster -/

/-- The cursors where all characters of a text join. No context is asked for. -/
def oneCluster : GraphemeCursors where
  State := ℕ
  new offset _ := offset
  prevBoundary c _ start :=
    if c = start then (c, .error .prevChunk)
    else if start = 0 then (c, .ok (some 0))
    else (start, .error .prevChunk)
  provideContext c _ _ := some c
  clusterStart _ := 0
  ReadTo _ offset _ c := c = offset
  Awaits _ _ _ _ := False
  clusterStart_lt _ hne := len_pos hne
  clusterStart_boundary _ := isCharBoundary_zero
  clusterStart_crlf u _ := (len_pos
    (List.append_ne_nil_of_right_ne_nil u (List.cons_ne_nil '\r' []))).ne
  new_readTo _ _ _ := rfl
  at_start _ _ _ hread := ⟨_, if_pos hread, hread⟩
  within rest hbefore hpart hread := by
    rename_i before pre part known shown c
    obtain rfl : c = _ := hread
    have hpos := len_pos hpart
    have hlength : (bytes (pre ++ part)).length = (bytes pre).length + (bytes part).length :=
      length_bytes_append pre part
    rw [if_neg (by rw [hlength]; exact (Nat.lt_add_of_pos_right hpos).ne')]
    by_cases hpre : pre = []
    · exact ⟨_, .inl ⟨if_pos (congrArg (fun u ↦ (bytes u).length) hpre), .inr hpre⟩⟩
    · exact ⟨_, .inr (.inl ⟨if_neg (len_pos hpre).ne', hpre, Nat.zero_le _, rfl⟩)⟩
  provided _ _ hawaits := hawaits.elim

end EeEditor.BTree
