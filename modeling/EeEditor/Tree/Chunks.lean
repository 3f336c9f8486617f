import EeEditor.Tree.Navigation
import EeEditor.Tree.TextConvert

/-!
# The chunks of a rope

The model of `chunk_at_offset` in `xi-rope/src/rope/core.rs` and of `try_chunks_at_byte` in
`rope/iter.rs`. What lies before a chunk is summed up along the cached levels of a cursor, which are
the whole path in a tree of up to four levels only: in a higher tree the sum begins at the node of
height four that holds the chunk.
-/

namespace EeEditor.BTree

inductive RopeError
  | offsetOutOfBounds (offset len : ℕ)
  | lineOutOfBounds (line maxLine : ℕ)
  | charOffsetOutOfBounds (offset len : ℕ)

/-- The chunk of a rope, and the bytes, newlines and UTF-16 code units before it. -/
structure Chunk where
  text : Text
  startByte : ℕ
  startLine : ℕ
  startUtf16 : ℕ

/-- An iterator over the chunks of a range. -/
structure ChunkIter {h : ℕ} (root : Node Text h) where
  cursor : Cursor root
  end_ : ℕ

section

variable {h : ℕ} (root : Node Text h)

def chunkAtOffset (byteOffset : ℕ) : Option Chunk :=
  if root.len < byteOffset then none
  else do
    let cursor := Cursor.new root byteOffset
    let (leaf, _) ← cursor.getLeaf
    let startByte ← cursor.leafStartOffset
    let startLine ← cursor.leafStartMeasure linesMetric
    let startUtf16 ← cursor.leafStartMeasure utf16CodeUnitsMetric
    return ⟨leaf, startByte, startLine, startUtf16⟩

def validateOffset (offset : ℕ) : Except RopeError Unit :=
  if root.len < offset then .error (.offsetOutOfBounds offset root.len) else .ok ()

def iterChunks (start end_ : ℕ) : ChunkIter root := ⟨Cursor.new root start, end_⟩

/-- `try_chunks_at_byte`: the iterator, and the byte, char and line where its first chunk begins. -/
def tryChunksAtByte (byteIdx fuel : ℕ) : Outcome (Except RopeError (ChunkIter root × ℕ × ℕ × ℕ)) :=
  match validateOffset root byteIdx with
  | .error e => .done (.error e)
  | .ok () => (Outcome.ofOption (chunkAtOffset root byteIdx)).bind fun chunk ↦
    (convertMetrics baseMetric charsMetric root chunk.startByte fuel).bind fun charStart ↦
      .done (.ok (iterChunks root chunk.startByte root.len, chunk.startByte, charStart,
        chunk.startLine))

end

/-! ## What the cached levels hold -/

section

variable {L : Type} {h i k : ℕ} {f : Frames L} {l : L} {M : Metric L}

/-- The leaves before a path, as far down as a level. -/
def Frames.beforeDown (f : Frames L) (k : ℕ) : ℕ → List L
  | 0 => []
  | j + 1 => Node.leavesOf (f (k + j)).1 ++ beforeDown f k j

theorem Frames.before_add (f : Frames L) (k j : ℕ) :
    f.before (k + j) = f.beforeDown k j ++ f.before k := by
  induction j with
  | zero => rfl
  | succ j ih => rw [← Nat.add_assoc, before, ih, beforeDown, List.append_assoc]

variable [Leaf L] {root : Node L h} {c : Cursor root}

omit [Leaf L] in
theorem sum_siblings (M : Metric L) (f : Frames L) (n : ℕ) :
    ((List.range n).map fun i ↦ measureNodes M (f i).1).sum = measureOf M (f.before n) := by
  induction n with
  | zero => rfl
  | succ n ih =>
    rw [List.range_succ, List.map_append, List.sum_append, ih, Frames.before, measureOf_append,
      ← measureNodes_eq, Nat.add_comm]
    rfl

/-- A sum over some levels, of which only those below a height count. -/
theorem sum_levels (g : ℕ → ℕ) (h n : ℕ) :
    ((List.range n).map fun i ↦ if i < h then g i else 0).sum
      = ((List.range (min h n)).map g).sum := by
  induction n with
  | zero => rw [Nat.min_zero]; rfl
  | succ n ih =>
    rw [List.range_succ, List.map_append, List.sum_append, ih, List.map_singleton,
      List.sum_singleton]
    rcases Nat.lt_or_ge n h with hlt | hge
    · rw [if_pos hlt, Nat.min_eq_right hlt.le, Nat.min_eq_right hlt, List.range_succ,
        List.map_append, List.sum_append, List.map_singleton, List.sum_singleton]
    · rw [if_neg (Nat.not_lt.mpr hge), Nat.min_eq_left hge, Nat.min_eq_left (Nat.le_succ_of_le hge),
        Nat.add_zero]

/-- A cursor adds up what lies before the path on the cached levels. -/
theorem Cursor.OnPath.leafStartMeasure (hc : c.OnPath f l) (hleaf : c.leaf = some l)
    (M : Metric L) :
    c.leafStartMeasure M = some (measureOf M (f.before (min h cursorCacheSize))) := by
  have hlevel : ∀ i ∈ List.range cursorCacheSize,
      cachedMeasure M (c.cache i) = if i < h then measureNodes M (f i).1 else 0 := by
    intro i hi
    rw [List.mem_range] at hi
    split
    · rename_i hlt
      rw [hc.follows i hlt hi, cachedMeasure, Frames.children_node, List.take_left']
      · rfl
      · rfl
    · rename_i hge
      rw [hc.above i (Nat.not_lt.mp hge) hi]
      rfl
  rw [Cursor.leafStartMeasure, hleaf, Option.map_some, List.map_congr_left hlevel, sum_levels,
    sum_siblings]

/-! ## The first node of a height -/

/-- The length of the first node of a height, or of a tree that is not higher. -/
def firstLen (k : ℕ) : (h : ℕ) → Node L h → ℕ
  | 0, (l : L) => Leaf.len l
  | h + 1, n =>
    if h + 1 ≤ k then n.len
    else match n.children with
      | [] => 0
      | c :: _ => firstLen k h c

theorem firstLen_le (k : ℕ) : (h : ℕ) → (n : Node L h) → firstLen k h n ≤ n.len
  | 0, _ => Nat.le_refl _
  | h + 1, n => by
    rw [firstLen]
    split
    · exact Nat.le_refl _
    · split
      · exact Nat.zero_le _
      · rename_i c cs hchildren
        rw [Node.len_eq, Node.leaves_succ, hchildren, Node.leavesOf_cons, lenOf_append,
          ← Node.len_eq]
        exact (firstLen_le k h c).trans (Nat.le_add_right _ _)

theorem firstLen_of_le (hle : h ≤ k) (n : Node L h) : firstLen k h n = n.len := by
  cases h with
  | zero => rfl
  | succ h => exact if_pos hle

/-- A path begins with the first node of a height, or after it. -/
theorem firstLen_path (j : ℕ) (hinner : ∀ i < k + j, (f.node l (i + 1)).Inner (i + 1)) :
    (f.beforeDown k j = [] ∧ firstLen k (k + j) (f.node l (k + j)) = (f.node l k).len) ∨
      (f.beforeDown k j ≠ [] ∧
        firstLen k (k + j) (f.node l (k + j)) ≤ lenOf (f.beforeDown k j)) := by
  induction j with
  | zero => exact .inl ⟨rfl, firstLen_of_le (Nat.le_refl k) _⟩
  | succ j ih =>
    have ih := ih fun i hi ↦ hinner i (Nat.lt_succ_of_lt hi)
    have hthis := hinner (k + j) (Nat.lt_succ_self _)
    have hchildren := Frames.children_node f l (k + j)
    have hhigh : ¬ k + j + 1 ≤ k := by omega
    rw [Frames.beforeDown, ← Nat.add_assoc, firstLen, if_neg hhigh]
    cases hsiblings : (f (k + j)).1 with
    | nil =>
      rw [hsiblings, List.nil_append] at hchildren
      rw [hchildren, Node.leavesOf_nil, List.nil_append]
      exact ih
    | cons c cs =>
      rw [hsiblings] at hchildren
      rw [hchildren]
      have hc := hthis.2.2 c (hchildren ▸ List.mem_cons_self)
      right
      rw [Node.leavesOf_cons]
      refine ⟨?_, ?_⟩
      · rw [List.append_assoc]
        exact List.append_ne_nil_of_left_ne_nil hc.leaves_ne_nil _
      · rw [lenOf_append, lenOf_append, ← Node.len_eq]
        have := firstLen_le k (k + j) c
        change firstLen k (k + j) c ≤ _
        omega

end

/-! ## Chunks -/

section

variable {h : ℕ} {root : Node Text h} {pre post : List Text} {l : Text} {offset : ℕ}

/-- The leaf that holds an offset, with what is before it. -/
structure Holds (root : Node Text h) (offset : ℕ) (pre : List Text) (l : Text) (post : List Text) :
    Prop where
  leaves : root.leaves h = pre ++ l :: post
  le : lenOf pre ≤ offset
  lt : offset < lenOf pre + Leaf.len l ∨ (post = [] ∧ offset = lenOf pre + Leaf.len l)

/-- What `chunk_at_offset` should return: the leaf, and the numbers of bytes, newlines and UTF-16
code units before it. -/
def chunkOf (pre : List Text) (l : Text) : Chunk where
  text := l
  startByte := (bytes (concat pre)).length
  startLine := countNewlines (bytes (concat pre))
  startUtf16 := countUtf16CodeUnits (bytes (concat pre))

/-- The chunk that is found, with what lies before it as far as the cached levels tell. -/
theorem chunkAtOffset_eq (hroot : h = 0 ∨ root.Inner h) (hoffset : offset ≤ root.len) :
    ∃ (f : Frames Text) (l : Text), root = f.node l h ∧
    Holds root offset (f.before h) l (f.after h) ∧
      (∀ k < h, (f.node l (k + 1)).Inner (k + 1)) ∧
      chunkAtOffset root offset = some ⟨l, lenOf (f.before h),
        measureOf linesMetric (f.before (min h cursorCacheSize)),
        measureOf utf16CodeUnitsMetric (f.before (min h cursorCacheSize))⟩ := by
  obtain ⟨pre, l, post, hstands, hposition⟩ :=
    Cursor.NoneAbove.descend (c := ⟨offset, fun _ ↦ none, none, 0⟩) hroot (fun _ _ _ ↦ rfl) hoffset
  obtain ⟨⟨f, hf, rfl, rfl⟩, hleaf, hle, hlt⟩ := hstands
  have hnew : Cursor.new root offset
      = Cursor.descend (⟨offset, fun _ ↦ none, none, 0⟩ : Cursor root) := rfl
  rw [← hnew] at hf hleaf hle hlt hposition
  rw [hposition] at hle hlt
  refine ⟨f, l, hf.node, ⟨?_, hle, hlt⟩, fun k hk ↦ hf.inner hroot hk, ?_⟩
  · rw [← Frames.leaves_node, ← hf.node]
  · rw [chunkAtOffset, if_neg (Nat.not_lt.mpr hoffset)]
    simp only [Cursor.getLeaf, Cursor.leafStartOffset, hf.leafStartMeasure hleaf, hleaf,
      Option.map_some, Option.bind_eq_bind, Option.bind_some, hf.offset]
    rfl

/-- A text without code units is empty. -/
theorem eq_nil_of_utf16 {s : Text} (h : countUtf16CodeUnits (bytes s) = 0) : s = [] := by
  cases s with
  | nil => rfl
  | cons c s =>
    have := weighs_utf16.pos c
    rw [weighs_utf16.cons] at h
    omega

/-- Some leaves of a tree that is not a single leaf have code units. -/
theorem utf16_pos (hroot : root.Inner h) {ls ls' : List Text} (hleaves : root.leaves h = ls ++ ls')
    (hne : ls ≠ []) : 0 < measureOf utf16CodeUnitsMetric ls := by
  cases ls with
  | nil => exact absurd rfl hne
  | cons l ls =>
    have hl := hroot.pos l (hleaves ▸ List.mem_cons_self)
    rw [measureOf_cons, counts_utf16.measure]
    by_contra hzero
    rw [eq_nil_of_utf16 (show countUtf16CodeUnits (bytes l) = 0 by omega)] at hl
    exact Nat.lt_irrefl 0 hl

/-- A path along the first node of a height does not end the tree above that height. -/
theorem after_ne_nil {k j : ℕ} {f : Frames Text}
    (hinner : ∀ i < k + j + 1, (f.node l (i + 1)).Inner (i + 1))
    (hdown : f.beforeDown k (j + 1) = []) : f.after (k + (j + 1)) ≠ [] := by
  have hthis := hinner (k + j) (Nat.lt_succ_self _)
  have hleaves : ∀ c ∈ (f.node l (k + j + 1)).children, Node.leaves (k + j) c ≠ [] := fun c hc ↦
    (hthis.2.2 c hc).leaves_ne_nil
  have hlen := hthis.1
  rw [Frames.children_node] at hleaves hlen
  rw [Frames.beforeDown, List.append_eq_nil_iff] at hdown
  have hfirst : (f (k + j)).1 = [] := by
    cases hsiblings : (f (k + j)).1 with
    | nil => rfl
    | cons c cs =>
      rw [hsiblings, Node.leavesOf_cons, List.append_eq_nil_iff] at hdown
      refine absurd hdown.1.1 (hleaves c ?_)
      rw [hsiblings]
      exact List.mem_append_left _ List.mem_cons_self
  rw [← Nat.add_assoc, Frames.after]
  cases hsiblings : (f (k + j)).2 with
  | nil =>
    rw [hfirst, hsiblings] at hlen
    exact absurd hlen (Nat.not_succ_le_self 1)
  | cons c cs =>
    rw [Node.leavesOf_cons]
    refine List.append_ne_nil_of_right_ne_nil _ (List.append_ne_nil_of_left_ne_nil (hleaves c ?_) _)
    rw [hsiblings]
    exact List.mem_append_right _ (List.mem_cons_of_mem _ List.mem_cons_self)

/-- Where no leaf is empty, a leaf is told by what is before it. -/
theorem prefix_eq (hroot : root.Inner h) {ls ls' rest rest' : List Text}
    (hleaves : root.leaves h = ls ++ rest) (hleaves' : root.leaves h = ls' ++ rest')
    (hlen : lenOf ls = lenOf ls') : ls = ls' := by
  have hempty : ∀ as : List Text, (∀ a ∈ as, a ∈ root.leaves h) → lenOf as = 0 → as = [] := by
    intro as hmem hzero
    cases as with
    | nil => rfl
    | cons a as =>
      have := hroot.pos a (hmem a List.mem_cons_self)
      rw [lenOf_cons] at hzero
      omega
  rcases List.append_eq_append_iff.mp (hleaves.symm.trans hleaves') with ⟨as, rfl, has⟩ |
    ⟨as, rfl, has⟩
  · rw [lenOf_append] at hlen
    rw [hempty as (fun a ha ↦ ?_) (by omega), List.append_nil]
    rw [hleaves, has]
    exact List.mem_append_right _ (List.mem_append_left _ ha)
  · rw [lenOf_append] at hlen
    rw [hempty as (fun a ha ↦ ?_) (by omega), List.append_nil]
    rw [hleaves', has]
    exact List.mem_append_right _ (List.mem_append_left _ ha)

/-- What the cached levels tell is everything just if there are no more levels, or nothing lies
before the node of the highest of them. -/
theorem beforeDown_cases (hroot : root.Inner h) {j : ℕ} (hj : h = cursorCacheSize + j)
    {f : Frames Text} (hnode : root = f.node l h)
    (hholds : Holds root offset (f.before h) l (f.after h))
    (hinner : ∀ k < h, (f.node l (k + 1)).Inner (k + 1)) :
    (f.beforeDown cursorCacheSize j = [] ∧
        (h ≤ cursorCacheSize ∨ offset < firstLen cursorCacheSize h root)) ∨
      (0 < measureOf utf16CodeUnitsMetric (f.beforeDown cursorCacheSize j) ∧
        ¬ (h ≤ cursorCacheSize ∨ offset < firstLen cursorCacheSize h root)) := by
  subst hj
  have hle := hholds.le
  rw [f.before_add, lenOf_append] at hle
  rw [hnode]
  rcases firstLen_path j hinner with ⟨hdown, hlen⟩ | ⟨hdown, hlen⟩
  · left
    refine ⟨hdown, ?_⟩
    cases j with
    | zero => exact .inl (Nat.le_refl _)
    | succ j =>
      right
      rw [hlen, Node.len_eq, Frames.leaves_node, lenOf_append, lenOf_cons]
      rcases hholds.lt with hlt | ⟨hlast, -⟩
      · rw [f.before_add, hdown, List.nil_append] at hlt
        omega
      · exact absurd hlast (after_ne_nil hinner hdown)
  · right
    have hleaves := hholds.leaves
    rw [f.before_add, List.append_assoc] at hleaves
    refine ⟨utf16_pos hroot hleaves hdown, ?_⟩
    rintro (hlow | hlt)
    · cases j with
      | zero => exact hdown rfl
      | succ j => omega
    · omega

/-- The chunk is right just if the tree has no more levels than the cursor caches, or the offset
lies in the first node of that height. -/
theorem chunkAtOffset_iff (hroot : h = 0 ∨ root.Inner h) (hoffset : offset ≤ root.len) :
    (∃ pre l post, Holds root offset pre l post ∧
    chunkAtOffset root offset = some (chunkOf pre l)) ↔
      (h ≤ cursorCacheSize ∨ offset < firstLen cursorCacheSize h root) := by
  obtain ⟨f, l, hnode, hholds, hinner, hchunk⟩ := chunkAtOffset_eq hroot hoffset
  have hright : f.before (min h cursorCacheSize) = f.before h →
      chunkAtOffset root offset = some (chunkOf (f.before h) l) := by
    intro heq
    rw [hchunk, heq, counts_lines.measureOf, counts_utf16.measureOf, lenOf_eq]
    rfl
  rcases Nat.le_total h cursorCacheSize with hle | hle
  · refine iff_of_true ⟨_, l, _, hholds, hright ?_⟩ (.inl hle)
    rw [Nat.min_eq_left hle]
  obtain ⟨j, hj⟩ := Nat.exists_eq_add_of_le hle
  rcases Nat.eq_zero_or_pos h with rfl | hpos
  · exact absurd hle (by decide)
  have hinnerRoot := hroot.resolve_left hpos.ne'
  have hsplit : f.before h = f.beforeDown cursorCacheSize j ++ f.before cursorCacheSize := by
    rw [hj, f.before_add]
  rcases beforeDown_cases hinnerRoot hj hnode hholds hinner with ⟨hdown, hcond⟩ | ⟨hdown, hcond⟩
  · refine iff_of_true ⟨_, l, _, hholds, hright ?_⟩ hcond
    rw [Nat.min_eq_right hle, hsplit, hdown, List.nil_append]
  · refine iff_of_false ?_ hcond
    rintro ⟨pre', l', post', hholds', hchunk'⟩
    have heq := Option.some_inj.mp (hchunk.symm.trans hchunk')
    rw [chunkOf, Chunk.mk.injEq] at heq
    obtain ⟨-, hlen, -, hutf16⟩ := heq
    rw [← lenOf_eq] at hlen
    obtain rfl := prefix_eq hinnerRoot hholds.leaves hholds'.leaves hlen
    rw [← counts_utf16.measureOf, hsplit, measureOf_append, Nat.min_eq_right hle] at hutf16
    omega

/-- The chunks from the one that is right, with the numbers of bytes, characters and newlines before
it. -/
theorem tryChunksAtByte_of_chunk (hroot : h = 0 ∨ root.Inner h)
    (hholds : Holds root offset pre l post)
    (hoffset : offset ≤ root.len) (hchunk : chunkAtOffset root offset = some (chunkOf pre l)) :
    Settles (tryChunksAtByte root offset) (.done (.ok (iterChunks root (lenOf pre) root.len,
      lenOf pre, countChars (bytes (concat pre)), countNewlines (bytes (concat pre))))) := by
  have hstart : (bytes (concat pre)).length ≤ root.len := by
    rw [Node.len_eq, hholds.leaves, lenOf_append, ← lenOf_eq]
    exact Nat.le_add_right _ _
  have hboundary : isCharBoundary (bytes (concat (root.leaves h))) (bytes (concat pre)).length
      = true := by
    rw [hholds.leaves, ← lenOf_eq]
    exact (mem_boundariesOf_between (M := baseMetric) (charMetric_lawful _ _ _)).mpr
      (lenOf_mem_boundariesOf (charMetric_lawful _ _ _) rfl pre)
  have hchars := counts_chars.settles hroot hstart hboundary
  have htake : (bytes (concat (root.leaves h))).take (bytes (concat pre)).length
      = bytes (concat pre) := by
    rw [hholds.leaves, concat_append, bytes_append, List.take_left']
    rfl
  rw [htake] at hchars
  have hvalid : validateOffset root offset = .ok () := if_neg (Nat.not_lt.mpr hoffset)
  rw [lenOf_eq]
  obtain ⟨n, hn⟩ := hchars
  refine ⟨n, fun k ↦ ?_⟩
  simp only [tryChunksAtByte, hvalid, hchunk, Outcome.ofOption, Outcome.done_bind]
  rw [show (chunkOf pre l).startByte = (bytes (concat pre)).length from rfl, hn]
  rfl

end

/-- `chunk_at_offset` tells what is before the chunk, and `try_chunks_at_byte` the line where its
first chunk begins, just if the tree has no more levels than a cursor caches, or the offset lies in
the first of its nodes of that height. -/
theorem chunk_start_iff (t : Tree Text) {offset : ℕ} (hoffset : offset ≤ t.len) :
    (∃ pre l post, Holds t.root offset pre l post ∧
      chunkAtOffset t.root offset = some (chunkOf pre l) ∧
      Settles (tryChunksAtByte t.root offset) (.done (.ok (iterChunks t.root (lenOf pre) t.len,
        lenOf pre, countChars (bytes (concat pre)), countNewlines (bytes (concat pre)))))) ↔
      (t.height ≤ cursorCacheSize ∨ offset < firstLen cursorCacheSize t.height t.root) := by
  rw [← chunkAtOffset_iff t.integrity hoffset]
  constructor
  · rintro ⟨pre, l, post, hholds, hchunk, -⟩
    exact ⟨pre, l, post, hholds, hchunk⟩
  · rintro ⟨pre, l, post, hholds, hchunk⟩
    exact ⟨pre, l, post, hholds, hchunk,
      tryChunksAtByte_of_chunk t.integrity hholds hoffset hchunk⟩

theorem chunk_start_third : ∃ pre l post, Holds fourLeaves.root 2500 pre l post ∧
    chunkAtOffset fourLeaves.root 2500 = some (chunkOf pre l) ∧
    Settles (tryChunksAtByte fourLeaves.root 2500) (.done (.ok (iterChunks fourLeaves.root
      (lenOf pre) fourLeaves.len, lenOf pre, countChars (bytes (concat pre)),
      countNewlines (bytes (concat pre))))) :=
  (chunk_start_iff fourLeaves (by rw [len_fourLeaves]; decide)).mpr
    (.inl (by decide : 1 ≤ cursorCacheSize))

theorem firstLen_tower {L : Type} [Leaf L] (l : L) (k : ℕ) :
    firstLen k (k + 1) (Node.tower l (k + 1)) = (Node.tower l k).len := by
  rw [firstLen, if_neg (Nat.not_succ_le_self k)]
  exact firstLen_of_le (Nat.le_refl k) _

/-- In a rope of five levels the UTF-16 code units before the second quarter are not told. -/
theorem chunk_start_lost : ∃ (t : Tree Text) (offset : ℕ), offset ≤ t.len ∧
    ¬ ∃ pre l post, Holds t.root offset pre l post ∧
      chunkAtOffset t.root offset = some (chunkOf pre l) := by
  have hlen : Leaf.len (List.replicate 511 'a') = 511 := length_bytes_replicate 511 'a'
  have hpos : 0 < Leaf.len (List.replicate 511 'a') := by rw [hlen]; decide
  have htotal : (Tree.tower (List.replicate 511 'a') hpos 5).len = 4 ^ 5 * 511 := by
    rw [Tree.len, Tree.tower, Node.len_tower, hlen]
  have hle : 4 ^ 4 * 511 ≤ (Tree.tower (List.replicate 511 'a') hpos 5).len := by
    rw [htotal]
    decide
  refine ⟨Tree.tower (List.replicate 511 'a') hpos 5, 4 ^ 4 * 511, hle, ?_⟩
  rw [chunkAtOffset_iff (Tree.integrity _) hle]
  rintro (hlow | hlt)
  · exact absurd hlow (show ¬ 5 ≤ cursorCacheSize by decide)
  · have hfirst : firstLen cursorCacheSize 5 (Node.tower (List.replicate 511 'a') 5)
      = 4 ^ 4 * 511 := by
      rw [cursorCacheSize, firstLen_tower, Node.len_tower, hlen]
    exact Nat.lt_irrefl _ (hlt.trans_eq hfirst)

end EeEditor.BTree
