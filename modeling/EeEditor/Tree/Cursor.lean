import EeEditor.Tree.Node

/-!
# Cursors

The model of `xi-rope/src/tree/cursor.rs`. A cursor has a position, the leaf that holds it, and a
cache of the lowest `cursorCacheSize` levels of the path from the root to that leaf. Every operation
returns the cursor that it leaves behind; what `next_leaf` and `prev_leaf` return is what `getLeaf`
tells of that cursor.
-/

namespace EeEditor.BTree

def cursorCacheSize : ℕ := 4

variable {L : Type}

/-- The cached levels: the node of height `i + 1` on the path, and which of its children is next. -/
abbrev Cache (L : Type) := (i : ℕ) → Option (Node L (i + 1) × ℕ)

structure Cursor {h : ℕ} (root : Node L h) where
  position : ℕ
  cache : Cache L
  leaf : Option L
  offsetOfLeaf : ℕ

/-! ## Descending -/

/-- A descent to a leaf, recorded in the cache. The children are picked by `pick`, which carries a
state along and fails on a node without children. -/
def descendBy {σ : Type} (pick : (h : ℕ) → List (Node L h) → σ → Option (ℕ × σ)) :
    (h : ℕ) → Node L h → σ → Cache L → Option (Cache L × L × σ)
  | 0, l, s, cache => some (cache, l, s)
  | h + 1, n, s, cache => do
    let (i, s) ← pick h n.children s
    let child ← n.children[i]?
    descendBy pick h child s
      (if h < cursorCacheSize then Function.update cache h (some (n, i)) else cache)

section

variable [Leaf L]

/-- The child that holds a position, and where it begins. -/
def pickOffset (position : ℕ) (h : ℕ) : List (Node L h) → ℕ → Option (ℕ × ℕ)
  | [], _ => none
  | [_], offset => some (0, offset)
  | c :: c' :: cs, offset =>
    if position < offset + c.len then some (0, offset)
    else (pickOffset position h (c' :: cs) (offset + c.len)).map fun (i, s) ↦ (i + 1, s)

/-- The child that holds the boundary of a measure, with the measure left and where it begins. -/
def pickMeasure (M : Metric L) (h : ℕ) : List (Node L h) → ℕ × ℕ → Option (ℕ × ℕ × ℕ)
  | [], _ => none
  | [_], s => some (0, s)
  | c :: c' :: cs, (measure, offset) =>
    if measure ≤ c.measure M then some (0, measure, offset)
    else (pickMeasure M h (c' :: cs) (measure - c.measure M, offset + c.len)).map
      fun (i, s) ↦ (i + 1, s)

end

def pickFirst (h : ℕ) (children : List (Node L h)) (_ : Unit) : Option (ℕ × Unit) :=
  if children.isEmpty then none else some (0, ())

def pickLast (h : ℕ) (children : List (Node L h)) (_ : Unit) : Option (ℕ × Unit) :=
  if children.isEmpty then none else some (children.length - 1, ())

/-- The measure at the beginning of the leaf that holds `pos`. The loop of the source over the
children of a node finds one as long as `pos` lies in the tree. -/
def measureLeafFrom [Leaf L] (M : Metric L) : (h : ℕ) → Node L h → ℕ → ℕ → Option ℕ
  | 0, _, _, metric => some metric
  | h + 1, n, pos, metric => scan h n.children pos metric
where
  scan (h : ℕ) : List (Node L h) → ℕ → ℕ → Option ℕ
    | [], _, _ => none
    | c :: cs, pos, metric =>
      if pos < c.len then measureLeafFrom M h c pos metric
      else scan h cs (pos - c.len) (metric + c.measure M)

namespace Cursor

variable [Leaf L] {h : ℕ} {root : Node L h}

/-- `descend`: to the leaf that holds the position. -/
def descend (self : Cursor root) : Cursor root :=
  match descendBy (pickOffset self.position) h root 0 self.cache with
  | some (cache, leaf, offset) => { self with cache, leaf := some leaf, offsetOfLeaf := offset }
  | none => { self with leaf := none }

@[grind =] def new (root : Node L h) (position : ℕ) : Cursor root :=
  descend { position, cache := fun _ ↦ none, leaf := none, offsetOfLeaf := 0 }

/-- `descend_metric`: to the beginning of the leaf that holds the boundary of a measure. -/
def descendMetric (self : Cursor root) (M : Metric L) (measure : ℕ) : Cursor root :=
  match descendBy (pickMeasure M) h root (measure, 0) self.cache with
  | some (cache, leaf, _, offset) =>
    { position := offset, cache, leaf := some leaf, offsetOfLeaf := offset }
  | none => { self with leaf := none }

def measureLeaf (_ : Cursor root) (M : Metric L) (pos : ℕ) : Option ℕ :=
  measureLeafFrom M h root pos 0

@[grind =] def pos (self : Cursor root) : ℕ := self.position

def totalLen (_ : Cursor root) : ℕ := root.len

@[grind =] def getLeaf (self : Cursor root) : Option (L × ℕ) :=
  self.leaf.map fun l ↦ (l, self.position - self.offsetOfLeaf)

/-! ## From leaf to leaf -/

/-- Whether the loop over the levels of the cache ends at one: the level is missing, or the path can
move on to another of its children. -/
def endsAt (cache : Cache L) (room : ℕ → ℕ → Bool) (i : ℕ) : Bool :=
  match cache i with
  | none => true
  | some (node, j) => room j node.children.length

def levelFor (cache : Cache L) (room : ℕ → ℕ → Bool) : Option ℕ :=
  (List.range cursorCacheSize).find? (endsAt cache room)

/-- The path moves to another child of the node of a level, and from there down to a leaf. -/
def moveTo (pick : (h : ℕ) → List (Node L h) → Unit → Option (ℕ × Unit)) (cache : Cache L) (i : ℕ)
    (node : Node L (i + 1)) (j : ℕ) : Option (Cache L × L) := do
  let child ← node.children[j]?
  let (cache, leaf, _) ← descendBy pick i child () (Function.update cache i (some (node, j)))
  return (cache, leaf)

def nextLeaf (self : Cursor root) : Cursor root :=
  match self.leaf with
  | none => self
  | some leaf =>
    let self := { self with position := self.offsetOfLeaf + Leaf.len leaf }
    match levelFor self.cache fun j len ↦ j + 1 < len with
    | some i =>
      match self.cache i with
      | none => { self with leaf := none }
      | some (node, j) =>
        match moveTo pickFirst self.cache i node (j + 1) with
        | some (cache, leaf) =>
          { self with cache, leaf := some leaf, offsetOfLeaf := self.position }
        | none => { self with leaf := none }
    | none =>
      if self.offsetOfLeaf + Leaf.len leaf = root.len then { self with leaf := none }
      else self.descend

def prevLeaf (self : Cursor root) : Cursor root :=
  if self.offsetOfLeaf = 0 then { self with leaf := none, position := 0 }
  else
    match levelFor self.cache fun j _ ↦ 0 < j with
    | some i =>
      match self.cache i with
      | none => { self with leaf := none }
      | some (node, j) =>
        match moveTo pickLast self.cache i node (j - 1) with
        | some (cache, leaf) =>
          let offset := self.offsetOfLeaf - Leaf.len leaf
          { position := offset, cache, leaf := some leaf, offsetOfLeaf := offset }
        | none => { self with leaf := none }
    | none =>
      let self : Cursor root := descend { self with position := self.offsetOfLeaf - 1 }
      { self with position := self.offsetOfLeaf }

/-- `leaf_at`. -/
def leafAt (_ : Cursor root) (position : ℕ) : Option (L × ℕ) :=
  (descendBy (pickOffset position) h root 0 fun _ ↦ none).map fun (_, leaf, offset) ↦ (leaf, offset)

/-- `peek_prev_leaf`: a level that is missing ends the search for a sibling. -/
def peekPrevLeaf (self : Cursor root) : Option (L × ℕ) :=
  if self.offsetOfLeaf = 0 then none
  else
    match (levelFor self.cache fun j _ ↦ 0 < j).bind fun i ↦ (self.cache i).map (Sigma.mk i) with
    | some ⟨i, node, j⟩ =>
      (moveTo pickLast self.cache i node (j - 1)).map fun (_, leaf) ↦
        (leaf, self.offsetOfLeaf - Leaf.len leaf)
    | none => self.leafAt (self.offsetOfLeaf - 1)

/-! ## Positions and boundaries -/

def set (self : Cursor root) (position : ℕ) : Cursor root :=
  let self := { self with position }
  match self.leaf with
  | none => self.descend
  | some l =>
    if self.offsetOfLeaf ≤ position ∧ position < self.offsetOfLeaf + Leaf.len l then self
    else if position = self.offsetOfLeaf + Leaf.len l ∧ position < root.len ∧
        self.nextLeaf.leaf.isSome then
      self.nextLeaf
    else if position + 1 = self.offsetOfLeaf ∧ self.prevLeaf.leaf.isSome then self.prevLeaf
    else self.descend

def isBoundary (self : Cursor root) (M : Metric L) : Bool :=
  match self.leaf with
  | none => false
  | some leaf =>
    if self.position = self.offsetOfLeaf ∧ M.canFragment = false then true
    else if self.position = 0 ∨ self.offsetOfLeaf < self.position then
      M.isBoundary leaf (self.position - self.offsetOfLeaf)
    else
      match self.peekPrevLeaf with
      | none => false
      | some (prevLeaf, _) => M.isBoundary prevLeaf (Leaf.len prevLeaf)

/-- `next_inside_leaf`, with the cursor at the boundary that it finds. -/
def nextInsideLeaf (self : Cursor root) (M : Metric L) : Option (Cursor root) := do
  let l ← self.leaf
  let offsetInLeaf ← M.next l (self.position - self.offsetOfLeaf)
  return if offsetInLeaf = Leaf.len l ∧ self.offsetOfLeaf + offsetInLeaf ≠ root.len then
    self.nextLeaf
  else { self with position := self.offsetOfLeaf + offsetInLeaf }

/-- `last_inside_leaf`, with the cursor at the boundary that it finds. -/
def lastInsideLeaf (self : Cursor root) (M : Metric L) (origPos : ℕ) : Option (Cursor root) := do
  let l ← self.leaf
  if self.offsetOfLeaf + Leaf.len l < origPos ∧ M.isBoundary l (Leaf.len l) then
    return self.nextLeaf
  else
    let offsetInLeaf ← M.prev l (Leaf.len l)
    return { self with position := self.offsetOfLeaf + offsetInLeaf }

/-- A cursor at a boundary, with the position that is returned. -/
def found (self : Cursor root) : Cursor root × Option ℕ := (self, some self.position)

@[grind =] def next (self : Cursor root) (M : Metric L) : Cursor root × Option ℕ :=
  if root.len ≤ self.position ∨ self.leaf.isNone then ({ self with leaf := none }, none)
  else
    match self.nextInsideLeaf M with
    | some self => self.found
    | none =>
      let self := self.nextLeaf
      if self.leaf.isNone then (self, none)
      else
        match self.nextInsideLeaf M with
        | some self => self.found
        | none =>
          match self.measureLeaf M self.position with
          | none => ({ self with leaf := none }, none)
          | some measure =>
            let self := self.descendMetric M (measure + 1)
            match self.nextInsideLeaf M with
            | some self => self.found
            | none => ({ self with position := root.len, leaf := none }, none)

/-- The boundary before the position in its own leaf. -/
def prevInsideLeaf (self : Cursor root) (M : Metric L) : Option (Cursor root) := do
  let l ← self.leaf
  let offsetInLeaf := self.position - self.offsetOfLeaf
  if 0 < offsetInLeaf then
    let offsetInLeaf ← M.prev l offsetInLeaf
    return { self with position := self.offsetOfLeaf + offsetInLeaf }
  else none

def prev (self : Cursor root) (M : Metric L) : Cursor root × Option ℕ :=
  if self.position = 0 ∨ self.leaf.isNone then ({ self with leaf := none }, none)
  else
    match self.prevInsideLeaf M with
    | some self => self.found
    | none =>
      let origPos := self.position
      let self := self.prevLeaf
      if self.leaf.isNone then (self, none)
      else
        match self.lastInsideLeaf M origPos with
        | some self => self.found
        | none =>
          match self.measureLeaf M self.position with
          | none => ({ self with leaf := none }, none)
          | some 0 => ({ self with leaf := none, position := 0 }, none)
          | some measure =>
            let self := self.descendMetric M measure
            match self.lastInsideLeaf M origPos with
            | some self => self.found
            | none => (self, none)

def atOrNext (self : Cursor root) (M : Metric L) : Cursor root × Option ℕ :=
  if self.isBoundary M then self.found else self.next M

def atOrPrev (self : Cursor root) (M : Metric L) : Cursor root × Option ℕ :=
  if self.isBoundary M then self.found else self.prev M

def leafStartOffset (self : Cursor root) : Option ℕ := self.leaf.map fun _ ↦ self.offsetOfLeaf

/-- What a cached level holds before the path. -/
def cachedMeasure (M : Metric L) {i : ℕ} : Option (Node L (i + 1) × ℕ) → ℕ
  | none => 0
  | some (node, childIdx) => ((node.children.take childIdx).map (Node.measure M)).sum

/-- `leaf_start_measure`. -/
def leafStartMeasure (self : Cursor root) (M : Metric L) : Option ℕ :=
  self.leaf.map fun _ ↦
    ((List.range cursorCacheSize).map fun i ↦ cachedMeasure M (self.cache i)).sum

end Cursor

end EeEditor.BTree
