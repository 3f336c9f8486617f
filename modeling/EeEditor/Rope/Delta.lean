import EeEditor.Rope.Multiset

/-!
# Deltas

The model of `xi-rope/src/delta/`: a delta describes a new document as a sequence of sections
copied from the old one and of inserted text. A rope is the sequence of its elements, so the model
works over `List α` for an arbitrary element type.

Assertions, out-of-range slices and loops that would not end are `none`.
-/

namespace EeEditor

variable {α : Type}

/-- A section of the new document. -/
inductive DeltaElement (α : Type) where
  /-- A range of the base document, from `beg` up to but not including `end_`. -/
  | copy (beg end_ : ℕ)
  /-- Inserted text. -/
  | insert (n : List α)
deriving DecidableEq, Repr

/-- A change to a document of length `baseLen`. -/
structure Delta (α : Type) where
  els : List (DeltaElement α)
  baseLen : ℕ
deriving DecidableEq, Repr

/-- A delta that only inserts: it copies all of the base document, in order. -/
structure InsertDelta (α : Type) where
  delta : Delta α
deriving DecidableEq, Repr

/-- The subsequence of a rope in an interval. Panics on an interval outside the rope. -/
def subseq (base : List α) (beg end_ : ℕ) : Option (List α) :=
  if beg ≤ end_ ∧ end_ ≤ base.length then some ((base.drop beg).take (end_ - beg)) else none

/-- Delete a subset from a rope, by copying the ranges of its complement. -/
def Subset.deleteFrom (self : Subset) (s : List α) : Option (List α) :=
  (self.rangeIter .zero).foldlM (fun b range ↦ do
    let slice ← subseq s range.1 range.2
    return b ++ slice) []

namespace Delta

/-- The delta of `Builder::replace` on one interval, followed by `build`. -/
def simpleEdit (beg end_ : ℕ) (rope : List α) (baseLen : ℕ) : Delta α where
  els :=
    (if beg > 0 then [.copy 0 beg] else [])
      ++ (if rope.isEmpty then [] else [.insert rope])
      ++ (if end_ < baseLen then [.copy end_ baseLen] else [])
  baseLen := baseLen

/-- Apply the delta. Panics on a base of another length. -/
def apply (self : Delta α) (base : List α) : Option (List α) :=
  if base.length = self.baseLen then
    self.els.foldlM (fun b elem ↦
      match elem with
      | .copy beg end_ => do
        let slice ← subseq base beg end_
        return b ++ slice
      | .insert n => some (b ++ n)) []
  else none

/-! ## Factoring into insertions and deletions -/

/-- The loop state of `factor`. -/
structure FactorState (α : Type) where
  ins : List (DeltaElement α)
  sb : SubsetBuilder
  b1 : ℕ
  e1 : ℕ

def factorStep (st : FactorState α) : DeltaElement α → Option (FactorState α)
  | .copy b e => do
    let sb ← st.sb.addRange st.e1 b 1
    return { st with sb := sb, e1 := e }
  | .insert n =>
    let ins := if st.e1 > st.b1 then st.ins ++ [.copy st.b1 st.e1] else st.ins
    some { st with ins := ins ++ [.insert n], b1 := st.e1 }

/-- Factor the delta into an insert-only delta and the subset of the base it deletes. -/
def factor (self : Delta α) : Option (InsertDelta α × Subset) := do
  let st ← self.els.foldlM factorStep ⟨[], SubsetBuilder.new, 0, 0⟩
  let ins := if st.b1 < self.baseLen then st.ins ++ [.copy st.b1 self.baseLen] else st.ins
  let sb ← st.sb.addRange st.e1 self.baseLen 1
  return (⟨ins, self.baseLen⟩, (sb.padToLen self.baseLen).build)

/-! ## Synthesis from two deletion sets -/

/-- The loop state of `synthesize`: the length `x` of the old ranges passed, the old ranges not
passed yet (`last_old` is the first), the mapper into the tombstones, and the output. -/
structure SynthState (α : Type) where
  x : ℕ
  oldRanges : List (ℕ × ℕ)
  m : Mapper
  els : List (DeltaElement α)

/-- Skip the old ranges that end at or before `beg`. -/
def skipOld (beg : ℕ) : ℕ → List (ℕ × ℕ) → ℕ × List (ℕ × ℕ)
  | x, [] => (x, [])
  | x, (ib, ie) :: ranges =>
    if ie > beg then (x, (ib, ie) :: ranges) else skipOld beg (x + (ie - ib)) ranges

/-- Push a `Copy`, merging it into a preceding `Copy` that ends where it begins. -/
@[grind =] def pushCopy (xbeg xend : ℕ) : List (DeltaElement α) → List (DeltaElement α)
  | [] => [.copy xbeg xend]
  | [.copy b le] => if le = xbeg then [.copy b xend] else [.copy b le, .copy xbeg xend]
  | el :: els => el :: pushCopy xbeg xend els

/-- One turn of the loop that fills `beg..e`: copy what the old text has, insert from the
tombstones what it has not. Returns where the next turn begins. -/
def synthStep (tombstones : List α) (e beg : ℕ) (st : SynthState α) :
    Option (ℕ × SynthState α) :=
  let (x, oldRanges) := skipOld beg st.x st.oldRanges
  let insertUpTo (end_ : ℕ) : Option (ℕ × SynthState α) := do
    let (i, m) ← st.m.docIndexToSubset beg
    let (j, m) ← m.docIndexToSubset end_
    let n ← subseq tombstones i j
    return (end_, ⟨x, oldRanges, m, st.els ++ [.insert n]⟩)
  match oldRanges with
  | [] => insertUpTo e
  | (ib, ie) :: _ =>
    if ib ≤ beg then
      let end_ := min e ie
      some (end_, ⟨x, oldRanges, st.m, pushCopy (beg + x - ib) (end_ + x - ib) st.els⟩)
    else insertUpTo (min e ib)

/-- Fill `beg..e`. Every turn advances `beg`, so `e - beg` bounds the number of turns. -/
def synthFill (tombstones : List α) (e : ℕ) : ℕ → ℕ → SynthState α → Option (SynthState α)
  | 0, beg, st => if beg < e then none else some st
  | n + 1, beg, st =>
    if beg < e then do
      let (beg, st) ← synthStep tombstones e beg st
      synthFill tombstones e n beg st
    else some st

/-- The delta from the text without `fromDels` to the text without `toDels`. The inserted text
comes from `tombstones`, the elements of the union string in `fromDels`. -/
def synthesize (tombstones : List α) (fromDels toDels : Subset) : Option (Delta α) := do
  let st ← toDels.complementIter.foldlM
    (fun st range ↦ synthFill tombstones range.2 (range.2 - range.1) range.1 st)
    ⟨0, fromDels.complementIter, fromDels.mapper .nonZero, []⟩
  return ⟨st.els, fromDels.lenAfterDelete⟩

end Delta

namespace InsertDelta

/-! ## Transforms of insert-only deltas -/

/-- The loop state of `transform_expand`: the elements and the ranges of the complement of
`xform` not used up yet, and the three coordinates. -/
structure ExpandState (α : Type) where
  elements : List (DeltaElement α)
  sourceCoordinate : ℕ
  expandedCoordinate : ℕ
  copyStart : ℕ
  xformRanges : List (ℕ × ℕ)
  currentElements : List (DeltaElement α)

/-- The inner loop: emit the insertions at the current coordinate, then copy up to the end of the
next `Copy` or of the current range of the complement, whichever comes first. A `Copy` that lies
behind inserted elements of `xform` waits for the outer loop to jump over them. -/
def expandInner (nextRangeStart : ℕ) : List (DeltaElement α) → ExpandState α → ExpandState α
  | [], st => { st with currentElements := [] }
  | .insert node :: rest, st =>
    let elements :=
      if st.expandedCoordinate > st.copyStart then
        st.elements ++ [.copy st.copyStart st.expandedCoordinate]
      else st.elements
    expandInner nextRangeStart rest
      { st with
        elements := elements ++ [.insert node]
        copyStart := st.expandedCoordinate
        currentElements := rest }
  | .copy beg copyEnd :: rest, st =>
    if st.expandedCoordinate ≥ nextRangeStart then
      let full := copyEnd + st.expandedCoordinate - st.sourceCoordinate
      let nextExpanded :=
        match st.xformRanges with
        | [] => full
        | (_, rangeEnd) :: _ => min full rangeEnd
      let source := st.sourceCoordinate + (nextExpanded - st.expandedCoordinate)
      { st with
        sourceCoordinate := source
        expandedCoordinate := nextExpanded
        currentElements := if source = copyEnd then rest else .copy beg copyEnd :: rest
        xformRanges :=
          match st.xformRanges with
          | [] => []
          | (rangeStart, rangeEnd) :: ranges =>
            if nextExpanded = rangeEnd then ranges else (rangeStart, rangeEnd) :: ranges }
    else { st with currentElements := .copy beg copyEnd :: rest }

/-- Where the current range of the complement of `xform` begins, or the end of the document. -/
def nextRangeStart (expandedLen : ℕ) : List (ℕ × ℕ) → ℕ
  | [] => expandedLen
  | (rangeStart, _) :: _ => rangeStart

/-- One turn of the outer loop. `after` decides whether the coordinate jumps over elements
inserted by `xform` before or after the insertions of the delta at the same place. -/
def expandStep (after : Bool) (expandedLen : ℕ) (st : ExpandState α) : ExpandState α :=
  let nextRangeStart := nextRangeStart expandedLen st.xformRanges
  let st :=
    if after ∧ st.expandedCoordinate < nextRangeStart then
      { st with expandedCoordinate := nextRangeStart }
    else st
  let st := expandInner nextRangeStart st.currentElements st
  if !after ∧ st.expandedCoordinate < nextRangeStart then
    { st with expandedCoordinate := nextRangeStart }
  else st

/-- The outer loop, at most `n` turns of it. -/
def expandLoop (after : Bool) (expandedLen : ℕ) : ℕ → ExpandState α → Option (ExpandState α)
  | 0, _ => none
  | n + 1, st =>
    if st.expandedCoordinate < expandedLen ∨ st.currentElements ≠ [] then
      expandLoop after expandedLen n (expandStep after expandedLen st)
    else some st

/-- Expand the delta from the document without `xform` to the whole document. Every turn of the
loop advances the coordinate or uses up elements, which bounds the number of turns; a delta whose
base length is not that of the document without `xform` may loop forever. -/
def transformExpand (self : InsertDelta α) (xform : Subset) (after : Bool) :
    Option (InsertDelta α) := do
  let expandedLen := xform.count .all
  let st ← expandLoop after expandedLen (expandedLen + self.delta.els.length + 1)
    ⟨[], 0, 0, 0, xform.complementIter, self.delta.els⟩
  let elements :=
    if st.expandedCoordinate > st.copyStart then
      st.elements ++ [.copy st.copyStart st.expandedCoordinate]
    else st.elements
  return ⟨elements, expandedLen⟩

/-- Map the copied ranges through a mapper. -/
def shrinkElements : List (DeltaElement α) → Mapper → Option (List (DeltaElement α))
  | [], _ => some []
  | .copy b e :: els, m => do
    let (b, m) ← m.docIndexToSubset b
    let (e, m) ← m.docIndexToSubset e
    let els ← shrinkElements els m
    return .copy b e :: els
  | .insert n :: els, m => do
    let els ← shrinkElements els m
    return .insert n :: els

/-- Shrink the delta to the document without `xform`. -/
def transformShrink (self : InsertDelta α) (xform : Subset) : Option (InsertDelta α) := do
  let els ← shrinkElements self.delta.els (xform.mapper .zero)
  return ⟨els, xform.lenAfterDelete⟩

def insertedStep (sb : SubsetBuilder) : DeltaElement α → Option SubsetBuilder
  | .copy b e => sb.pushSegment (e - b) 0
  | .insert n => sb.pushSegment n.length 1

/-- The subset of the new document that the delta inserts. -/
def insertedSubset (self : InsertDelta α) : Option Subset := do
  let sb ← self.delta.els.foldlM insertedStep SubsetBuilder.new
  return sb.build

end InsertDelta

end EeEditor
