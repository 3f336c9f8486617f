import EeEditor.Rope.Transformer
import EeEditor.Sequence.BinarySearch

/-!
# Selections

The model of `xi-core-lib/src/selection.rs`, and of `remove_n_at` of `index_set.rs`. `none` is a
panic: an index out of range, or an unsigned difference below zero.
-/

namespace EeEditor

inductive Affinity where
  | downstream
  | upstream
deriving DecidableEq

structure SelRegion where
  /-- The inactive edge. -/
  start : ℕ
  /-- The active edge. -/
  end_ : ℕ
  horiz : Option ℕ
  affinity : Affinity
deriving DecidableEq

namespace SelRegion

def new (start end_ : ℕ) : SelRegion := ⟨start, end_, none, .downstream⟩

def withAffinity (self : SelRegion) (affinity : Affinity) : SelRegion :=
  { self with affinity := affinity }

def min (self : SelRegion) : ℕ := Min.min self.start self.end_

def max (self : SelRegion) : ℕ := Max.max self.start self.end_

def isCaret (self : SelRegion) : Bool := self.start == self.end_

/-- Whether the region should merge with the next. -/
def shouldMerge (self other : SelRegion) : Bool :=
  other.min < self.max || (self.isCaret || other.isCaret) && other.min == self.max

/-- Merge with an overlapping region. The direction is kept. -/
def mergeWith (self other : SelRegion) : SelRegion :=
  let isForward := self.end_ ≥ self.start
  let newMin := Min.min self.min other.min
  let newMax := Max.max self.max other.max
  let (start, end_) := if isForward then (newMin, newMax) else (newMax, newMin)
  new start end_

end SelRegion

inductive InsertDrift where
  | inside
  | outside
  | default
deriving DecidableEq, Repr

/-- `remove_n_at`: the rest is moved over the `n` elements from `index` on, and the end cut off. -/
def removeNAt {α : Type} (v : List α) (index n : ℕ) : Option (List α) :=
  if n = 1 then
    if index < v.length then some (v.eraseIdx index) else none
  else if n > 1 then
    if n ≤ v.length then
      some ((v.take index ++ v.drop (index + n)).take (v.length - n))
    else none
  else some v

/-- `Vec::insert`. -/
def insertAt {α : Type} (v : List α) (index : ℕ) (x : α) : Option (List α) :=
  if index ≤ v.length then some (v.take index ++ x :: v.drop index) else none

/-- `regions[index] = x`. -/
def setAt {α : Type} (v : List α) (index : ℕ) (x : α) : Option (List α) :=
  if index < v.length then some (v.set index x) else none

structure Selection where
  regions : List SelRegion
deriving DecidableEq

namespace Selection

def new : Selection := ⟨[]⟩

/-- The smallest index so that `offset > region.max()` for all preceding regions. -/
def search (self : Selection) (offset : ℕ) : ℕ :=
  match self.regions.getLast? with
  | none => self.regions.length
  | some last =>
    if offset > last.max then self.regions.length
    else
      match binarySearchBy self.regions fun r ↦ compare r.max offset with
      | .ok ix => ix
      | .error ix => ix

/-- Clamp all offsets of regions. -/
def clamp (self : Selection) (max : ℕ) : Selection :=
  ⟨self.regions.map fun region ↦
    { region with start := min region.start max, end_ := min region.end_ max }⟩

/-- The loop that merges the regions that follow: the merged region, and how many there are. -/
def mergeFollowing (region : SelRegion) : List SelRegion → SelRegion × ℕ
  | [] => (region, 0)
  | next :: regions =>
    if region.shouldMerge next then
      let (region, n) := mergeFollowing (region.mergeWith next) regions
      (region, n + 1)
    else (region, 0)

/-- Put a region in the place of those from `ix` up to but not including `endIx`. -/
def replaceRegions (regions : List SelRegion) (ix endIx : ℕ) (region : SelRegion) :
    Option (List SelRegion) :=
  if ix = endIx then insertAt regions ix region
  else do
    let regions ← setAt regions ix region
    let n ← checkedSub endIx ix
    let n ← checkedSub n 1
    removeNAt regions (ix + 1) n

/-- Add a region, and merge it with those that it intersects. -/
def addRegion (self : Selection) (region : SelRegion) : Option Selection :=
  let ix := self.search region.min
  if ix = self.regions.length then some ⟨self.regions ++ [region]⟩
  else
    match self.regions[ix]? with
    | none => none
    | some first =>
      let (ix, region, endIx) :=
        if first.min ≤ region.min then
          if first.shouldMerge region then (ix, region.mergeWith first, ix + 1)
          else (ix + 1, region, ix + 1)
        else (ix, region, ix)
      let (region, n) := mergeFollowing region (self.regions.drop endIx)
      (replaceRegions self.regions ix (endIx + n) region).map fun regions ↦ ⟨regions⟩

/-- The place of a search, or behind the region there if that is to be passed. -/
def searchPast (self : Selection) (offset : ℕ) (passed : SelRegion → Bool) : ℕ :=
  let ix := self.search offset
  match self.regions[ix]? with
  | some region => if passed region then ix + 1 else ix
  | none => ix

/-- Delete all the regions that intersect or, with `deleteAdjacent`, touch the range. -/
def deleteRange (self : Selection) (start end_ : ℕ) (deleteAdjacent : Bool) : Option Selection :=
  if self.search start ≥ self.regions.length then some self
  else do
    let first := self.searchPast start fun region ↦ !deleteAdjacent && region.max == start
    let last := self.searchPast end_ fun region ↦
      deleteAdjacent && region.min ≤ end_ || !deleteAdjacent && region.min < end_
    let n ← checkedSub last first
    let regions ← removeNAt self.regions first n
    return ⟨regions⟩

/-- Add a region that must not overlap others: the one that starts first is kept. The answer is
the range that is kept. -/
def addRangeDistinct (self : Selection) (region : SelRegion) : Option ((ℕ × ℕ) × Selection) :=
  let ix := self.searchPast region.min fun occ ↦ occ.max == region.min
  let kept := self.regions[ix]?.filter fun occ ↦
    let isEq := occ.min == region.min && occ.max == region.max
    let isIntersectBefore := region.min ≥ occ.min && occ.max > region.min
    isEq || isIntersectBefore
  match kept with
  | some occ => some ((occ.min, occ.max), self)
  | none => do
    let last := self.searchPast region.max fun occ ↦ occ.min < region.max
    let n ← checkedSub last ix
    let regions ← removeNAt self.regions ix n
    (if ix = regions.length then some (regions ++ [region])
      else insertAt regions ix region).map fun regions ↦ ((region.min, region.max), ⟨regions⟩)

/-- On which side of inserted text the start and the end of a region land. -/
def sides (region : SelRegion) (after : Bool) (drift : InsertDrift) : Bool × Bool :=
  let isCaret := region.start == region.end_
  let isRegionForward : Bool := region.start < region.end_
  match drift, isCaret with
  | .inside, false => (!isRegionForward, isRegionForward)
  | .outside, false => (isRegionForward, !isRegionForward)
  | _, _ => (after, after)

/-- The loop of `apply_delta`. -/
def applyDeltaFrom {α : Type} (after : Bool) (drift : InsertDrift) :
    List SelRegion → Transformer α → Selection → Option Selection
  | [], _, result => some result
  | region :: regions, transformer, result =>
    let (startAfter, endAfter) := sides region after drift
    let (start, transformer) := transformer.transform region.start startAfter
    let (end_, transformer) := transformer.transform region.end_ endAfter
    match result.addRegion ((SelRegion.new start end_).withAffinity region.affinity) with
    | none => none
    | some result => applyDeltaFrom after drift regions transformer result

def applyDelta {α : Type} (self : Selection) (delta : Delta α) (after : Bool)
    (drift : InsertDrift) : Option Selection :=
  applyDeltaFrom after drift self.regions (Transformer.new delta) new

end Selection

end EeEditor
