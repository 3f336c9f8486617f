import Mathlib.Algebra.GroupWithZero.Nat
import EeEditor.Sequence.Runs

/-!
# Multi-subsets of sequences

The model of `xi-rope/src/multiset.rs`: a `Subset` gives every element of a sequence a count, the
number of times the element is in the set, stored as run-length encoded segments. Builders and
subsets carry the representation invariant as a field, so every operation below returns a
canonical encoding by construction.

An operation whose Rust body can trip an assertion returns an `Option`, with `none` for the panic.
Iterators over segments are lists; where an iterator is pulled by hand (`ZipIter`, `Mapper`), its
state is explicit.
-/

namespace EeEditor

/-- A run of elements with one count. -/
abbrev Segment := Run ℕ

/-- The count of every element of the segment. -/
abbrev Segment.count (seg : Segment) : ℕ := seg.val

/-- Builds a `Subset` from left to right. -/
structure SubsetBuilder where
  /-- The segments pushed so far. -/
  segments : List Segment
  /-- The number of elements they cover. -/
  totalLen : ℕ
  /-- No empty segment, no two neighbours with one count. -/
  canonical : Run.Canonical segments
  /-- `totalLen` is the length covered. -/
  total : totalLen = (Run.expand segments).length

/-- A multi-subset of a sequence. -/
@[ext] structure Subset where
  /-- The segments, covering the whole sequence. -/
  segments : List Segment
  /-- No empty segment, no two neighbours with one count. -/
  canonical : Run.Canonical segments
deriving DecidableEq

namespace SubsetBuilder

/-- The builder with no segments. -/
def new : SubsetBuilder := ⟨[], 0, Run.Canonical.nil, rfl⟩

/-- Assign `count` to the next `len` elements, for a positive `len`. -/
def pushPos (sb : SubsetBuilder) {len : ℕ} (h : 0 < len) (count : ℕ) : SubsetBuilder where
  segments := Run.push len count sb.segments
  totalLen := sb.totalLen + len
  canonical := sb.canonical.push h count
  total := by simp [Run.expand_push, sb.total]

/-- Assign `count` to the next `len` elements. Panics on `len = 0`. -/
def pushSegment (sb : SubsetBuilder) (len count : ℕ) : Option SubsetBuilder :=
  if h : 0 < len then some (sb.pushPos h count) else none

/-- Pad with a zero segment up to `totalLen`. -/
def padToLen (sb : SubsetBuilder) (totalLen : ℕ) : SubsetBuilder :=
  if h : sb.totalLen < totalLen then sb.pushPos (Nat.sub_pos_of_lt h) 0 else sb

/-- Set the count of `begin..end`, filling the gap before it with zeros. Panics when `begin` lies
before the elements covered so far; an empty range adds nothing. -/
def addRange (sb : SubsetBuilder) (begin_ end_ count : ℕ) : Option SubsetBuilder :=
  if begin_ ≥ sb.totalLen then
    if begin_ ≥ end_ then some sb
    else do
      let sb ← (if begin_ > sb.totalLen then sb.pushSegment (begin_ - sb.totalLen) 0 else some sb)
      sb.pushSegment (end_ - begin_) count
  else none

def build (sb : SubsetBuilder) : Subset := ⟨sb.segments, sb.canonical⟩

end SubsetBuilder

/-- Which elements of a `Subset` a method applies to. -/
inductive CountMatcher where
  | zero
  | nonZero
  | all
deriving DecidableEq

/-- Whether the matcher selects elements of this count. -/
def CountMatcher.matches : CountMatcher → ℕ → Bool
  | zero, count => count == 0
  | nonZero, count => count != 0
  | all, _ => true

/-- One step of a simultaneous walk over two subsets. -/
structure ZipSegment where
  len : ℕ
  aCount : ℕ
  bCount : ℕ

/-- The state of `Subset::zip`: the segments not yet passed on either side, the lengths of those
already passed, and the length handed out. -/
structure ZipIter where
  aSegs : List Segment
  bSegs : List Segment
  aConsumed : ℕ
  bConsumed : ℕ
  consumed : ℕ

/-- Advance to the next segment boundary of either side. Panics when one side ends first. -/
def ZipIter.next (z : ZipIter) : Option (Option (ZipSegment × ZipIter)) :=
  match z.aSegs, z.bSegs with
  | [], [] => some none
  | [], _ :: _ => none
  | _ :: _, [] => none
  | a :: as, b :: bs =>
    match compare (a.len + z.aConsumed) (b.len + z.bConsumed) with
    | .eq =>
      let len := z.aConsumed + a.len - z.consumed
      some (some (⟨len, a.count, b.count⟩,
        ⟨as, bs, z.aConsumed + a.len, z.bConsumed + b.len, z.consumed + len⟩))
    | .lt =>
      let len := z.aConsumed + a.len - z.consumed
      some (some (⟨len, a.count, b.count⟩,
        ⟨as, b :: bs, z.aConsumed + a.len, z.bConsumed, z.consumed + len⟩))
    | .gt =>
      let len := z.bConsumed + b.len - z.consumed
      some (some (⟨len, a.count, b.count⟩,
        ⟨a :: as, bs, z.aConsumed, z.bConsumed + b.len, z.consumed + len⟩))

/-- Everything a `ZipIter` yields. Each call of `next` passes a segment, so the number of
segments bounds the number of calls. -/
def ZipIter.collect : ℕ → ZipIter → Option (List ZipSegment)
  | 0, _ => none
  | n + 1, z => do
    match ← z.next with
    | none => some []
    | some (seg, z) => do
      let segs ← collect n z
      return seg :: segs

namespace Subset

/-- The empty subset of a sequence of length `len`. -/
def new (len : ℕ) : Subset := (SubsetBuilder.new.padToLen len).build

/-- The total length of the segments matching `matcher`. -/
def count (self : Subset) (matcher : CountMatcher) : ℕ :=
  ((self.segments.filter fun seg ↦ matcher.matches seg.count).map Run.len).sum

def lenAfterDelete (self : Subset) : ℕ := self.count .zero

def len (self : Subset) : ℕ := self.count .all

/-- Deleting the subset would do nothing. -/
def isEmpty (self : Subset) : Bool :=
  match self.segments with
  | [] => true
  | [seg] => seg.count == 0
  | _ => false

/-- The ranges with a count matching `matcher`, from the segments after position `consumed`. -/
@[grind =] def rangesFrom (matcher : CountMatcher) : ℕ → List Segment → List (ℕ × ℕ)
  | _, [] => []
  | consumed, seg :: segs =>
    if matcher.matches seg.count then
      (consumed, consumed + seg.len) :: rangesFrom matcher (consumed + seg.len) segs
    else rangesFrom matcher (consumed + seg.len) segs

def rangeIter (self : Subset) (matcher : CountMatcher) : List (ℕ × ℕ) :=
  rangesFrom matcher 0 self.segments

/-- The ranges of the complement. -/
def complementIter (self : Subset) : List (ℕ × ℕ) := self.rangeIter .zero

/-- The segments on which both subsets are constant. Panics on different lengths. -/
def zip (self other : Subset) : Option (List ZipSegment) :=
  ZipIter.collect (self.segments.length + other.segments.length + 1)
    ⟨self.segments, other.segments, 0, 0, 0⟩

/-- Add the counts. -/
def union (self other : Subset) : Option Subset := do
  let zsegs ← self.zip other
  let sb ← zsegs.foldlM (fun sb zseg ↦ sb.pushSegment zseg.len (zseg.aCount + zseg.bCount))
    SubsetBuilder.new
  return sb.build

/-- Subtract the counts. Panics where `other` has the larger count. -/
def subtract (self other : Subset) : Option Subset := do
  let zsegs ← self.zip other
  let sb ← zsegs.foldlM (fun sb zseg ↦
    if zseg.aCount ≥ zseg.bCount then sb.pushSegment zseg.len (zseg.aCount - zseg.bCount)
    else none) SubsetBuilder.new
  return sb.build

/-- The bitwise xor of the counts, a reversible difference. -/
def bitxor (self other : Subset) : Option Subset := do
  let zsegs ← self.zip other
  let sb ← zsegs.foldlM (fun sb zseg ↦ sb.pushSegment zseg.len (zseg.aCount ^^^ zseg.bCount))
    SubsetBuilder.new
  return sb.build

/-- The loop that fills `toBeConsumed` elements of a zero region of `other` with segments of
`self`: first what is left of `curSeg`, then the segments that follow. -/
def fillZeroRegion : List Segment → Segment → ℕ → SubsetBuilder →
    Option (SubsetBuilder × Segment × List Segment)
  | segIter, curSeg, toBeConsumed, sb => do
    let toConsume := min curSeg.len toBeConsumed
    let sb ← (if toConsume = 0 then some sb else sb.pushSegment toConsume curSeg.count)
    let curSeg : Segment := ⟨curSeg.len - toConsume, curSeg.count⟩
    if toBeConsumed - toConsume = 0 then some (sb, curSeg, segIter)
    else
      match segIter with
      | [] => none
      | seg :: segIter => fillZeroRegion segIter seg (toBeConsumed - toConsume) sb

/-- The loop of `transform` over the segments of `other`. -/
def transformSegs (union : Bool) : List Segment → List Segment → Segment → SubsetBuilder →
    Option SubsetBuilder
  | [], segIter, curSeg, sb => if curSeg.len = 0 ∧ segIter = [] then some sb else none
  | oseg :: osegs, segIter, curSeg, sb =>
    if oseg.count > 0 then do
      let sb ← sb.pushSegment oseg.len (if union then oseg.count else 0)
      transformSegs union osegs segIter curSeg sb
    else do
      let (sb, curSeg, segIter) ← fillZeroRegion segIter curSeg oseg.len sb
      transformSegs union osegs segIter curSeg sb

/-- Map the counts of `self` into the zero regions of `other`. Panics unless these have the
length of `self`. -/
def transform (self other : Subset) (union : Bool) : Option Subset := do
  let sb ← transformSegs union other.segments self.segments ⟨0, 0⟩ SubsetBuilder.new
  return sb.build

def transformExpand (self other : Subset) : Option Subset := self.transform other false

def transformUnion (self other : Subset) : Option Subset := self.transform other true

/-- Drop the elements `other` removes from the coordinate space; the others keep their count. -/
def transformShrink (self other : Subset) : Option Subset := do
  let zsegs ← self.zip other
  let sb ← zsegs.foldlM (fun sb zseg ↦
    if zseg.bCount = 0 then sb.pushSegment zseg.len zseg.aCount else some sb) SubsetBuilder.new
  return sb.build

/-- Count one for the elements of count zero, and zero for the others. -/
def complement (self : Subset) : Option Subset := do
  let sb ← self.segments.foldlM (fun sb seg ↦
    sb.pushSegment seg.len (if seg.count = 0 then 1 else 0)) SubsetBuilder.new
  return sb.build

end Subset

/-- Maps document coordinates to coordinates in a subset, in non-decreasing order. `curRange` is
`none` once the ranges are used up, where the source stores the largest integers. -/
structure Mapper where
  rangeIter : List (ℕ × ℕ)
  lastI : ℕ
  curRange : Option (ℕ × ℕ)
  subsetAmountConsumed : ℕ

/-- The mapper of the elements matching `matcher`. -/
def Subset.mapper (self : Subset) (matcher : CountMatcher) : Mapper :=
  ⟨self.rangeIter matcher, 0, some (0, 0), 0⟩

namespace Mapper

/-- The loop of `doc_index_to_subset`: skip the ranges that end at or before `i`. -/
def skipTo (i : ℕ) : List (ℕ × ℕ) → ℕ × ℕ → ℕ → List (ℕ × ℕ) × Option (ℕ × ℕ) × ℕ
  | [], (b, e), consumed =>
    if i ≥ e then ([], none, consumed + (e - b)) else ([], some (b, e), consumed)
  | range :: ranges, (b, e), consumed =>
    if i ≥ e then skipTo i ranges range (consumed + (e - b))
    else (range :: ranges, some (b, e), consumed)

/-- The number of elements of the subset before the element `i` of the document. Panics when
called with a smaller `i` than the last time. -/
def docIndexToSubset (m : Mapper) (i : ℕ) : Option (ℕ × Mapper) :=
  if i ≥ m.lastI then
    match m.curRange with
    | none => some (m.subsetAmountConsumed, { m with lastI := i })
    | some range =>
      let (ranges, curRange, consumed) := skipTo i m.rangeIter range m.subsetAmountConsumed
      let m : Mapper := ⟨ranges, i, curRange, consumed⟩
      match curRange with
      | none => some (consumed, m)
      | some (b, _) => some (if i ≥ b then i - b + consumed else consumed, m)
  else none

end Mapper

end EeEditor
