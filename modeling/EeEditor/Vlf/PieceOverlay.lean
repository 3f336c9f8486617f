import Mathlib.Data.List.AList
import EeEditor.Sequence.Pieces
import EeEditor.Sequence.Utf8

/-!
# The piece overlay of a very large file

The model of `PieceOverlay` of `xi-core-lib/src/vlf/overlay.rs`. An edited document is a list of
pieces, each a range of the original file or a range of an append-only buffer of inserted text, with
a table of the offsets at which the pieces start. Edits are recorded by undo group, and buffers that
neither a piece nor the history refers to are dropped when a group leaves the history.

Of the metrics of a piece the model has the byte length, which is all that the edits read. `none` is
a panic. The size of a `Piece` in memory is a parameter.
-/

namespace EeEditor.Vlf

structure ByteRange where
  start : ℕ
  end_ : ℕ
deriving DecidableEq

def ByteRange.len (r : ByteRange) : ℕ := r.end_ - r.start

/-- A range within an insert buffer. -/
structure InsertRange where
  start : ℕ
  end_ : ℕ
deriving DecidableEq

inductive Piece where
  | original (fileRange : ByteRange) (byteLen : ℕ)
  | inserted (bufferId : ℕ) (range : InsertRange) (byteLen : ℕ)
deriving DecidableEq

namespace Piece

/-- The length that the metrics of the piece say. -/
def byteLen : Piece → ℕ
  | original _ n => n
  | inserted _ _ n => n

/-- The buffer of an inserted piece. -/
def bufferId? : Piece → Option ℕ
  | original _ _ => none
  | inserted id _ _ => some id

end Piece

inductive OverlayOp where
  | insert (at_ : ℕ) (bufferId : ℕ) (range : InsertRange)
  | delete (range : ByteRange)
deriving DecidableEq

/-- The buffer that an operation refers to. -/
def OverlayOp.bufferId? : OverlayOp → Option ℕ
  | insert _ id _ => some id
  | delete _ => none

/-- The operations of an undo group, in the order of their application. -/
structure OverlayDelta where
  undoGroup : ℕ
  revisionId : ℕ
  ops : List OverlayOp
deriving DecidableEq

structure OverlayEditContext where
  revisionId : ℕ
  undoGroup : ℕ

structure OverlayLimits where
  maxUndoGroups : ℕ := 200
  overlayByteCap : ℕ := 64 * 1024 * 1024
deriving DecidableEq

inductive LimitKind where
  | undoGroupCap (cap : ℕ)
  | memoryCap (cap used : ℕ)
deriving DecidableEq

inductive OverlayError where
  | outOfRange (offset len : ℕ)
  | invalidUtf8Boundary
  | arbitrarySparseEditsNotReady
  | limitReached (kind : LimitKind)
deriving DecidableEq

/-- The bytes of a buffer in a range. -/
def sliceBuffer (bytes : List UInt8) (range : InsertRange) : Option (List UInt8) :=
  if range.start ≤ range.end_ ∧ range.end_ ≤ bytes.length then
    some ((bytes.drop range.start).take (range.end_ - range.start))
  else none

/-- The byte length of `TextMetrics::from_bytes`, which expects UTF-8. -/
def fromBytes (bytes : List UInt8) : Option ℕ :=
  if bytes.toByteArray.validateUTF8 then some bytes.length else none

structure PieceOverlay where
  pieces : List Piece
  /-- The offset at which each piece starts. -/
  cumOffsets : List ℕ
  totalByteLen : ℕ
  originalFileByteLen : ℕ
  buffers : AList fun _ : ℕ ↦ List UInt8
  nextBufferId : ℕ
  activeBuffer : Option ℕ
  undoHistory : AList fun _ : ℕ ↦ OverlayDelta
  undoGroupOrder : List ℕ
  limits : OverlayLimits
deriving DecidableEq

namespace PieceOverlay

/-- The overlay of a file that has not been edited. -/
def withLimits (fileByteLen : ℕ) (limits : OverlayLimits) : PieceOverlay where
  pieces := if fileByteLen = 0 then [] else [.original ⟨0, fileByteLen⟩ fileByteLen]
  cumOffsets := if fileByteLen = 0 then [] else [0]
  totalByteLen := fileByteLen
  originalFileByteLen := fileByteLen
  buffers := ∅
  nextBufferId := 0
  activeBuffer := none
  undoHistory := ∅
  undoGroupOrder := []
  limits := limits

/-! ## Pieces -/

/-- The index and the start of the piece that contains a byte. The callers unwrap it. -/
def pieceForByte (self : PieceOverlay) (logicalByte : ℕ) : Option (ℕ × ℕ) :=
  if logicalByte ≥ self.totalByteLen || self.pieces.isEmpty then none
  else
    let idx := partitionPoint (· ≤ logicalByte) self.cumOffsets - 1
    self.cumOffsets[idx]?.map fun start ↦ (idx, start)

def rebuildOffsets (self : PieceOverlay) : PieceOverlay :=
  { self with
    cumOffsets := starts Piece.byteLen 0 self.pieces
    totalByteLen := extent Piece.byteLen self.pieces }

/-- The active buffer, which is created if there is none. -/
def activeBufferMut (self : PieceOverlay) : PieceOverlay × ℕ :=
  match self.activeBuffer with
  | some id => (self, id)
  | none =>
    let id := self.nextBufferId
    ({ self with
        nextBufferId := (id + 1) % 2 ^ 32
        buffers := self.buffers.insert id []
        activeBuffer := some id }, id)

/-- Append to the active buffer. -/
def appendActive (self : PieceOverlay) (text : List UInt8) :
    Option (PieceOverlay × ℕ × InsertRange) :=
  let (self, id) := self.activeBufferMut
  (self.buffers.lookup id).map fun bytes ↦
    ({ self with buffers := self.buffers.insert id (bytes ++ text) }, id,
      ⟨bytes.length, bytes.length + text.length⟩)

/-- The two halves of a piece. -/
def splitPiece (self : PieceOverlay) (idx offsetInPiece : ℕ) : Option (Piece × Piece) := do
  match ← self.pieces[idx]? with
  | .original fileRange _ =>
    let mid := fileRange.start + offsetInPiece
    let loRange : ByteRange := ⟨fileRange.start, mid⟩
    let hiRange : ByteRange := ⟨mid, fileRange.end_⟩
    return (.original loRange loRange.len, .original hiRange hiRange.len)
  | .inserted bufferId range _ =>
    let mid := range.start + offsetInPiece
    let loRange : InsertRange := ⟨range.start, mid⟩
    let hiRange : InsertRange := ⟨mid, range.end_⟩
    let buf ← self.buffers.lookup bufferId
    let loLen ← fromBytes (← sliceBuffer buf loRange)
    let hiLen ← fromBytes (← sliceBuffer buf hiRange)
    return (.inserted bufferId loRange loLen, .inserted bufferId hiRange hiLen)

/-! ## Edits -/

/-- Insert text. The text that a caller can pass is UTF-8. -/
def insert (self : PieceOverlay) (at_ : ℕ) (text : List UInt8) :
    Option (Except OverlayError PieceOverlay) := do
  if at_ > self.totalByteLen then return .error (.outOfRange at_ self.totalByteLen)
  else if text.isEmpty then return .ok self
  else
    let newPieceByteLen ← fromBytes text
    let (self, bufferId, range) ← self.appendActive text
    let newPiece := Piece.inserted bufferId range newPieceByteLen
    if at_ = self.totalByteLen then
      -- the append fast path keeps the table of offsets
      return .ok { self with
        cumOffsets := self.cumOffsets ++ [self.totalByteLen]
        totalByteLen := self.totalByteLen + newPieceByteLen
        pieces := self.pieces ++ [newPiece] }
    else
      let (idx, pieceStart) ← self.pieceForByte at_
      let offsetInPiece := at_ - pieceStart
      if offsetInPiece = 0 then
        return .ok { self with
          pieces := self.pieces.take idx ++ newPiece :: self.pieces.drop idx }.rebuildOffsets
      else
        let (lo, hi) ← self.splitPiece idx offsetInPiece
        return .ok { self with
          pieces := self.pieces.take idx ++ lo :: newPiece :: hi :: self.pieces.drop (idx + 1)
          }.rebuildOffsets

/-- Split the piece that contains a byte, unless it starts there. -/
def splitAt (self : PieceOverlay) (logicalByte : ℕ) : Option PieceOverlay := do
  let (idx, pieceStart) ← self.pieceForByte logicalByte
  let piece ← self.pieces[idx]?
  let offset := logicalByte - pieceStart
  if 0 < offset ∧ offset < piece.byteLen then
    let (lo, hi) ← self.splitPiece idx offset
    return { self with
      pieces := self.pieces.take idx ++ lo :: hi :: self.pieces.drop (idx + 1) }.rebuildOffsets
  else return self

/-- Split at `end_`, unless the document ends there, and then at `start`, unless it begins there.
The offset of `start` stays valid after the first split. -/
def splitEnds (self : PieceOverlay) (start end_ : ℕ) : Option PieceOverlay :=
  (if end_ < self.totalByteLen then self.splitAt end_ else some self).bind fun self ↦
    if start > 0 then self.splitAt start else some self

/-- Remove the pieces that start in `start..end_`. -/
def drain (self : PieceOverlay) (start end_ : ℕ) : Option PieceOverlay :=
  let firstIdx := partitionPoint (· < start) self.cumOffsets
  let lastIdx := partitionPoint (· < end_) self.cumOffsets
  if firstIdx ≤ lastIdx ∧ lastIdx ≤ self.pieces.length then
    some { self with
      pieces := self.pieces.take firstIdx ++ self.pieces.drop lastIdx }.rebuildOffsets
  else none

def delete (self : PieceOverlay) (range : ByteRange) :
    Option (Except OverlayError PieceOverlay) := do
  if range.end_ > self.totalByteLen then return .error (.outOfRange range.end_ self.totalByteLen)
  else if range.start ≥ range.end_ then return .ok self
  else
    let self ← self.splitEnds range.start range.end_
    return .ok (← self.drain range.start range.end_)

/-! ## Undo groups -/

/-- An estimate of the memory in use. -/
def overlayBytes (self : PieceOverlay) (pieceSize : ℕ) : ℕ :=
  self.pieces.length * pieceSize + (self.buffers.entries.map fun e ↦ e.2.length).sum

/-- Drop a buffer, which is then no longer the active one. -/
def dropBuffer (self : PieceOverlay) (id : ℕ) : PieceOverlay :=
  { self with
    buffers := self.buffers.erase id
    activeBuffer := if self.activeBuffer = some id then none else self.activeBuffer }

/-- Remove an undo group from the history, and the buffers that only it refers to. -/
def gcUndoGroup (self : PieceOverlay) (undoGroup : ℕ) : PieceOverlay :=
  match self.undoHistory.lookup undoGroup with
  | none => self
  | some delta =>
    let undoHistory := self.undoHistory.erase undoGroup
    let gcBufferIds := delta.ops.filterMap (·.bufferId?)
    let liveBufferIds := self.pieces.filterMap (·.bufferId?)
    let historyBufferIds := undoHistory.entries.flatMap fun e ↦ e.2.ops.filterMap (·.bufferId?)
    gcBufferIds.foldl
      (fun self id ↦
        if id ∉ liveBufferIds ∧ id ∉ historyBufferIds then self.dropBuffer id else self)
      { self with
        undoHistory := undoHistory
        undoGroupOrder := self.undoGroupOrder.filter (· ≠ undoGroup) }

/-- Drop the oldest undo group while `exceeds` holds and there is one. -/
def gcOldestWhile (exceeds : PieceOverlay → Bool) : ℕ → PieceOverlay → PieceOverlay
  | 0, self => self
  | fuel + 1, self =>
    if exceeds self then
      match self.undoGroupOrder with
      | [] => self
      | oldest :: rest =>
        gcOldestWhile exceeds fuel ({ self with undoGroupOrder := rest }.gcUndoGroup oldest)
    else self

/-- Drop the oldest undo groups until the limits leave room for an edit. -/
def enforceLimits (self : PieceOverlay) (pieceSize incomingBytes : ℕ) :
    Except OverlayError Unit × PieceOverlay :=
  let self := gcOldestWhile
    (fun self ↦ self.undoHistory.entries.length ≥ self.limits.maxUndoGroups)
    self.undoGroupOrder.length self
  let overCap := fun self : PieceOverlay ↦
    self.overlayBytes pieceSize + incomingBytes > self.limits.overlayByteCap
  let self := gcOldestWhile (fun self ↦ overCap self) self.undoGroupOrder.length self
  if overCap self then
    (.error (.limitReached
      (.memoryCap self.limits.overlayByteCap (self.overlayBytes pieceSize))), self)
  else (.ok (), self)

/-- Record an operation in its undo group. -/
def record (self : PieceOverlay) (ctx : OverlayEditContext) (op : OverlayOp) : PieceOverlay :=
  let isNewGroup := (self.undoHistory.lookup ctx.undoGroup).isNone
  let delta := (self.undoHistory.lookup ctx.undoGroup).getD ⟨ctx.undoGroup, ctx.revisionId, []⟩
  { self with
    undoHistory := self.undoHistory.insert ctx.undoGroup { delta with ops := delta.ops ++ [op] }
    undoGroupOrder :=
      if isNewGroup then self.undoGroupOrder ++ [ctx.undoGroup] else self.undoGroupOrder }

def insertInGroup (self : PieceOverlay) (pieceSize at_ : ℕ) (text : List UInt8)
    (ctx : OverlayEditContext) : Option (Except OverlayError Unit × PieceOverlay) :=
  match self.enforceLimits pieceSize text.length with
  | (.error e, self) => some (.error e, self)
  | (.ok (), self) => do
    match ← self.insert at_ text with
    | .error e => return (.error e, self)
    | .ok self =>
      let activeId ← self.activeBuffer
      let buf ← self.buffers.lookup activeId
      let range : InsertRange := ⟨buf.length - text.length, buf.length⟩
      return (.ok (), self.record ctx (.insert at_ activeId range))

def deleteInGroup (self : PieceOverlay) (pieceSize : ℕ) (range : ByteRange)
    (ctx : OverlayEditContext) : Option (Except OverlayError Unit × PieceOverlay) :=
  match self.enforceLimits pieceSize 0 with
  | (.error e, self) => some (.error e, self)
  | (.ok (), self) => do
    match ← self.delete range with
    | .error e => return (.error e, self)
    | .ok self => return (.ok (), self.record ctx (.delete range))

/-- The bytes of an inserted piece. -/
def insertedBytesForPiece (self : PieceOverlay) : Piece → Option (List UInt8)
  | .original _ _ => none
  | .inserted bufferId range _ => do sliceBuffer (← self.buffers.lookup bufferId) range

end PieceOverlay

end EeEditor.Vlf
