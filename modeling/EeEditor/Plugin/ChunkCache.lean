import EeEditor.Rope.Summary
import EeEditor.Sequence.Utf8

/-!
# The chunk cache of a plugin

The model of `xi-plugin-lib/src/base_cache.rs`: a plugin holds one contiguous chunk of the remote
document, fetches more of it on demand, and patches it for the updates that it is sent. Text is
its UTF-8 bytes, and a slice of a string panics off a character boundary. `none` is a panic, or a
fetch loop that has not ended after `fuel` rounds.
-/

namespace EeEditor.Plugin

/-! ## Strings -/

/-- The starts of the lines that begin after a newline of `text`, where `curIdx` bytes come before
`text`. -/
def newlineOffsetsFrom (curIdx : ℕ) : List UInt8 → List ℕ
  | [] => []
  | b :: text =>
    if isNewline b then (curIdx + 1) :: newlineOffsetsFrom (curIdx + 1) text
    else newlineOffsetsFrom (curIdx + 1) text

def newlineOffsets (text : List UInt8) : List ℕ := newlineOffsetsFrom 0 text

/-- The index of `x` in a sorted list without repetitions, or the index to insert it at. -/
def binarySearch (l : List ℕ) (x : ℕ) : Except ℕ ℕ :=
  let ix := (l.takeWhile (· < x)).length
  if l[ix]? = some x then .ok ix else .error ix

/-! ## Fetching -/

/-- The unit of measure when requesting data. -/
inductive TextUnit where
  | utf8
  | line
deriving DecidableEq

structure GetDataResponse where
  chunk : List UInt8
  offset : ℕ
  firstLine : ℕ
  firstLineOffset : ℕ

/-- The errors of a cache: a bad request, or what the connection to the peer reports. -/
inductive Error where
  | badRequest
  | peer (code : ℕ)
deriving DecidableEq

/-- `DataSource::get_data`, from the start, the unit, the maximal size and the revision. -/
abbrev DataSource := ℕ → TextUnit → ℕ → ℕ → Except Error GetDataResponse

def chunkSize : ℕ := 1024 * 1024

/-- A single contiguous chunk of the document. -/
structure ChunkCache where
  /-- The position of the chunk in the document. -/
  offset : ℕ
  contents : List UInt8
  /-- The line that contains the start of the chunk. -/
  firstLine : ℕ
  /-- The distance of the chunk from the start of `firstLine`. -/
  firstLineOffset : ℕ
  /-- The starts of lines in the chunk. -/
  lineOffsets : List ℕ
  bufSize : ℕ
  numLines : ℕ
  rev : ℕ
deriving DecidableEq, Repr

namespace ChunkCache

def new (bufSize rev numLines : ℕ) : ChunkCache := ⟨0, [], 0, 0, [], bufSize, numLines, rev⟩

def recalculateLineOffsets (self : ChunkCache) : ChunkCache :=
  { self with lineOffsets := newlineOffsets self.contents }

/-- Discard any existing cache, starting again with the new data. -/
def resetChunk (self : ChunkCache) (data : GetDataResponse) : ChunkCache :=
  recalculateLineOffsets { self with
    contents := data.chunk
    offset := data.offset
    firstLine := data.firstLine
    firstLineOffset := data.firstLineOffset }

/-- Append to the existing cache, leaving existing data in place. -/
def appendChunk (self : ChunkCache) (data : GetDataResponse) : ChunkCache :=
  recalculateLineOffsets { self with contents := self.contents ++ data.chunk }

/-- The offset of a line if it can be determined without fetching data. There is an implicit line
at the last offset in the buffer. -/
def cachedOffsetOfLine (self : ChunkCache) (lineNum : ℕ) : Option (Option ℕ) :=
  if lineNum < self.firstLine then some none
  else
    let relLineNum := lineNum - self.firstLine
    if relLineNum = 0 then (checkedSub self.offset self.firstLineOffset).map some
    else
      match self.lineOffsets[relLineNum - 1]? with
      | some off => some (some (self.offset + off))
      | none =>
        if lineNum = self.numLines ∧ self.offset + self.contents.length = self.bufSize then
          some (some (self.offset + self.contents.length))
        else some none

/-- The line that contains `offset`, relative to the chunk, and the distance from its start. -/
def lineAt (self : ChunkCache) (offset : ℕ) : Option (ℕ × ℕ) :=
  match binarySearch self.lineOffsets offset with
  | .ok idx => some (self.firstLine + idx + 1, 0)
  | .error 0 => some (self.firstLine, self.firstLineOffset + offset)
  | .error (idx + 1) => do
    let off ← self.lineOffsets[idx]?
    let rel ← checkedSub offset off
    return (self.firstLine + (idx + 1), rel)

/-- Clear anything in the cache up to `offset`, relative to the chunk. -/
def clearUpTo (self : ChunkCache) (offset : ℕ) : Option (Except Error ChunkCache) :=
  if offset > self.contents.length then some (.error .badRequest)
  else do
    let newContents ← sliceStr self.contents offset self.contents.length
    let (newLine, newLineOff) ← self.lineAt offset
    return .ok { self with
      contents := newContents
      offset := self.offset + offset
      lineOffsets := (self.lineOffsets.filter (offset < ·)).map (· - offset)
      firstLine := newLine
      firstLineOffset := newLineOff }

/-! ## Queries -/

/-- The loop of `get_line`: fetch more until the end of the line is in the chunk. -/
def getLineLoop (source : DataSource) (lineNum : ℕ) :
    ℕ → ChunkCache → ℕ → Option (Except Error (List UInt8) × ChunkCache)
  | 0, _, _ => none
  | fuel + 1, self, startOff => do
    match ← self.cachedOffsetOfLine (lineNum + 1) with
    | some endOff =>
      let endRel ← checkedSub endOff self.offset
      let line ← sliceStr self.contents startOff endRel
      return (.ok line, self)
    | none =>
      match ← (if startOff ≠ 0 then self.clearUpTo startOff else some (.ok self)) with
      | .error err => return (.error err, self)
      | .ok self =>
        match source (self.offset + self.contents.length) .utf8 chunkSize self.rev with
        | .error err => return (.error err, self)
        | .ok resp => getLineLoop source lineNum fuel (self.appendChunk resp) 0

/-- The line at `lineNum`. -/
def getLine (fuel : ℕ) (source : DataSource) (self : ChunkCache) (lineNum : ℕ) :
    Option (Except Error (List UInt8) × ChunkCache) :=
  if lineNum ≥ self.numLines then some (.error .badRequest, self)
  else
    -- if the chunk does not include the start of this line, fetch and reset everything
    let fetched :=
      if self.contents.isEmpty ∨ lineNum < self.firstLine
          ∨ lineNum = self.firstLine ∧ self.firstLineOffset > 0
          ∨ lineNum > self.firstLine + self.lineOffsets.length then
        (source lineNum .line chunkSize self.rev).map self.resetChunk
      else .ok self
    match fetched with
    | .error err => some (.error err, self)
    | .ok self => do
      match ← self.cachedOffsetOfLine lineNum with
      | none => return (.error .badRequest, self)
      | some cacheOffset =>
        if cacheOffset < self.offset then return (.error .badRequest, self)
        else getLineLoop source lineNum fuel self (cacheOffset - self.offset)

/-- The loop of `get_region`. -/
def getRegionLoop (source : DataSource) (start end_ : ℕ) :
    ℕ → ChunkCache → Option (Except Error (List UInt8) × ChunkCache)
  | 0, _ => none
  | fuel + 1, self => do
    let startOff ← checkedSub start self.offset
    let endOff ← checkedSub end_ self.offset
    if endOff ≤ self.contents.length then
      let region ← sliceStr self.contents startOff endOff
      return (.ok region, self)
    else
      match ← (if startOff ≠ 0 then self.clearUpTo startOff else some (.ok self)) with
      | .error err => return (.error err, self)
      | .ok self =>
        match source (self.offset + self.contents.length) .utf8 chunkSize self.rev with
        | .error err => return (.error err, self)
        | .ok resp => getRegionLoop source start end_ fuel (self.appendChunk resp)

/-- The text of an interval. -/
def getRegion (fuel : ℕ) (source : DataSource) (self : ChunkCache) (start end_ : ℕ) :
    Option (Except Error (List UInt8) × ChunkCache) :=
  let fetched :=
    if self.contents.isEmpty ∨ start < self.offset
        ∨ start ≥ self.offset + self.contents.length then
      (source start .utf8 chunkSize self.rev).map self.resetChunk
    else .ok self
  match fetched with
  | .error err => some (.error err, self)
  | .ok self => getRegionLoop source start end_ fuel self

/-- The loop of `get_document`. -/
def getDocumentLoop (source : DataSource) :
    ℕ → ChunkCache → List UInt8 → ℕ → Option (Except Error (List UInt8) × ChunkCache)
  | 0, _, _, _ => none
  | fuel + 1, self, result, curIdx =>
    if curIdx < self.bufSize then
      let fetched :=
        if self.contents.isEmpty ∨ curIdx ≠ self.offset then
          (source curIdx .utf8 chunkSize self.rev).map self.resetChunk
        else .ok self
      match fetched with
      | .error err => some (.error err, self)
      | .ok self =>
        getDocumentLoop source fuel self (result ++ self.contents)
          (self.offset + self.contents.length)
    else some (.ok result, self)

/-- The whole text. -/
def getDocument (fuel : ℕ) (source : DataSource) (self : ChunkCache) :
    Option (Except Error (List UInt8) × ChunkCache) := getDocumentLoop source fuel self [] 0

/-- The offset of a line. -/
def offsetOfLine (source : DataSource) :
    ℕ → ChunkCache → ℕ → Option (Except Error ℕ × ChunkCache)
  | 0, _, _ => none
  | fuel + 1, self, lineNum =>
    if lineNum > self.numLines then some (.error .badRequest, self)
    else do
      match ← self.cachedOffsetOfLine lineNum with
      | some offset => return (.ok offset, self)
      | none =>
        match source lineNum .line chunkSize self.rev with
        | .error err => return (.error err, self)
        | .ok resp => offsetOfLine source fuel (self.resetChunk resp) lineNum

/-- The line that contains an offset. -/
def lineOfOffset (source : DataSource) (self : ChunkCache) (offset : ℕ) :
    Option (Except Error ℕ × ChunkCache) :=
  if offset > self.bufSize then some (.error .badRequest, self)
  else
    let fetched :=
      if self.contents.isEmpty ∨ offset < self.offset
          ∨ offset > self.offset + self.contents.length then
        (source offset .utf8 chunkSize self.rev).map self.resetChunk
      else .ok self
    match fetched with
    | .error err => some (.error err, self)
    | .ok self => do
      let relOffset ← checkedSub offset self.offset
      match binarySearch self.lineOffsets relOffset with
      | .ok ix => return (.ok (ix + self.firstLine + 1), self)
      | .error ix => return (.ok (ix + self.firstLine), self)

/-! ## Updates -/

def clear (self : ChunkCache) : ChunkCache :=
  { self with contents := [], offset := 0, lineOffsets := [], firstLine := 0, firstLineOffset := 0 }

/-- Patch up the line offsets for an insertion. -/
def simpleInsert (self : ChunkCache) (text : List UInt8) (insOffset : ℕ) : Option ChunkCache :=
  if insOffset ≥ self.offset then
    let rel := insOffset - self.offset
    let lineOffsets :=
      self.lineOffsets.map fun off ↦ if off > rel then off + text.length else off
    match (newlineOffsets text).map (· + rel) with
    | [] => some { self with lineOffsets := lineOffsets }
    | new :: news =>
      match binarySearch lineOffsets new with
      | .ok _ => none
      | .error splitIdx =>
        some { self with
          lineOffsets := lineOffsets.take splitIdx ++ (new :: news) ++ lineOffsets.drop splitIdx }
  else none

/-- Patch up the line offsets for a deletion. -/
def simpleDelete (self : ChunkCache) (start end_ : ℕ) : Option ChunkCache := do
  let delSize ← checkedSub end_ start
  let start ← checkedSub start self.offset
  let end_ ← checkedSub end_ self.offset
  let deleted ← subseq self.contents start end_
  if deleted.any isNewline then
    return { self with
      lineOffsets := self.lineOffsets.filterMap fun off ↦
        if off ≤ start then some off else if off ≤ end_ then none else some (off - delSize) }
  else
    let lineOffsets ← self.lineOffsets.mapM fun off ↦
      if off ≥ end_ then checkedSub off delSize else some off
    return { self with lineOffsets := lineOffsets }

/-- Whether to clear the cache for this delta. Otherwise the line offsets are patched up. -/
def shouldClear (self : ChunkCache) (delta : Delta UInt8) : Option (Bool × ChunkCache) :=
  let (start, end_) := delta.summary.1
  if start < self.offset ∨ start > self.offset + self.contents.length then some (true, self)
  else if delta.isSimpleDelete then do
    -- don't go over the cache boundary
    let self ← self.simpleDelete start (min end_ (self.offset + self.contents.length))
    return (false, self)
  else
    match delta.asSimpleInsert with
    | some text =>
      if end_ = start then do
        let self ← self.simpleInsert text start
        return (false, self)
      else none
    | none => some (true, self)

/-- The loop state of `update_chunk`. -/
structure ChunkState where
  newState : List UInt8
  prevCopyEnd : ℕ
  delBefore : ℕ
  insBefore : ℕ

def updateChunkStep (self : ChunkCache) (st : ChunkState) :
    DeltaElement UInt8 → Option ChunkState
  | .copy start end_ =>
    let chunkStart := self.offset
    let chunkEnd := chunkStart + self.contents.length
    if start < chunkStart then do
      let skipped ← checkedSub start st.prevCopyEnd
      let copied ←
        if end_ ≥ chunkStart then
          sliceStr self.contents 0 (min (end_ - chunkStart) self.contents.length)
        else some []
      return { st with
        newState := st.newState ++ copied
        delBefore := st.delBefore + skipped
        prevCopyEnd := end_ }
    else if start ≤ chunkEnd then do
      let delBefore :=
        if st.prevCopyEnd < chunkStart then st.delBefore + (chunkStart - st.prevCopyEnd)
        else st.delBefore
      let end_' ← checkedSub end_ chunkStart
      let copied ←
        sliceStr self.contents (start - chunkStart) (min end_' self.contents.length)
      return { st with
        newState := st.newState ++ copied
        delBefore := delBefore
        prevCopyEnd := end_ }
    else some { st with prevCopyEnd := end_ }
  | .insert s =>
    if st.prevCopyEnd < self.offset then some { st with insBefore := st.insBefore + s.length }
    else if st.prevCopyEnd ≤ self.offset + self.contents.length then
      some { st with newState := st.newState ++ s }
    else some st

/-- Update the contents of the chunk. -/
def updateChunk (self : ChunkCache) (delta : Delta UInt8) : Option ChunkCache := do
  let st ← delta.els.foldlM self.updateChunkStep ⟨[], 0, 0, 0⟩
  let offset ← checkedSub (self.offset + st.insBefore) st.delBefore
  return { self with offset := offset, contents := st.newState }

/-- Update the chunk to reflect a change. Without a delta the change is too large to send. -/
def update (self : ChunkCache) (delta : Option (Delta UInt8)) (newLen numLines rev : ℕ) :
    Option ChunkCache := do
  let isEmpty := self.offset = 0 ∧ self.contents = []
  let (shouldClear, self) ←
    match delta with
    | some delta => if ¬isEmpty then self.shouldClear delta else some (true, self)
    | none => some (true, self)
  let self ←
    if shouldClear then some self.clear
    else delta.bind fun delta ↦ self.updateChunk delta
  return { self with bufSize := newLen, numLines := numLines, rev := rev }

end ChunkCache

end EeEditor.Plugin
