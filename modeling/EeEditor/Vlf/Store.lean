import EeEditor.Sequence.Utf8

/-!
# Line lookups of a very large file

The model of the scan and read paths of `xi-core-lib/src/vlf/store`: pages are scanned into the page
index in any order, and line lookups are answered from the index, from the bytes of one page, and
from the cursor of the last lookup. `Reader` says which positioned reads of a call succeed.

## The page index of a very large file

The model of `xi-core-lib/src/vlf/page_index.rs`: descriptors of the pages scanned so far, keyed by
page start, with a table of cumulative line counts. The descriptors keep what line addressing
reads. Approximate positions are computed in floating point and carry no value here.
-/

namespace EeEditor.Vlf

/-- `LineLookup`. -/
inductive LineLookup where
  | exact (offset : ℕ)
  | approximate
  | pending
  | outOfRange
deriving DecidableEq, Repr

inductive ScanState where
  | notScanned
  | scanned
deriving DecidableEq, Repr

structure PageDescriptor where
  /-- The start of `file_range`. -/
  start : ℕ
  /-- The end of `file_range`. -/
  end_ : ℕ
  newlineCount : ℕ
  startsWithLfOfCrlf : Bool
  endsWithCrBeforeLf : Bool
  scanState : ScanState
deriving DecidableEq, Repr

structure PageIndex where
  /-- The descriptors in key order. -/
  descriptors : List PageDescriptor
  /-- Page starts with the newlines before them. -/
  linesPrefix : List (ℕ × ℕ)
  scannedNewlinesTotal : ℕ
  scannedBytes : ℕ
  totalBytes : ℕ
deriving DecidableEq, Repr

namespace PageIndex

def new (totalBytes : ℕ) : PageIndex := ⟨[], [], 0, 0, totalBytes⟩

/-- Insert into the map of descriptors, replacing one with the same key. -/
def insertDescriptor (desc : PageDescriptor) : List PageDescriptor → List PageDescriptor
  | [] => [desc]
  | d :: ds =>
    if desc.start < d.start then desc :: d :: ds
    else if desc.start = d.start then desc :: ds
    else d :: insertDescriptor desc ds

/-- The loop of `rebuild_lines_prefix`, which ends at a descriptor that is not scanned. -/
def prefixFrom (cum : ℕ) : List PageDescriptor → List (ℕ × ℕ)
  | [] => []
  | d :: ds =>
    if d.scanState = .scanned then (d.start, cum) :: prefixFrom (cum + d.newlineCount) ds else []

/-- Insert or replace a descriptor. -/
def insert (self : PageIndex) (desc : PageDescriptor) : PageIndex :=
  let old := self.descriptors.find? (·.start = desc.start)
  let oldWasScanned := old.any (·.scanState = .scanned)
  let oldCount := (old.map (·.newlineCount)).getD 0
  let self :=
    if desc.scanState = .scanned then { self with
      scannedBytes :=
        if oldWasScanned then self.scannedBytes else self.scannedBytes + (desc.end_ - desc.start)
      scannedNewlinesTotal := self.scannedNewlinesTotal
        + if oldWasScanned then desc.newlineCount - oldCount else desc.newlineCount }
    else if oldWasScanned then
      { self with scannedNewlinesTotal := self.scannedNewlinesTotal - oldCount }
    else self
  let descriptors := insertDescriptor desc self.descriptors
  let linesPrefix :=
    if oldWasScanned ≠ decide (desc.scanState = .scanned) ∨ desc.scanState = .scanned then
      prefixFrom 0 descriptors
    else self.linesPrefix
  { self with descriptors := descriptors, linesPrefix := linesPrefix }

/-- The newlines before a page, from the table. -/
def cumLinesBefore (self : PageIndex) (pageStart : ℕ) : Option ℕ :=
  ((self.linesPrefix.find? (pageStart ≤ ·.1)).filter (·.1 = pageStart)).map (·.2)

/-- The page that contains `offset`. -/
def pageAtByte (self : PageIndex) (offset : ℕ) : Option PageDescriptor :=
  (self.descriptors.filter (·.start ≤ offset)).getLast?.filter (offset < ·.end_)

def isComplete (self : PageIndex) : Bool := self.scannedBytes ≥ self.totalBytes

/-- A binary search for the first index in `lo..hi` that is not `below`. -/
def lowerBound (below : ℕ → Bool) : ℕ → ℕ → ℕ → ℕ
  | 0, lo, _ => lo
  | fuel + 1, lo, hi =>
    if lo < hi then
      let mid := (lo + hi) / 2
      if below mid then lowerBound below fuel (mid + 1) hi else lowerBound below fuel lo mid
    else lo

/-- The newlines up to the end of page `i` of the table. -/
def pageEnd (self : PageIndex) (i : ℕ) : ℕ :=
  match self.linesPrefix[i + 1]? with
  | some (_, cum) => cum
  | none => self.scannedNewlinesTotal

/-- The page that contains `line`, and the number of lines before it. `none` is a panic. -/
def findPageForLine (self : PageIndex) (line : ℕ) :
    Option (Except LineLookup (PageDescriptor × ℕ)) :=
  let n := self.linesPrefix.length
  let beyond := if self.isComplete then LineLookup.outOfRange else .pending
  if n = 0 then some (.error beyond)
  else
    let lo := lowerBound (fun i ↦ self.pageEnd i < line) n 0 n
    match self.linesPrefix[lo]? with
    | some (pageStart, linesBeforePage) =>
      (self.descriptors.find? (·.start = pageStart)).map fun page ↦ .ok (page, linesBeforePage)
    | none =>
      if n < self.descriptors.length then some (.error .pending) else some (.error beyond)

end PageIndex

end EeEditor.Vlf

namespace EeEditor.Vlf

/-! ## Line ends -/

/-- The loop of `analyse_bytes` that counts line ends. `prevIsCr` is whether the byte before is a
carriage return. -/
def countLineEnds (endsWithCrBeforeLf : Bool) (prevIsCr : Bool) : List UInt8 → ℕ
  | [] => 0
  | b :: bytes =>
    if b = 10 then (if prevIsCr then 0 else 1) + countLineEnds endsWithCrBeforeLf false bytes
    else if b = 13 then
      match bytes with
      | [] => if endsWithCrBeforeLf then 0 else 1
      | c :: rest =>
        if c = 10 then 1 + countLineEnds endsWithCrBeforeLf false rest
        else 1 + countLineEnds endsWithCrBeforeLf true (c :: rest)
    else countLineEnds endsWithCrBeforeLf false bytes

/-- The newline count of `analyse_bytes`. -/
def analyseBytes (bytes : List UInt8) (startsWithLfOfCrlf endsWithCrBeforeLf : Bool) : ℕ :=
  countLineEnds endsWithCrBeforeLf false
    (if startsWithLfOfCrlf && bytes.head? == some 10 then bytes.tail else bytes)

/-- The loop that counts `remaining` newlines forward from position `i`: the position just after
the last of them, or how many are left at the end. -/
def nthNewline (remaining i : ℕ) : List UInt8 → Except ℕ ℕ
  | [] => .error remaining
  | b :: bytes =>
    if b = 10 then
      if remaining - 1 = 0 then .ok (i + 1) else nthNewline (remaining - 1) (i + 1) bytes
    else nthNewline remaining (i + 1) bytes

/-! ## The store -/

/-- Which reads of a range succeed. -/
abbrev Reader := ℕ → ℕ → Bool

structure Store where
  file : List UInt8
  pageSize : ℕ
  index : PageIndex
  /-- The last line and byte resolved from the index. -/
  baseLineCursor : Option (ℕ × ℕ)
deriving DecidableEq

namespace Store

def new (file : List UInt8) (pageSize : ℕ) : Store := ⟨file, pageSize, .new file.length, none⟩

/-- `FilePager::read_at`. -/
def readAt (self : Store) (reads : Reader) (start end_ : ℕ) : Option (List UInt8) :=
  if end_ ≤ self.file.length && reads start end_ then
    some ((self.file.drop start).take (end_ - start))
  else none

/-- Scan a page. A read error leaves the store as it is. -/
def scanPageAt (self : Store) (reads : Reader) (pageStart : ℕ) : Store :=
  let fileSize := self.file.length
  if pageStart ≥ fileSize then self
  else
    let pageEnd := min (pageStart + self.pageSize) fileSize
    match self.readAt reads pageStart pageEnd with
    | none => self
    | some bytes =>
      let endsWithCrBeforeLf :=
        if bytes.getLast? == some 13 && pageEnd < fileSize then
          match self.readAt reads pageEnd (pageEnd + 1) with
          | some peek => peek.head? == some 10
          | none => false
        else false
      let startsWithLfOfCrlf :=
        if bytes.head? == some 10 && pageStart > 0 then
          (self.index.pageAtByte (pageStart - 1)).any (·.endsWithCrBeforeLf)
        else false
      { self with index := self.index.insert {
          start := pageStart
          end_ := pageEnd
          newlineCount := analyseBytes bytes startsWithLfOfCrlf endsWithCrBeforeLf
          startsWithLfOfCrlf := startsWithLfOfCrlf
          endsWithCrBeforeLf := endsWithCrBeforeLf
          scanState := .scanned } }

/-- `byte_to_line`, for a store that is read-only. -/
def byteToLine (self : Store) (reads : Reader) (offset : ℕ) : Option ℕ := do
  if offset > self.file.length then none
  else
    let page ← self.index.pageAtByte offset
    let accLines ← self.index.cumLinesBefore page.start
    let bytes ← self.readAt reads page.start page.end_
    let countEnd := min (offset - page.start) bytes.length
    return accLines + (bytes.take countEnd).countP isNewline

/-- Count `ahead` line ends forward from `startByte`, over scanned pages. -/
def countForwardFrom (self : Store) (reads : Reader) : ℕ → ℕ → ℕ → Option ℕ
  | 0, _, _ => none
  | fuel + 1, pos, remaining =>
    if pos < self.file.length then do
      let page ← self.index.pageAtByte pos
      if page.scanState ≠ .scanned then none
      else
        let bytes ← self.readAt reads page.start page.end_
        let rel := pos - page.start
        match nthNewline remaining rel (bytes.drop rel) with
        | .ok i => return page.start + i
        | .error remaining => countForwardFrom self reads fuel page.end_ remaining
    else none

/-- The answer of `line_to_byte` from the cursor of the last lookup. -/
def cursorAnswer (self : Store) (reads : Reader) (line : ℕ) : Option ℕ :=
  match self.baseLineCursor with
  | none => none
  | some (cursorLine, cursorByte) =>
    if line = cursorLine then some cursorByte
    else
      let ahead := line - cursorLine
      if ahead > 0 ∧ ahead ≤ 4096 then
        self.countForwardFrom reads (self.file.length + 1) cursorByte ahead
      else none

/-- `line_to_byte`, for a store that is read-only. -/
def lineToByte (self : Store) (reads : Reader) (line : ℕ) : Option (LineLookup × Store) :=
  if line = 0 ∧ self.file.length > 0 then some (.exact 0, self)
  else
    match self.cursorAnswer reads line with
    | some byte => some (.exact byte, { self with baseLineCursor := some (line, byte) })
    | none => do
      match ← self.index.findPageForLine line with
      | .error .pending =>
        return (if self.index.scannedBytes = 0 ∨ self.index.totalBytes = 0 then .pending
          else .approximate, self)
      | .error lookup => return (lookup, self)
      | .ok (page, linesBefore) =>
        let lineWithinPage := line - linesBefore
        if lineWithinPage = 0 then
          return (.exact page.start, { self with baseLineCursor := some (line, page.start) })
        else
          match self.readAt reads page.start page.end_ with
          | none => return (.pending, self)
          | some bytes =>
            match nthNewline lineWithinPage 0 bytes with
            | .ok i =>
              return (.exact (page.start + i),
                { self with baseLineCursor := some (line, page.start + i) })
            | .error _ => return (.outOfRange, self)

end Store

end EeEditor.Vlf
