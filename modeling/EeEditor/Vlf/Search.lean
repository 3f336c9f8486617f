import Mathlib.Data.List.Sort
import EeEditor.Sequence.Leftmost
import EeEditor.Vlf.DecodedCache
import EeEditor.Vlf.EditStore
import EeEditor.Vlf.LineAnswers
import EeEditor.Vlf.OverlayRuns
import EeEditor.Vlf.PageAggregates
import EeEditor.Vlf.PageCounts
import EeEditor.Vlf.Terminators

/-!
# Search in a very large file

The model of `xi-core-lib/src/vlf/search.rs`, and of `read_search_range` of `vlf/store/viewport.rs`.
Pages are searched in the order of `viewport_first_page_order`, each in a window that is wider than
the page, and a match is stored by the page that it starts in. `scan_batch` searches pages until it
has seen enough bytes; `next_match` steps through what is stored, in any state of the scan.

The compiled expression is the function `find_iter` of it. `PageAnswers` holds what the store does
while one page is searched: which reads of the file succeed, and the line lookups.
-/

namespace EeEditor.Vlf

/-- `VLF_SEARCH_BATCH_BYTES`. -/
def vlfSearchBatchBytes : ℕ := 256 * 1024

def minSearchSlopBytes : ℕ := 256

def maxStoredMatches : ℕ := 256

/-! ## Ends of a slice -/

def leadingContinuationBytes (bytes : List UInt8) : ℕ := (bytes.takeWhile isContinuation).length

/-- Whether the bytes end with a complete character. -/
def endsOnUtf8Boundary (bytes : List UInt8) : Bool :=
  if bytes.isEmpty then true
  else
    let cont := (bytes.reverse.takeWhile isContinuation).length
    match bytes.reverse.dropWhile isContinuation with
    | [] => false
    | leading :: _ =>
      if leading &&& 0x80 = 0 then cont == 0
      else if leading &&& 0xE0 = 0xC0 then cont == 1
      else if leading &&& 0xF0 = 0xE0 then cont == 2
      else if leading &&& 0xF8 = 0xF0 then cont == 3
      else false

/-- The number of bytes at the end that begin a character and do not complete it. -/
def trailingIncompleteBytes (bytes : List UInt8) : ℕ :=
  if bytes.isEmpty || endsOnUtf8Boundary bytes then 0
  else min ((bytes.reverse.takeWhile isContinuation).length + 1) bytes.length

/-! ## Reads -/

namespace EditStore

/-- `len_bytes`. -/
def lenBytes (self : EditStore) : ℕ :=
  match self.overlay with
  | none => self.base.file.length
  | some overlay => overlay.totalByteLen

/-- `read_raw_range_token`. `none` is an error. -/
def readRawRange (self : EditStore) (reads : Reader) (range : ByteRange) :
    Option (List UInt8) :=
  if range.end_ > self.base.file.length then none
  else if range.len = 0 then some []
  else if self.maxReadSize = 0 then none
  else
    (visitOriginal (readAt self.base.file self.maxReadSize reads)
      (fun bytes _ chunk ↦ (bytes ++ chunk, true)) self.maxReadSize range.end_ range.len range.start
      range.start []).map (·.1)

/-- `read_search_range`. `none` is an error. -/
def readSearchRange (self : EditStore) (reads : Reader) (range : ByteRange) :
    Option TextChunk :=
  match self.overlay with
  | some overlay =>
    (overlay.overlayReadExactRange self.base.file self.maxReadSize reads range).map fun bytes ↦
      ⟨fromUtf8Lossy bytes, range⟩
  | none =>
    (self.readRawRange reads range).map fun raw ↦
      let trimStart := leadingContinuationBytes raw
      let trimEnd := trailingIncompleteBytes raw
      let decodedEnd := raw.length - trimEnd
      let decodedStart := min trimStart decodedEnd
      ⟨fromUtf8Lossy ((raw.take decodedEnd).drop decodedStart),
        ⟨range.start + decodedStart, range.start + decodedEnd⟩⟩

end EditStore

/-- What the store does while one page is searched. -/
structure PageAnswers where
  /-- The reads of `scan_page_at`. -/
  scanReads : Reader
  /-- The reads of `read_search_range`. -/
  searchReads : Reader
  /-- The error of a read that does not succeed. -/
  error : ReadError
  byteToLine : ℕ → Option ℕ
  /-- The start of the line of a match at an offset, exact or approximate. -/
  lineToByte : ℕ → ℕ → Option ℕ

/-! ## Matches -/

structure VlfStoredMatch where
  byteStart : ℕ
  line : ℕ
  startCol : ℕ
  endCol : ℕ
deriving DecidableEq

/-- The order of the keys `(byte_start, start_col)`. -/
def VlfStoredMatch.KeyLe (a b : VlfStoredMatch) : Prop :=
  a.byteStart < b.byteStart ∨ a.byteStart = b.byteStart ∧ a.startCol ≤ b.startCol

instance : DecidableRel VlfStoredMatch.KeyLe := fun a b ↦
  inferInstanceAs (Decidable (a.byteStart < b.byteStart ∨
    a.byteStart = b.byteStart ∧ a.startCol ≤ b.startCol))

/-- The loop of `dedup_by`, after a match that stays. -/
def dedupAfter (byteStart : ℕ) : List VlfStoredMatch → List VlfStoredMatch
  | [] => []
  | m :: ms =>
    if m.byteStart = byteStart then dedupAfter byteStart ms else m :: dedupAfter m.byteStart ms

/-- `dedup_by` the starts: of neighbours with one start the first stays. -/
def dedupStarts : List VlfStoredMatch → List VlfStoredMatch
  | [] => []
  | m :: ms => m :: dedupAfter m.byteStart ms

/-- Sort, deduplicate and truncate the stored matches. -/
def settleMatches (ms : List VlfStoredMatch) : List VlfStoredMatch :=
  (dedupStarts (ms.insertionSort VlfStoredMatch.KeyLe)).take maxStoredMatches

/-- `find_iter` of a compiled expression: the starts and ends of the matches in a text. -/
abbrev Regex := List UInt8 → List (ℕ × ℕ)

/-- `is_word_char`, of a character by its encoding. -/
def isWordChar (isAlphanumeric : List UInt8 → Bool) (ch : List UInt8) : Bool :=
  isAlphanumeric ch || ch == [95]

/-- The last character of a text. -/
def lastChar (text : List UInt8) : Option (List UInt8) :=
  match text.reverse.dropWhile isContinuation with
  | [] => none
  | b :: _ => some (b :: (text.reverse.takeWhile isContinuation).reverse)

/-- The first character of a text. -/
def firstChar : List UInt8 → Option (List UInt8)
  | [] => none
  | b :: rest => some (b :: rest.takeWhile isContinuation)

def isWholeWordMatch (isAlphanumeric : List UInt8 → Bool) (text : List UInt8) (start end_ : ℕ) :
    Bool :=
  (lastChar (text.take start)).all (fun ch ↦ !isWordChar isAlphanumeric ch) &&
    (firstChar (text.drop end_)).all fun ch ↦ !isWordChar isAlphanumeric ch

/-! ## The order of the pages -/

/-- The loop over the pages of the viewport. -/
def viewportPages (pageSize totalBytes vpLast : ℕ) : ℕ → ℕ → List ℕ
  | 0, _ => []
  | fuel + 1, pos =>
    if pos ≤ vpLast ∧ pos < totalBytes then
      pos :: viewportPages pageSize totalBytes vpLast fuel (pos + pageSize)
    else []

/-- The loop that goes on from the viewport, a page forward and a page backward each time. -/
def outwardPages (pageSize totalBytes : ℕ) : ℕ → ℕ → Option ℕ → List ℕ
  | 0, _, _ => []
  | fuel + 1, forward, backward =>
    if forward < totalBytes then
      match backward with
      | some prev => forward :: prev ::
          outwardPages pageSize totalBytes fuel (forward + pageSize) (checkedSub prev pageSize)
      | none => forward :: outwardPages pageSize totalBytes fuel (forward + pageSize) none
    else
      match backward with
      | some prev =>
        prev :: outwardPages pageSize totalBytes fuel forward (checkedSub prev pageSize)
      | none => []

/-- `viewport_first_page_order`. -/
def viewportFirstPageOrder (totalBytes pageSize : ℕ) (viewport : ByteRange) : List ℕ :=
  if totalBytes = 0 ∨ pageSize = 0 then []
  else
    let vpFirst := viewport.start / pageSize * pageSize
    let vpLast := if viewport.end_ = 0 then 0 else (viewport.end_ - 1) / pageSize * pageSize
    let pageStarts := viewportPages pageSize totalBytes vpLast totalBytes vpFirst
      ++ outwardPages pageSize totalBytes (totalBytes + vpFirst + 1) (vpLast + pageSize)
        (checkedSub vpFirst pageSize)
    -- the last of the loops is the first one, without the viewport
    if pageStarts.isEmpty then viewportPages pageSize totalBytes totalBytes totalBytes 0
    else pageStarts

/-! ## The search -/

structure VlfSearchState where
  query : List UInt8
  wholeWords : Bool
  slopBytes : ℕ
  pageStarts : List ℕ
  nextPageIdx : ℕ
  scannedBytes : ℕ
  totalBytes : ℕ
  matches_ : List VlfStoredMatch
  activeMatchIdx : Option ℕ
  complete : Bool
deriving DecidableEq

/-- How the loop of a scan is left. -/
inductive LoopExit where
  | ended
  | interrupted
  | failed
deriving DecidableEq

namespace VlfSearchState

/-- `new`. `compiled` is whether the expression compiles. -/
def new (store : EditStore) (viewport : ByteRange) (query : List UInt8)
    (compiled wholeWords : Bool) : Option VlfSearchState :=
  if query.isEmpty || !compiled then none
  else some {
    query := query
    wholeWords := wholeWords
    slopBytes := max (query.length * 2) minSearchSlopBytes
    pageStarts := viewportFirstPageOrder store.lenBytes store.base.pageSize viewport
    nextPageIdx := 0
    scannedBytes := 0
    totalBytes := store.lenBytes
    matches_ := []
    activeMatchIdx := none
    complete := false }

/-- The loop of `collect_matches` over what the expression finds. -/
def collectFound (isAlphanumeric : List UInt8 → Bool) (answers : PageAnswers)
    (pageStart pageEnd : ℕ) (chunk : TextChunk) :
    List (ℕ × ℕ) → VlfSearchState → VlfSearchState
  | [], self => self
  | (start, end_) :: found, self =>
    let absStart := chunk.byteRange.start + start
    let absEnd := chunk.byteRange.start + end_
    if absStart < pageStart ∨ absStart ≥ pageEnd then
      collectFound isAlphanumeric answers pageStart pageEnd chunk found self
    else if self.wholeWords && !isWholeWordMatch isAlphanumeric chunk.text start end_ then
      collectFound isAlphanumeric answers pageStart pageEnd chunk found self
    else if self.matches_.any (·.byteStart == absStart) then
      collectFound isAlphanumeric answers pageStart pageEnd chunk found self
    else
      match answers.byteToLine absStart with
      | none => collectFound isAlphanumeric answers pageStart pageEnd chunk found self
      | some line =>
        match answers.lineToByte absStart line with
        | none => collectFound isAlphanumeric answers pageStart pageEnd chunk found self
        | some lineStart =>
          let stored := self.matches_
            ++ [⟨absStart, line, absStart - lineStart, absEnd - lineStart⟩]
          if stored.length ≥ maxStoredMatches then
            { self with matches_ := settleMatches stored }
          else
            collectFound isAlphanumeric answers pageStart pageEnd chunk found
              { self with matches_ := stored }

def collectMatches (regex : Regex) (isAlphanumeric : List UInt8 → Bool) (answers : PageAnswers)
    (pageStart pageEnd : ℕ) (chunk : TextChunk) (self : VlfSearchState) : VlfSearchState :=
  if self.matches_.length ≥ maxStoredMatches then self
  else collectFound isAlphanumeric answers pageStart pageEnd chunk (regex chunk.text) self

/-- The end of the page at a start. -/
def pageEnd (store : EditStore) (self : VlfSearchState) (pageStart : ℕ) : ℕ :=
  min (pageStart + store.base.pageSize) self.totalBytes

/-- What the window of a page reads. `none` is an error. -/
def readWindow (store : EditStore) (answers : PageAnswers) (self : VlfSearchState)
    (pageStart : ℕ) : Option TextChunk :=
  store.readSearchRange answers.searchReads
    ⟨pageStart - self.slopBytes,
      min (self.pageEnd store pageStart + self.slopBytes) self.totalBytes⟩

/-- Whether `scan_page_at` can read the page. -/
def scansPage (store : EditStore) (answers : PageAnswers) (pageStart : ℕ) : Bool :=
  pageStart ≥ store.base.file.length ||
    (store.base.readAt answers.scanReads pageStart
      (min (pageStart + store.base.pageSize) store.base.file.length)).isSome

/-- The loop of `scan_batch`. The page with an index is searched with the answers of that index. -/
def scanPages (store : EditStore) (regex : Regex) (isAlphanumeric : List UInt8 → Bool)
    (answers : ℕ → PageAnswers) : ℕ → ℕ → VlfSearchState → LoopExit × VlfSearchState
  | 0, _, self => (.ended, self)
  | fuel + 1, batchBytes, self =>
    match self.pageStarts[self.nextPageIdx]? with
    | none => (.ended, self)
    | some pageStart =>
      if batchBytes < vlfSearchBatchBytes then
        let answer := answers self.nextPageIdx
        let self := { self with nextPageIdx := self.nextPageIdx + 1 }
        let pageLen := self.pageEnd store pageStart - pageStart
        if pageLen = 0 then scanPages store regex isAlphanumeric answers fuel batchBytes self
        else if !scansPage store answer pageStart then (.failed, self)
        else
          match self.readWindow store answer pageStart with
          | none =>
            if answer.error = .interrupted then (.interrupted, { self with complete := true })
            else (.failed, self)
          | some chunk =>
            let self := self.collectMatches regex isAlphanumeric answer pageStart
              (self.pageEnd store pageStart) chunk
            scanPages store regex isAlphanumeric answers fuel (batchBytes + pageLen)
              { self with scannedBytes := self.scannedBytes + pageLen }
      else (.ended, self)

/-- `scan_batch`, and whether it succeeds. -/
def scanBatch (store : EditStore) (regex : Regex) (isAlphanumeric : List UInt8 → Bool)
    (answers : ℕ → PageAnswers) (self : VlfSearchState) : Bool × VlfSearchState :=
  if self.complete then (true, self)
  else
    match self.scanPages store regex isAlphanumeric answers
      (self.pageStarts.length - self.nextPageIdx) 0 with
    | (.failed, self) => (false, self)
    | (.interrupted, self) => (true, self)
    | (.ended, self) =>
      if self.nextPageIdx ≥ self.pageStarts.length then
        (true, { self with complete := true, matches_ := settleMatches self.matches_ })
      else (true, self)

/-- The index that `next_match` goes to. -/
def nextIdx (self : VlfSearchState) (reverse wrap : Bool) : Option ℕ :=
  match self.activeMatchIdx, reverse with
  | some idx, true =>
    if idx > 0 then some (idx - 1) else if wrap then some (self.matches_.length - 1) else none
  | some idx, false =>
    if idx + 1 < self.matches_.length then some (idx + 1) else if wrap then some 0 else none
  | none, true => some (self.matches_.length - 1)
  | none, false => some 0

/-- The stored match that `next_match` goes to. The outer `none` is an index out of range. -/
def nextStored (self : VlfSearchState) (reverse wrap : Bool) :
    Option (Option VlfStoredMatch × VlfSearchState) :=
  if self.matches_.isEmpty then some (none, self)
  else
    match self.nextIdx reverse wrap with
    | none => some (none, self)
    | some idx => self.matches_[idx]?.map fun matched ↦
        (some matched, { self with activeMatchIdx := some idx })

end VlfSearchState

end EeEditor.Vlf
