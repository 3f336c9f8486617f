import Mathlib.Data.List.AList
import EeEditor.Sequence.Lossy
import EeEditor.Vlf.OverlayRead

/-!
# Windowed reads of a very large file

The model of the reads of `xi-core-lib/src/vlf/store` that do not go through an overlay. A window is
read with a few bytes on each side, widened to whole characters and decoded, and the decoded text is
cached under the start of the window that was asked for. `iter_chunks` reads page by page and
decodes each page for itself.

An outer `none` is a panic. `Reader` says which positioned reads of a call succeed.
-/

namespace EeEditor.Vlf

/-- `UTF8_SEAM_SLACK`. -/
def utf8SeamSlack : ℕ := 4

/-- The order of the constructors is that of eviction. -/
inductive PagePriority where
  | background
  | overscan
  | viewport
deriving DecidableEq

def PagePriority.toNat : PagePriority → ℕ
  | background => 0
  | overscan => 1
  | viewport => 2

/-! ## The decoded text -/

structure DecodedEntry where
  text : List UInt8
  decodedRange : ByteRange
  priority : PagePriority
  accessTime : ℕ
deriving DecidableEq

/-- A key of the order of eviction: the priority, and the time of the last access. -/
abbrev EvictKey := ℕ × ℕ

structure DecodedTextCache where
  entries : AList fun _ : ℕ ↦ DecodedEntry
  /-- The starts in the order of their keys. -/
  order : List (EvictKey × ℕ)
  accessCounter : ℕ
  usedBytes : ℕ
  byteCap : ℕ
deriving DecidableEq

/-- `BTreeMap::insert`. -/
def insertKey (key : EvictKey) (pageStart : ℕ) : List (EvictKey × ℕ) → List (EvictKey × ℕ)
  | [] => [(key, pageStart)]
  | (key', pageStart') :: order =>
    if key = key' then (key, pageStart) :: order
    else if key.1 < key'.1 ∨ key.1 = key'.1 ∧ key.2 < key'.2 then
      (key, pageStart) :: (key', pageStart') :: order
    else (key', pageStart') :: insertKey key pageStart order

/-- `BTreeMap::remove`. -/
def removeKey (key : EvictKey) (order : List (EvictKey × ℕ)) : List (EvictKey × ℕ) :=
  order.filter (·.1 ≠ key)

namespace DecodedTextCache

def new (byteCap : ℕ) : DecodedTextCache := ⟨∅, [], 0, 0, byteCap⟩

def get (self : DecodedTextCache) (pageStart : ℕ) :
    Option (List UInt8 × ByteRange) × DecodedTextCache :=
  match self.entries.lookup pageStart with
  | none => (none, self)
  | some entry =>
    let accessTime := self.accessCounter + 1
    (some (entry.text, entry.decodedRange), { self with
      entries := self.entries.insert pageStart { entry with accessTime := accessTime }
      order := insertKey (entry.priority.toNat, accessTime) pageStart
        (removeKey (entry.priority.toNat, entry.accessTime) self.order)
      accessCounter := accessTime })

/-- The loop that evicts until there is room, in the order of the keys. -/
def evict (needed byteCap : ℕ) : List (EvictKey × ℕ) → (AList fun _ : ℕ ↦ DecodedEntry) → ℕ →
    List (EvictKey × ℕ) × (AList fun _ : ℕ ↦ DecodedEntry) × ℕ
  | [], entries, usedBytes => ([], entries, usedBytes)
  | (key, evictStart) :: order, entries, usedBytes =>
    if entries.entries ≠ [] ∧ usedBytes + needed > byteCap then
      match entries.lookup evictStart with
      | none => evict needed byteCap order entries usedBytes
      | some evicted =>
        evict needed byteCap order (entries.erase evictStart) (usedBytes - evicted.text.length)
    else ((key, evictStart) :: order, entries, usedBytes)

/-- Remove the entry of a start. -/
def remove (self : DecodedTextCache) (pageStart : ℕ) : DecodedTextCache :=
  match self.entries.lookup pageStart with
  | none => self
  | some old => { self with
      entries := self.entries.erase pageStart
      order := removeKey (old.priority.toNat, old.accessTime) self.order
      usedBytes := self.usedBytes - old.text.length }

def put (self : DecodedTextCache) (pageStart : ℕ) (text : List UInt8) (decodedRange : ByteRange)
    (priority : PagePriority) : DecodedTextCache :=
  let self := self.remove pageStart
  let needed := text.length
  if needed > self.byteCap then self
  else
    let (order, entries, usedBytes) :=
      evict needed self.byteCap self.order self.entries self.usedBytes
    let accessTime := self.accessCounter + 1
    { self with
      entries := entries.insert pageStart ⟨text, decodedRange, priority, accessTime⟩
      order := insertKey (priority.toNat, accessTime) pageStart order
      accessCounter := accessTime
      usedBytes := usedBytes + needed }

def setPriority (self : DecodedTextCache) (pageStart : ℕ) (newPriority : PagePriority) :
    DecodedTextCache :=
  match self.entries.lookup pageStart with
  | none => self
  | some entry => { self with
      entries := self.entries.insert pageStart { entry with priority := newPriority }
      order := insertKey (newPriority.toNat, entry.accessTime) pageStart
        (removeKey (entry.priority.toNat, entry.accessTime) self.order) }

end DecodedTextCache

/-! ## The store -/

structure TextChunk where
  text : List UInt8
  byteRange : ByteRange
deriving DecidableEq

/-- The error of a read: its token is stale, or the file cannot be read. -/
inductive ReadError where
  | interrupted
  | failed
deriving DecidableEq

inductive TextChunkResult where
  | ready (chunk : TextChunk)
  | pending
  | cancelled
  | unsupported
deriving DecidableEq

def ReadError.result : ReadError → TextChunkResult
  | interrupted => .cancelled
  | failed => .pending

/-- What a store without an overlay reads from. -/
structure WindowStore where
  file : List UInt8
  pageSize : ℕ
  decodedCache : DecodedTextCache
  windowStart : ℕ
  windowEnd : ℕ
  batchSize : ℕ
deriving DecidableEq

/-- The loop that walks back past continuation bytes. -/
def walkBack (raw : List UInt8) : ℕ → Option ℕ
  | 0 => some 0
  | i + 1 =>
    match raw[i + 1]? with
    | none => none
    | some b => if isContinuation b then walkBack raw i else some (i + 1)

/-- The loop that walks forward past continuation bytes. -/
def walkForward (raw : List UInt8) (i : ℕ) : ℕ := i + ((raw.drop i).takeWhile isContinuation).length

namespace WindowStore

def new (file : List UInt8) (pageSize decodedByteCap batchSize : ℕ) : WindowStore :=
  ⟨file, pageSize, .new decodedByteCap, 0, 0, batchSize⟩

def maxReadSize (self : WindowStore) : ℕ := self.pageSize * 4

/-- The priority of a range, from the viewport. -/
def priority (self : WindowStore) (range : ByteRange) (windowStart windowEnd overscanEnd : ℕ) :
    PagePriority :=
  if range.start < windowEnd ∧ range.end_ > windowStart then .viewport
  else if range.start < overscanEnd ∧ range.end_ > windowStart - self.batchSize then .overscan
  else .background

/-- `set_viewport`, as far as reads go. -/
def setViewport (self : WindowStore) (start end_ : ℕ) : WindowStore :=
  let overscanEnd := min (end_ + self.batchSize) self.file.length
  { self with
    decodedCache := self.decodedCache.entries.keys.foldl (fun cache key ↦
      match cache.entries.lookup key with
      | none => cache
      | some entry =>
        cache.setPriority key (self.priority entry.decodedRange start end_ overscanEnd))
      self.decodedCache
    windowStart := start
    windowEnd := end_ }

def setBatchSize (self : WindowStore) (batchSize : ℕ) : WindowStore :=
  { self with batchSize := batchSize }

/-- The part of `read_with_seam_token` that reads. An inner `none` is an error. -/
def readSeam (self : WindowStore) (reads : Reader) (range : ByteRange) :
    Option (Option TextChunk × WindowStore) :=
  let expandedStart := range.start - utf8SeamSlack
  let expandedEnd := min (range.end_ + utf8SeamSlack) self.file.length
  match readAt self.file self.maxReadSize reads ⟨expandedStart, expandedEnd⟩ with
  | none => some (none, self)
  | some raw =>
    let reqStart := range.start - expandedStart
    let reqEnd := min (range.end_ - expandedStart) raw.length
    match walkBack raw reqStart with
    | none => none
    | some actualStart =>
      let actualEnd := walkForward raw reqEnd
      if actualStart ≤ actualEnd ∧ actualEnd ≤ raw.length then
        let text := fromUtf8Lossy ((raw.take actualEnd).drop actualStart)
        let decodedRange := ⟨expandedStart + actualStart, expandedStart + actualEnd⟩
        let priority := self.priority decodedRange self.windowStart self.windowEnd
          (min (self.windowEnd + self.batchSize) self.file.length)
        some (some ⟨text, decodedRange⟩, { self with
          decodedCache := self.decodedCache.put range.start text decodedRange priority })
      else none

/-- `read_with_seam`. A cached window is used when it covers the range. -/
def readWithSeam (self : WindowStore) (reads : Reader) (range : ByteRange) :
    Option (Option TextChunk × WindowStore) :=
  match self.decodedCache.get range.start with
  | (some (text, decodedRange), cache) =>
    let self := { self with decodedCache := cache }
    if decodedRange.start ≤ range.start ∧ decodedRange.end_ ≥ range.end_ then
      some (some ⟨text, decodedRange⟩, self)
    else self.readSeam reads range
  | (none, _) => self.readSeam reads range

/-- `read_byte_range`. -/
def readByteRange (self : WindowStore) (reads : Reader) (error : ReadError) (range : ByteRange) :
    Option (TextChunkResult × WindowStore) :=
  let fileSize := self.file.length
  if range.start > fileSize ∨ range.end_ > fileSize then some (.unsupported, self)
  else if range.end_ ≤ range.start then some (.ready ⟨[], range⟩, self)
  else
    (self.readWithSeam reads range).map fun
      | (none, self) => (error.result, self)
      | (some chunk, self) => (.ready chunk, self)

/-- The loop of `iter_chunks`, which does not end when the fuel does not suffice. `stale` says where
the loop finds that it has been cancelled. -/
def chunksFrom (self : WindowStore) (reads : Reader) (error : ReadError) (stale : ℕ → Bool)
    (end_ : ℕ) : ℕ → ℕ → Option (List TextChunkResult)
  | 0, pos => if pos < end_ then none else some []
  | fuel + 1, pos =>
    if pos < end_ then
      if stale pos then some [.cancelled]
      else
        let chunkEnd := min (min (pos + self.pageSize) end_) self.file.length
        match readAt self.file self.maxReadSize reads ⟨pos, chunkEnd⟩ with
        | none => some [error.result]
        | some bytes => (chunksFrom self reads error stale end_ fuel chunkEnd).map
            (.ready ⟨fromUtf8Lossy bytes, ⟨pos, chunkEnd⟩⟩ :: ·)
    else some []

/-- `iter_chunks`. `none` is for a loop that does not end. -/
def iterChunks (self : WindowStore) (reads : Reader) (error : ReadError) (stale : ℕ → Bool)
    (range : ByteRange) : Option (List TextChunkResult) :=
  let fileSize := self.file.length
  if range.start > fileSize ∨ range.end_ > fileSize then some [.unsupported]
  else self.chunksFrom reads error stale range.end_ range.len range.start

end WindowStore

end EeEditor.Vlf
