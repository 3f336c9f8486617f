import EeEditor.Plugin.ChunkCache

/-!
# The state cache of a plugin

The model of `xi-plugin-lib/src/state_cache.rs`: over the chunk cache, a plugin keeps its own state
at some line starts, and the frontier, a sorted list of the lines where work has to be done. `none`
is a panic.
-/

namespace EeEditor.Plugin

structure CacheEntry (S : Type) where
  lineNum : ℕ
  offset : ℕ
  userState : Option S
deriving DecidableEq

structure StateCache (S : Type) where
  bufCache : ChunkCache
  stateCache : List (CacheEntry S)
  /-- The frontier, a sorted list of line numbers. -/
  frontier : List ℕ
deriving DecidableEq

/-- `n.wrapping_add(delta as usize)` on 64-bit integers. -/
def wrappingAdd (n : ℕ) (delta : ℤ) : ℕ := (((n : ℤ) + delta) % 2 ^ 64).toNat

namespace StateCache

variable {S : Type}

def new (bufSize rev numLines : ℕ) : StateCache S := ⟨.new bufSize rev numLines, [], []⟩

/-- Find an entry by offset: its index, or the index to insert it at. -/
def findOffset (self : StateCache S) (offset : ℕ) : Except ℕ ℕ :=
  binarySearch (self.stateCache.map (·.offset)) offset

/-! ## The frontier -/

def truncateFrontier (self : StateCache S) (lineNum : ℕ) : StateCache S :=
  match binarySearch self.frontier lineNum with
  | .ok ix => { self with frontier := self.frontier.take (ix + 1) }
  | .error ix => { self with frontier := self.frontier.take ix ++ [lineNum] }

/-- The loop of `patchup_frontier` over the old frontier. -/
def patchupLoop (lineNum : ℕ) (entry : Option (CacheEntry S)) (nlCountDelta : ℤ) :
    Bool → List ℕ → List ℕ
  | needPush, [] => if needPush then [lineNum] else []
  | needPush, oldLn :: frontier =>
    if oldLn < lineNum then oldLn :: patchupLoop lineNum entry nlCountDelta needPush frontier
    else if needPush then
      let shifted := match entry with
        | some entry => if oldLn ≥ entry.lineNum then [wrappingAdd oldLn nlCountDelta] else []
        | none => []
      lineNum :: shifted ++ patchupLoop lineNum entry nlCountDelta false frontier
    else patchupLoop lineNum entry nlCountDelta needPush frontier

def patchupFrontier (self : StateCache S) (cacheIdx : ℕ) (nlCountDelta : ℤ) :
    Option (StateCache S) := do
  let lineNum ← match cacheIdx with
    | 0 => some 0
    | ix + 1 => self.stateCache[ix]?.map (·.lineNum)
  return { self with
    frontier := patchupLoop lineNum self.stateCache[cacheIdx]? nlCountDelta true self.frontier }

/-! ## The entries -/

/-- The line of the last entry at or before an offset, and the number of entries up to it. -/
def lastUpTo (self : StateCache S) (offset : ℕ) : Option (ℕ × ℕ) :=
  match self.findOffset offset with
  | .ok ix => self.stateCache[ix]?.map fun entry ↦ (entry.lineNum, ix + 1)
  | .error 0 => some (0, 0)
  | .error (ix + 1) => self.stateCache[ix]?.map fun entry ↦ (entry.lineNum, ix + 1)

/-- Release all state after the given offset. -/
def truncateCache (self : StateCache S) (offset : ℕ) : Option (StateCache S) := do
  let (lineNum, ix) ← self.lastUpTo offset
  let self := self.truncateFrontier lineNum
  return { self with stateCache := self.stateCache.take ix }

def clearToStart (self : StateCache S) (start : ℕ) : Option (StateCache S) :=
  self.truncateCache start

/-- The index of the first entry after an offset. -/
def indexAfter (self : StateCache S) (offset : ℕ) : ℕ :=
  match self.findOffset offset with
  | .ok ix => ix + 1
  | .error ix => ix

def lineCacheSimpleInsert (self : StateCache S) (start newLen newlineNum : ℕ) :
    Option (StateCache S) :=
  let ix := self.indexAfter start
  let stateCache := self.stateCache.take ix ++ (self.stateCache.drop ix).map fun entry ↦
    { entry with lineNum := entry.lineNum + newlineNum, offset := entry.offset + newLen }
  { self with stateCache := stateCache }.patchupFrontier ix newlineNum

/-- An entry after a deletion. -/
def pullBack (entry : CacheEntry S) (lines len : ℕ) : Option (CacheEntry S) := do
  let lineNum ← checkedSub entry.lineNum lines
  let offset ← checkedSub entry.offset len
  return { entry with lineNum := lineNum, offset := offset }

def lineCacheSimpleDelete (self : StateCache S) (start end_ : ℕ) : Option (StateCache S) :=
  let off := self.bufCache.offset
  let chunkEnd := off + self.bufCache.contents.length
  if start ≥ off ∧ end_ ≤ chunkEnd then do
    let deleted ← sliceStr self.bufCache.contents (start - off) (end_ - off)
    let delNewlineNum := countNewlines deleted
    -- delete all entries that overlap the deleted range
    let ix := self.indexAfter start
    let rest := (self.stateCache.drop ix).dropWhile (·.offset ≤ end_)
    let delLen ← checkedSub end_ start
    let rest ← rest.mapM fun entry ↦ pullBack entry delNewlineNum delLen
    let self := { self with stateCache := self.stateCache.take ix ++ rest }
    self.patchupFrontier ix (-delNewlineNum)
  else
    -- outside of the chunk the newlines cannot be counted
    self.clearToStart start

/-- Update the line cache to reflect this delta. -/
def updateLineCache (self : StateCache S) (delta : Delta UInt8) : Option (StateCache S) :=
  let ((start, end_), newLen) := delta.summary
  match delta.asSimpleInsert with
  | some n =>
    if end_ = start ∧ newLen = n.length then
      self.lineCacheSimpleInsert start newLen (countNewlines n)
    else none
  | none =>
    if delta.isSimpleDelete then
      if newLen = 0 then self.lineCacheSimpleDelete start end_ else none
    else self.clearToStart start

/-- Update the cache by applying this delta. Without a delta everything is blown away. -/
def update (self : StateCache S) (delta : Option (Delta UInt8)) (bufSize numLines rev : ℕ) :
    Option (StateCache S) := do
  let self ← match delta with
    | some delta => self.updateLineCache delta
    | none => self.clearToStart 0
  let bufCache ← self.bufCache.update delta bufSize numLines rev
  return { self with bufCache := bufCache }

/-! ## The states -/

def cacheSize : ℕ := 1024

/-- The number of probes of the eviction. -/
def numProbes : ℕ := 5

/-- Find an entry by line: its index, or the index to insert it at. -/
def findLine (self : StateCache S) (lineNum : ℕ) : Except ℕ ℕ :=
  binarySearch (self.stateCache.map (·.lineNum)) lineNum

/-- The loop of `get_prev`, from an index down to the first entry with a state. -/
def prevLoop [Inhabited S] (stateCache : List (CacheEntry S)) : ℕ → Option (ℕ × ℕ × S)
  | 0 => stateCache[0]?.map fun item ↦
    match item.userState with
    | some s => (item.lineNum, item.offset, s)
    | none => (0, 0, default)
  | ix + 1 =>
    match stateCache[ix + 1]? with
    | none => none
    | some item =>
      match item.userState with
      | some s => some (item.lineNum, item.offset, s)
      | none => prevLoop stateCache ix

/-- The state from the nearest entry at or before a line, with the line and the offset. -/
def getPrev [Inhabited S] (self : StateCache S) (lineNum : ℕ) : Option (ℕ × ℕ × S) :=
  if lineNum > 0 then
    match self.findLine lineNum with
    | .ok ix => prevLoop self.stateCache ix
    | .error 0 => some (0, 0, default)
    | .error (ix + 1) => prevLoop self.stateCache ix
  else some (0, 0, default)

/-- The gap that would result from deleting an entry. It is asserted not to be negative. -/
def computeGap (self : StateCache S) (ix : ℕ) : Option ℕ := do
  let before ← match ix with
    | 0 => some 0
    | ix + 1 => self.stateCache[ix]?.map (·.offset)
  let after := match self.stateCache[ix + 1]? with
    | some item => item.offset
    | none => self.bufCache.bufSize
  if after ≥ before then some (after - before) else none

/-- The loop of `choose_victim` over the indices that are drawn. -/
def probeLoop (self : StateCache S) : Option (ℕ × ℕ) → List ℕ → Option (Option (ℕ × ℕ))
  | best, [] => some best
  | best, ix :: probes =>
    match self.computeGap ix with
    | none => none
    | some gap =>
      let better : Bool := (best.map fun b ↦ decide (gap < b.1)).getD true
      self.probeLoop (if better then some (gap, ix) else best) probes

def chooseVictim (self : StateCache S) (probes : List ℕ) : Option ℕ :=
  (self.probeLoop none probes).join.map Prod.snd

/-- Evict one entry. -/
def evict (self : StateCache S) (probes : List ℕ) : Option (StateCache S) := do
  let ix ← self.chooseVictim probes
  if ix < self.stateCache.length then
    return { self with stateCache := self.stateCache.eraseIdx ix }
  else none

/-- A full cache evicts one entry. -/
def makeRoom (self : StateCache S) (probes : List ℕ) : Option (StateCache S) :=
  if self.stateCache.length ≥ cacheSize then self.evict probes else some self

/-- Insert a new entry, and return its index. It is an error if the line has an entry already. -/
def insertEntry (self : StateCache S) (probes : List ℕ) (lineNum offset : ℕ)
    (userState : Option S) : Option (Except Unit ℕ × StateCache S) := do
  let self ← self.makeRoom probes
  match self.findLine lineNum with
  | .ok _ => return (.error (), self)
  | .error ix =>
    return (.ok ix, { self with
      stateCache := self.stateCache.take ix ++ ⟨lineNum, offset, userState⟩ ::
        self.stateCache.drop ix })

/-- The index of the entry of a line, which is created if it is missing. There is none at the end of
the partial line at the end of the document. -/
def getEntry (fuel : ℕ) (source : DataSource) (self : StateCache S) (probes : List ℕ)
    (lineNum : ℕ) : Option (Option ℕ × StateCache S) :=
  match self.findLine lineNum with
  | .ok ix => some (some ix, self)
  | .error _ =>
    if lineNum = self.bufCache.numLines then some (none, self)
    else do
      match ← self.bufCache.offsetOfLine source fuel lineNum with
      | (.error _, _) => none
      | (.ok offset, bufCache) =>
        match ← { self with bufCache := bufCache }.insertEntry probes lineNum offset none with
        | (.ok newIx, self) => return (some newIx, self)
        | (.error _, self) => return (none, self)

/-- Set the state at a line. -/
def set (fuel : ℕ) (source : DataSource) (self : StateCache S) (probes : List ℕ) (lineNum : ℕ)
    (s : S) : Option (StateCache S) := do
  match ← self.getEntry fuel source probes lineNum with
  | (some ix, self) => return { self with
      stateCache := self.stateCache.modify ix fun entry ↦ { entry with userState := some s } }
  | (none, self) => return self

end StateCache

end EeEditor.Plugin
