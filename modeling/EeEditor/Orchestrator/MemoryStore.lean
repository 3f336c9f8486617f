import EeEditor.Orchestrator.Text
import Mathlib.Algebra.GroupWithZero.Nat
import Mathlib.Algebra.Order.BigOperators.Group.List
import Mathlib.Tactic.Common

/-!
# The memory of a session

The model of `ee-agent-orchestrator/src/memory.rs`, of `compact_memory` in `memory_compaction.rs`
and of what `checkpoint.rs` makes of the memory when a checkpoint is saved and restored. What panics
is `none`. The strings of a store are in memory together, so that a sum of their lengths does not
overflow.
-/

namespace EeEditor.Orchestrator

inductive TrustLevel where
  | systemPolicy
  | userPrompt
  | modelOutput
  | toolOutputUntrusted
  | subagentSummaryUntrusted
deriving DecidableEq

structure MemoryItem where
  key : String
  value : String
  sourceTask : Option String
  sensitive : Bool
  trust : TrustLevel
deriving DecidableEq

@[grind =]
def MemoryItem.byteSize (self : MemoryItem) : ℕ := self.key.utf8ByteSize + self.value.utf8ByteSize

/-- None of the fields of an item is an identity field, and no name of a trust level is redacted. -/
def MemoryItem.persisted (self : MemoryItem) : MemoryItem :=
  { self with
    key := redact self.key
    value := redact self.value
    sourceTask := self.sourceTask.map redact }

structure MemoryStore where
  limitBytes : ℕ
  totalBytes : ℕ
  items : List MemoryItem
deriving DecidableEq

inductive MemoryError where
  | policyDenied (reason : String)
  | budgetExceeded (reason : String)
  | invalidState (reason : String)
deriving DecidableEq

def bytesOf (items : List MemoryItem) : ℕ := (items.map MemoryItem.byteSize).sum

namespace MemoryStore

def new (limitBytes : ℕ) : MemoryStore := ⟨limitBytes, 0, []⟩

/-! ## Insertion -/

/-- The items that are evicted, counted, until `size` bytes fit. -/
@[grind =] def evict (limitBytes size : ℕ) :
    List MemoryItem → (totalBytes evicted : ℕ) → Option (ℕ × ℕ × List MemoryItem)
  | [], totalBytes, evicted =>
    if totalBytes + size > limitBytes then none else some (evicted, totalBytes, [])
  | removed :: items, totalBytes, evicted =>
    if totalBytes + size > limitBytes then
      if totalBytes < removed.byteSize then none
      else evict limitBytes size items (totalBytes - removed.byteSize) (evicted + 1)
    else some (evicted, totalBytes, removed :: items)

/-- The number of items that were evicted, or why the item is refused. -/
@[grind =]
def insert (self : MemoryStore) (item : MemoryItem) : Option (Except MemoryError ℕ × MemoryStore) :=
  if item.sensitive then
    some (.error (.policyDenied
      "sensitive memory items (secrets, credentials, raw output) are not stored"), self)
  else
    let item := { item with value := redact item.value }
    let size := item.byteSize
    if size > self.limitBytes then
      some (.error (.budgetExceeded ("memory item of " ++ toString size
        ++ " bytes exceeds the configured " ++ toString self.limitBytes ++ " byte limit")), self)
    else
      (evict self.limitBytes size self.items self.totalBytes 0).map
        fun (evicted, totalBytes, items) ↦
          (.ok evicted, { self with totalBytes := totalBytes + size, items := items ++ [item] })

/-! ## Removal -/

/-- The items whose flag is set stay. There is a flag for each item. -/
@[grind =] def retain (self : MemoryStore) (keep : List Bool) : Option (ℕ × MemoryStore) :=
  if keep.length < self.items.length then none
  else
    let items := ((self.items.zip keep).filter (·.2)).map (·.1)
    some (self.items.length - items.length, { self with totalBytes := bytesOf items, items })

def removePrefix (self : MemoryStore) (pre : String) : ℕ × MemoryStore :=
  let items := self.items.filter fun item ↦ !pre.toList.isPrefixOf item.key.toList
  (self.items.length - items.length, { self with totalBytes := bytesOf items, items })

/-! ## Compaction -/

def protectedMemoryPrefixes : List String := ["decision:", "constraint:", "validation:"]

def isProtectedKey (key : String) : Bool :=
  protectedMemoryPrefixes.any fun pre ↦ pre.toList.isPrefixOf key.toList

/-- The bytes that `pressure` allows of a limit, or `none` from a pressure of one on. -/
structure CompactionConfig where
  pressureBytes : ℕ → Option ℕ
  lowValuePrefix : String
  mergeDuplicates : Bool

structure CompactionReport where
  mergedDuplicates : ℕ
  decayedObservations : ℕ
  preservedProtected : ℕ
  itemsBefore : ℕ
  itemsAfter : ℕ
  bytesBefore : ℕ
  bytesAfter : ℕ
deriving DecidableEq

abbrev Provenance := Option String × TrustLevel

/-- The flags of the items, from the newest to the oldest, and the number that is merged away. -/
@[grind =] def mergeFlags (newest : String → Option Provenance) : List MemoryItem → List Bool × ℕ
  | [] => ([], 0)
  | item :: older =>
    if isProtectedKey item.key then
      let (flags, merged) := mergeFlags newest older
      (true :: flags, merged)
    else if newest item.key = some (item.sourceTask, item.trust) then
      let (flags, merged) := mergeFlags newest older
      (false :: flags, merged + 1)
    else
      let (flags, merged) := mergeFlags
        (Function.update newest item.key (some (item.sourceTask, item.trust))) older
      (true :: flags, merged)

/-- The flags after the decay, and the number of items that decayed. -/
@[grind =] def decayFlags (pressureBytes : ℕ) (lowValuePrefix : String) :
    List (MemoryItem × Bool) → ℕ → Option (List Bool × ℕ)
  | [], _ => some ([], 0)
  | (item, keep) :: items, bytes =>
    if bytes ≤ pressureBytes then some (keep :: items.map (·.2), 0)
    else if keep && lowValuePrefix.toList.isPrefixOf item.key.toList && !isProtectedKey
      item.key then
      if bytes < item.byteSize then none
      else
        (decayFlags pressureBytes lowValuePrefix items (bytes - item.byteSize)).map
          fun (flags, decayed) ↦ (false :: flags, decayed + 1)
    else
      (decayFlags pressureBytes lowValuePrefix items bytes).map
        fun (flags, decayed) ↦ (keep :: flags, decayed)

@[grind =] def mergeDuplicates (self : MemoryStore) (config : CompactionConfig) : List Bool × ℕ :=
  if config.mergeDuplicates then
    let (flags, merged) := mergeFlags (fun _ ↦ none) self.items.reverse
    (flags.reverse, merged)
  else (self.items.map fun _ ↦ true, 0)

@[grind =]
def decayObservations (self : MemoryStore) (config : CompactionConfig) (keep : List Bool) :
    Option (List Bool × ℕ) :=
  match config.pressureBytes self.limitBytes with
  | some pressureBytes =>
    decayFlags pressureBytes config.lowValuePrefix (self.items.zip keep) self.totalBytes
  | none => some (keep, 0)

@[grind =] def compactMemory (self : MemoryStore) (config : CompactionConfig) :
    Option (CompactionReport × MemoryStore) :=
  let preservedProtected := self.items.countP (isProtectedKey ·.key)
  let (keep, mergedDuplicates) := self.mergeDuplicates config
  (self.decayObservations config keep).bind fun (keep, decayedObservations) ↦
    (self.retain keep).map fun (removed, store) ↦
      ({ mergedDuplicates, decayedObservations, preservedProtected
         itemsBefore := self.items.length
         itemsAfter := self.items.length - removed
         bytesBefore := self.totalBytes
         bytesAfter := store.totalBytes }, store)

/-! ## Checkpoints -/

/-- The part of `validate` about the memory, whose limit is that of the configuration. -/
@[grind =] def validate (self : MemoryStore) (memoryLimitBytes : ℕ) : Except MemoryError Unit :=
  if self.limitBytes ≠ memoryLimitBytes then
    .error (.invalidState ("checkpoint memory limit " ++ toString self.limitBytes
      ++ " differs from config limit " ++ toString memoryLimitBytes))
  else if self.totalBytes > self.limitBytes then
    .error (.invalidState ("checkpoint memory holds " ++ toString self.totalBytes
      ++ " bytes over the " ++ toString self.limitBytes ++ " byte limit"))
  else if self.items.any (·.sensitive) then
    .error (.policyDenied "checkpoint contains sensitive memory items; refusing restore")
  else .ok ()

/-- The numbers stay as they are. -/
def redactPersistedStrings (self : MemoryStore) : MemoryStore :=
  { self with items := self.items.map MemoryItem.persisted }

def persistenceSafeCopy (self : MemoryStore) (memoryLimitBytes : ℕ) :
    Except MemoryError MemoryStore := do
  self.validate memoryLimitBytes
  let copy := self.redactPersistedStrings
  copy.validate memoryLimitBytes
  .ok copy

/-- The memory of the runtime that the copy is restored into, or the old one when it is refused. -/
def saveAndRestore (self : MemoryStore) (memoryLimitBytes : ℕ) : MemoryStore :=
  match self.persistenceSafeCopy memoryLimitBytes with
  | .ok copy => copy
  | .error _ => self

/-! ## Steps -/

inductive MemoryEvent where
  | insert (item : MemoryItem)
  | removePrefix (pre : String)
  | compact (config : CompactionConfig)
  | saveAndRestore (memoryLimitBytes : ℕ)

def step (self : MemoryStore) : MemoryEvent → Option MemoryStore
  | .insert item => (self.insert item).map (·.2)
  | .removePrefix pre => some (self.removePrefix pre).2
  | .compact config => (self.compactMemory config).map (·.2)
  | .saveAndRestore memoryLimitBytes => some (self.saveAndRestore memoryLimitBytes)

end MemoryStore

end EeEditor.Orchestrator
