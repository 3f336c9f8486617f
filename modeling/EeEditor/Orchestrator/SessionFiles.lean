import EeEditor.Effect.Disk
import EeEditor.Orchestrator.CheckpointStore
import EeEditor.Orchestrator.Text

/-!
# The files of sessions

The model of `ee-agent-orchestrator/src/checkpoint_store.rs` with the paths that its operations
access. Sessions are strings, and the directory of one is named by a map that forgets characters.
Directories are made when a file is put into them, and permissions and syncing are left out.
-/

namespace EeEditor.Orchestrator

variable {κ : Type}

abbrev Bytes := List UInt8

/-- What the files hold of the checkpoints: their envelopes as JSON. -/
structure EnvelopeFormat (κ : Type) extends CheckpointFormat κ where
  encode : StoredCheckpoint κ → Bytes
  decode : Bytes → Option (StoredCheckpoint κ)

/-! ## Paths -/

/-- The location that a name without separators leads to from a directory. -/
@[grind =] def joinName (dir : Location) (name : String) : Location :=
  if name = "" ∨ name = "." then dir
  else if name = ".." then dir.dropLast
  else dir ++ [name]

/-- Session ids in file names are restricted to safe characters. -/
@[grind =] def sanitize (sessionId : String) : String :=
  String.ofList (sessionId.toList.map fun ch ↦
    if ch.isAlphanum || ch = '-' || ch = '_' || ch = '.' then ch else '_')

@[grind =]
def sessionDir (dir : Location) (sessionId : String) : Location := joinName dir (sanitize sessionId)

/-- `seq` in decimal, with leading zeros up to ten digits. -/
def paddedSeq (seq : ℕ) : String :=
  String.ofList (List.replicate (10 - (toString seq).length) '0') ++ toString seq

def seqPath (dir : Location) (sessionId : String) (seq : ℕ) : Location :=
  sessionDir dir sessionId ++ [paddedSeq seq ++ ".json"]

/-- `str::parse::<u64>`. -/
def parseU64 (text : List Char) : Option ℕ :=
  let digits := if text.head? = some '+' then text.tail else text
  if digits = [] || digits.any (!·.isDigit) then none
  else
    let n := digits.foldl (fun n c ↦ 10 * n + (c.toNat - '0'.toNat)) 0
    if n < 2 ^ 64 then some n else none

def seqFromName (name : String) : Option ℕ :=
  let text := name.toList
  if !".json".toList.isSuffixOf text then none
  else
    let stem := text.take (text.length - ".json".length)
    if "tmp-".toList.isPrefixOf stem then none else parseU64 stem

/-! ## Operations -/

/-- The entries and the counters of the process. -/
structure StoreMemory (κ : Type) where
  entries : Std.TreeMap String (OrderedMap (StoredCheckpoint κ))
  nextSeq : Std.TreeMap String ℕ

/-- A durable store. -/
structure DurableStore (κ : Type) where
  format : EnvelopeFormat κ
  config : StoreConfig
  dir : Location
  processId : ℕ

/-- The result of an operation, and the memory after it. -/
abbrev StoreResult (κ ρ : Type) := Except OrchestratorError ρ × StoreMemory κ

namespace DurableStore

def checkpointId (sessionId : String) (seq : ℕ) : String := sessionId ++ "-" ++ paddedSeq seq

def perSession (memory : StoreMemory κ) (sessionId : String) : OrderedMap (StoredCheckpoint κ) :=
  memory.entries[sessionId]?.getD ∅

def removeFiles : List Location → DiskProgram Bytes Unit
  | [] => pure ()
  | file :: files => .remove file (removeFiles files)

/-- Keeps only the newest entries. -/
def pruneLocked (self : DurableStore κ) (sessionId : String)
    (entries : OrderedMap (StoredCheckpoint κ)) :
    DiskProgram Bytes (OrderedMap (StoredCheckpoint κ)) := do
  let seqs := CheckpointStore.overflow self.config entries
  removeFiles (seqs.map (seqPath self.dir sessionId))
  return entries.eraseAll seqs

def tmpPath (self : DurableStore κ) (sessionId : String) (seq : ℕ) : Location :=
  sessionDir self.dir sessionId ++
    ["tmp-" ++ toString self.processId ++ "-" ++ toString seq ++ ".json"]

/-- The file is created under a name of its own and renamed. -/
def writeFile (self : DurableStore κ) (sessionId : String) (stored : StoredCheckpoint κ) :
    DiskProgram Bytes (Except OrchestratorError Unit) :=
  let tmp := self.tmpPath sessionId stored.seq
  .read tmp fun
    | some _ => pure (.error (.serialization "failed to create checkpoint"))
    | none =>
      let envelope := self.format.encode stored
      .write tmp envelope <| .remove tmp <|
        .write (seqPath self.dir sessionId stored.seq) envelope <| pure (.ok ())

def save (self : DurableStore κ) (memory : StoreMemory κ) (sessionId : String) (checkpoint : κ) :
    DiskProgram Bytes (StoreResult κ String) :=
  match self.format.persistenceSafeCopy checkpoint with
  | .error e => pure (.error e, memory)
  | .ok checkpoint =>
    let payload := self.format.payload checkpoint
    if payload.length > self.config.maxBytes then
      pure (.error (.serialization ("checkpoint payload " ++ toString payload.length
        ++ " bytes exceeds the " ++ toString self.config.maxBytes ++ " byte cap")), memory)
    else do
      let seq := memory.nextSeq[sessionId]?.getD 1
      let memory := { memory with nextSeq := memory.nextSeq.insert sessionId (seq + 1) }
      let stored : StoredCheckpoint κ :=
        ⟨seq, self.format.createdAtMillis checkpoint, self.format.digest payload, checkpoint, 0⟩
      match ← self.writeFile sessionId stored with
      | .error e => return (.error e, memory)
      | .ok () =>
        let entries ← self.pruneLocked sessionId ((perSession memory sessionId).insert seq stored)
        return (.ok (checkpointId sessionId seq),
          { memory with entries := memory.entries.insert sessionId entries })

def readFile (self : DurableStore κ) (sessionId : String) (seq : ℕ) :
    DiskProgram Bytes (Except OrchestratorError (StoredCheckpoint κ)) :=
  .read (seqPath self.dir sessionId seq) fun bytes ↦
    match bytes.bind self.format.decode with
    | some stored => pure (.ok stored)
    | none => pure (.error (.serialization "failed to read checkpoint"))

/-- The entries of the files with the names. -/
def readFiles (self : DurableStore κ) (sessionId : String) :
    List String → OrderedMap (StoredCheckpoint κ) →
      DiskProgram Bytes (Except OrchestratorError (OrderedMap (StoredCheckpoint κ)))
  | [], disk => pure (.ok disk)
  | name :: names, disk =>
    match seqFromName name with
    | none => self.readFiles sessionId names disk
    | some seq => do
      match ← self.readFile sessionId seq with
      | .error e => return .error e
      | .ok stored => self.readFiles sessionId names (disk.insert seq stored)

/-- The entries are read again from the files, and pruned. -/
def refresh (self : DurableStore κ) (memory : StoreMemory κ) (now : ℕ) (sessionId : String) :
    DiskProgram Bytes (StoreResult κ Unit) :=
  .list (sessionDir self.dir sessionId) fun names ↦ do
    match ← self.readFiles sessionId names ∅ with
    | .error e =>
      return (.error e,
        { memory with entries := memory.entries.insert sessionId (perSession memory sessionId) })
    | .ok disk =>
      let entries ← self.pruneLocked sessionId
        (disk.retain fun file ↦ self.config.isLive now file.2)
      return (.ok (), { memory with entries := memory.entries.insert sessionId entries })

def verifyAndTake (self : DurableStore κ) (sessionId : String) (seq : ℕ)
    (stored : StoredCheckpoint κ) : DiskProgram Bytes (Except OrchestratorError κ) := do
  match ← self.readFile sessionId seq with
  | .error e => return .error e
  | .ok file =>
    if self.format.digest (self.format.payload file.checkpoint) ≠ stored.checksum then
      return .error (.serialization ("checkpoint " ++ checkpointId sessionId seq
        ++ " checksum mismatch (corrupt or tampered)"))
    else return (self.format.validate file.checkpoint).map fun _ ↦ file.checkpoint

def loadLatest (self : DurableStore κ) (memory : StoreMemory κ) (now : ℕ) (sessionId : String) :
    DiskProgram Bytes (StoreResult κ (Option (String × κ))) := do
  match ← self.refresh memory now sessionId with
  | (.error e, memory) => return (.error e, memory)
  | (.ok (), memory) =>
    match (perSession memory sessionId).last? with
    | none => return (.ok none, memory)
    | some (seq, stored) =>
      let checkpoint ← self.verifyAndTake sessionId seq stored
      return (checkpoint.map fun checkpoint ↦ some (checkpointId sessionId seq, checkpoint), memory)

def list (self : DurableStore κ) (memory : StoreMemory κ) (now : ℕ) (sessionId : String) :
    DiskProgram Bytes (StoreResult κ (List (CheckpointMeta String))) := do
  match ← self.refresh memory now sessionId with
  | (.error e, memory) => return (.error e, memory)
  | (.ok (), memory) =>
    return (.ok ((perSession memory sessionId).entries.map fun (seq, stored) ↦
      ⟨(sessionId, seq), stored.createdAtMillis,
        (self.format.payload stored.checkpoint).length⟩), memory)

def deleteSession (self : DurableStore κ) (memory : StoreMemory κ) (sessionId : String) :
    DiskProgram Bytes (StoreResult κ Unit) :=
  .removeAll (sessionDir self.dir sessionId) <| pure (.ok (),
    { entries := memory.entries.erase sessionId, nextSeq := memory.nextSeq.erase sessionId })

/-! ## Expiry -/

/-- The entries of the session that have not expired. -/
def liveEntries (self : DurableStore κ) (now : ℕ) (entries : OrderedMap (StoredCheckpoint κ)) :
    OrderedMap (StoredCheckpoint κ) :=
  entries.retain fun entry ↦ self.config.isLive now entry.2

/-- The sessions with an entry that expired. -/
def expiredIds (self : DurableStore κ) (memory : StoreMemory κ) (now : ℕ) : List String :=
  (memory.entries.toList.filter fun (_, entries) ↦
    (self.liveEntries now entries).size ≠ entries.size).map (·.1)

def removeSessions (self : DurableStore κ) : List String → DiskProgram Bytes Unit
  | [] => pure ()
  | sessionId :: ids => .removeAll (sessionDir self.dir sessionId) (self.removeSessions ids)

def pruneExpired (self : DurableStore κ) (memory : StoreMemory κ) (now : ℕ) :
    DiskProgram Bytes (StoreResult κ Unit) := do
  self.removeSessions (self.expiredIds memory now)
  return (.ok (),
    { memory with entries := memory.entries.map fun _ entries ↦ self.liveEntries now entries })

end DurableStore

end EeEditor.Orchestrator
