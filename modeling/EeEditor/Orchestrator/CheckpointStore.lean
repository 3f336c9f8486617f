import EeEditor.Effect.Trace
import EeEditor.Sequence.OrderedMap

/-!
# The checkpoint store

The model of `ee-agent-orchestrator/src/checkpoint_store.rs` with a directory, and of the files that
it leaves there for the next process. Each session has a directory of its own, so that a session
stands for its directory, and a file is the envelope that was written to it. Nothing fails but what
the store itself refuses.

Every envelope carries a serial number that no operation reads, so that it can be told which of two
checkpoints was saved later, and `history` records what was saved since a session was last deleted.
-/

namespace EeEditor.Orchestrator

inductive OrchestratorError where
  | policyDenied (reason : String)
  | invalidState (reason : String)
  | serialization (reason : String)
deriving DecidableEq

/-- What the store uses of the checkpoints `κ`: their time of capture, the copy that may be
persisted, which has passed its checks and keeps that time, and the bytes and digests of their
payloads. -/
structure CheckpointFormat (κ : Type) where
  createdAtMillis : κ → ℕ
  persistenceSafeCopy : κ → Except OrchestratorError κ
  validate : κ → Except OrchestratorError Unit
  payload : κ → List UInt8
  digest : List UInt8 → String
  createdAtMillis_safeCopy : ∀ c c', persistenceSafeCopy c = .ok c' →
    createdAtMillis c' = createdAtMillis c
  validate_safeCopy : ∀ c c', persistenceSafeCopy c = .ok c' → validate c' = .ok ()

structure StoredCheckpoint (κ : Type) where
  seq : ℕ
  createdAtMillis : ℕ
  checksum : String
  checkpoint : κ
  serial : ℕ

structure StoreConfig where
  ttlMillis : ℕ
  maxBytes : ℕ
  maxPerSession : ℕ

structure CheckpointMeta (σ : Type) where
  id : σ × ℕ
  createdAtMillis : ℕ
  bytes : ℕ

/-- The files of every session, and the memory of the process that runs. -/
structure CheckpointStore (σ κ : Type) where
  files : σ → OrderedMap (StoredCheckpoint κ)
  entries : σ → OrderedMap (StoredCheckpoint κ)
  nextSeq : σ → Option ℕ
  history : σ → List (StoredCheckpoint κ)
  serial : ℕ

variable {σ κ : Type} [DecidableEq σ]

/-- A checkpoint is kept as long as it is not older than the time to live. -/
def StoreConfig.isLive (config : StoreConfig) (now : ℕ) (stored : StoredCheckpoint κ) : Bool :=
  now - stored.createdAtMillis ≤ config.ttlMillis

namespace CheckpointStore

def empty : CheckpointStore σ κ := ⟨fun _ ↦ ∅, fun _ ↦ ∅, fun _ ↦ none, fun _ ↦ [], 0⟩

/-- A new process on the same directory. -/
def restart (self : CheckpointStore σ κ) : CheckpointStore σ κ :=
  { self with entries := fun _ ↦ ∅, nextSeq := fun _ ↦ none }

/-- The sequence numbers over the cap: those of the oldest entries. -/
def overflow (config : StoreConfig) (perSession : OrderedMap (StoredCheckpoint κ)) : List ℕ :=
  perSession.keys.take (perSession.size - config.maxPerSession)

/-- `prune_locked`: drops the entries of the session over the cap, and their files. -/
def pruneLocked (self : CheckpointStore σ κ) (config : StoreConfig) (session : σ) :
    CheckpointStore σ κ :=
  let seqs := overflow config (self.entries session)
  { self with
    entries := Function.update self.entries session ((self.entries session).eraseAll seqs)
    files := Function.update self.files session ((self.files session).eraseAll seqs) }

def allocateSeq (self : CheckpointStore σ κ) (session : σ) : ℕ := (self.nextSeq session).getD 1

def save (self : CheckpointStore σ κ) (format : CheckpointFormat κ) (config : StoreConfig)
    (session : σ) (checkpoint : κ) :
    Except OrchestratorError (σ × ℕ) × CheckpointStore σ κ :=
  match format.persistenceSafeCopy checkpoint with
  | .error e => (.error e, self)
  | .ok checkpoint =>
    let payload := format.payload checkpoint
    if payload.length > config.maxBytes then
      (.error (.serialization ("checkpoint payload " ++ toString payload.length
        ++ " bytes exceeds the " ++ toString config.maxBytes ++ " byte cap")), self)
    else
      let seq := self.allocateSeq session
      let stored : StoredCheckpoint κ := ⟨seq, format.createdAtMillis checkpoint,
        format.digest payload, checkpoint, self.serial⟩
      let self : CheckpointStore σ κ :=
        { files := Function.update self.files session ((self.files session).insert seq stored)
          entries := Function.update self.entries session
            ((self.entries session).insert seq stored)
          nextSeq := Function.update self.nextSeq session (some (seq + 1))
          history := Function.update self.history session (self.history session ++ [stored])
          serial := self.serial + 1 }
      (.ok (session, seq), self.pruneLocked config session)

/-- `refresh`: the entries are read again from the files, and pruned. -/
def refresh (self : CheckpointStore σ κ) (config : StoreConfig) (now : ℕ) (session : σ) :
    CheckpointStore σ κ :=
  let self := { self with
    entries := Function.update self.entries session
      ((self.files session).retain fun file ↦ config.isLive now file.2) }
  self.pruneLocked config session

/-- `verify_and_take`, of a file that is read again. -/
def verifyAndTake (self : CheckpointStore σ κ) (format : CheckpointFormat κ) (name : σ → String)
    (session : σ) (seq : ℕ) (stored : StoredCheckpoint κ) : Except OrchestratorError κ :=
  match (self.files session).entries.find? fun file ↦ file.1 = seq with
  | none => .error (.serialization ("checkpoint file " ++ name session ++ "-" ++ toString seq
      ++ " disappeared before restore"))
  | some file => do
    if format.digest (format.payload file.2.checkpoint) ≠ stored.checksum then
      .error (.serialization ("checkpoint " ++ name session ++ "-" ++ toString seq
        ++ " checksum mismatch (corrupt or tampered)"))
    else
      format.validate file.2.checkpoint
      return file.2.checkpoint

def loadLatest (self : CheckpointStore σ κ) (format : CheckpointFormat κ) (config : StoreConfig)
    (name : σ → String) (now : ℕ) (session : σ) :
    Except OrchestratorError (Option ((σ × ℕ) × κ)) × CheckpointStore σ κ :=
  let self := self.refresh config now session
  match (self.entries session).last? with
  | none => (.ok none, self)
  | some (seq, stored) =>
    (do return some ((session, seq), ← self.verifyAndTake format name session seq stored), self)

def list (self : CheckpointStore σ κ) (format : CheckpointFormat κ) (config : StoreConfig) (now : ℕ)
    (session : σ) : List (CheckpointMeta σ) × CheckpointStore σ κ :=
  let self := self.refresh config now session
  ((self.entries session).entries.map fun (seq, stored) ↦
    ⟨(session, seq), stored.createdAtMillis, (format.payload stored.checkpoint).length⟩, self)

def deleteSession (self : CheckpointStore σ κ) (session : σ) : CheckpointStore σ κ :=
  { self with
    files := Function.update self.files session ∅
    entries := Function.update self.entries session ∅
    nextSeq := Function.update self.nextSeq session none
    history := Function.update self.history session [] }

/-- `prune_expired`: every session with an entry that expired loses its directory. -/
def pruneExpired (self : CheckpointStore σ κ) (config : StoreConfig) (now : ℕ) :
    CheckpointStore σ κ :=
  let retained := fun session ↦ (self.entries session).retain fun entry ↦ config.isLive now entry.2
  { self with
    entries := retained
    files := fun session ↦
      if (retained session).size ≠ (self.entries session).size then ∅ else self.files session }

end CheckpointStore

end EeEditor.Orchestrator
