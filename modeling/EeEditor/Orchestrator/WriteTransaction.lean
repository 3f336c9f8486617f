import Mathlib.Data.Finset.Sort
import EeEditor.Orchestrator.Text

/-!
# Write transactions

The model of `ee-agent-orchestrator/src/write_transaction.rs`: the record of one sequence of
mutations and the operations that a host reports. An operation that fails may still change the
record, so each returns its result and the record that it leaves.
-/

namespace EeEditor.Orchestrator

inductive WriteTransactionState where
  | awaitingRead
  | awaitingPreview
  | awaitingApproval
  | awaitingApply
  | awaitingDiagnostics
  | awaitingFinalDiff
  | awaitingValidation
  | verified
  | blocked
  | unverified
  | rolledBack
deriving DecidableEq

def WriteTransactionState.asStr : WriteTransactionState → String
  | awaitingRead => "awaiting_read"
  | awaitingPreview => "awaiting_preview"
  | awaitingApproval => "awaiting_approval"
  | awaitingApply => "awaiting_apply"
  | awaitingDiagnostics => "awaiting_diagnostics"
  | awaitingFinalDiff => "awaiting_final_diff"
  | awaitingValidation => "awaiting_validation"
  | verified => "verified"
  | blocked => "blocked"
  | unverified => "unverified"
  | rolledBack => "rolled_back"

inductive BufferOwnership where
  | clean
  | agent
  | user
  | unknown
deriving DecidableEq

def BufferOwnership.blocksMutation : BufferOwnership → Bool
  | user | unknown => true
  | clean | agent => false

structure SourceRevision where
  path : String
  revision : String
  dirty : Bool
  ownership : BufferOwnership
deriving DecidableEq

structure WritePreview where
  path : String
  expectedRevision : String
  summary : String
deriving DecidableEq

structure AppliedWrite where
  path : String
  expectedRevision : String
  postWriteRevision : Option String
  agentOwned : Bool
  applied : Bool
  failureReason : Option String
deriving DecidableEq

inductive WriteApproval where
  | approved (approvalId : String)
  | denied (reason : String)
deriving DecidableEq

structure TransactionDiagnostics where
  evidenceId : String
  workspaceRevision : String
  errorsBefore : ℕ
  errorsAfter : ℕ
  warningsBefore : ℕ
  warningsAfter : ℕ
deriving DecidableEq

def TransactionDiagnostics.regressed (self : TransactionDiagnostics) : Bool :=
  self.errorsAfter > self.errorsBefore || self.warningsAfter > self.warningsBefore

structure TransactionFinalDiff where
  evidenceId : String
  workspaceRevision : String
  changedPaths : List String
  passed : Bool
  detail : Option String
deriving DecidableEq

inductive ValidationOutcome where
  | passed
  | failed
  | skipped
deriving DecidableEq

/-- The fields of a validation that a transaction reads. -/
structure ValidationRecord where
  outcome : ValidationOutcome
  revision : Option String
  selected : Bool
  denied : Bool
deriving DecidableEq

structure TransactionValidation where
  transactionId : String
  record : ValidationRecord
deriving DecidableEq

structure RollbackSafetyCheck where
  approvalId : String
  noLaterUserEdits : Bool
  workspaceRevision : String
deriving DecidableEq

structure WriteTransactionError where
  code : String
  message : String
deriving DecidableEq

structure WriteTransaction where
  transactionId : String
  state : WriteTransactionState
  expectedSources : Std.TreeMap String SourceRevision
  changedPaths : List String
  approval : Option WriteApproval
  applies : List AppliedWrite
  postWriteWorkspaceRevision : Option String
  diagnostics : Option TransactionDiagnostics
  finalDiff : Option TransactionFinalDiff
  validation : Option TransactionValidation
  terminalReason : Option String
  rollbackSafety : Option RollbackSafetyCheck

/-- The result of an operation and the record that it leaves. -/
abbrev Recorded := Except WriteTransactionError Unit × WriteTransaction

def validateSource (source : SourceRevision) : Except WriteTransactionError Unit :=
  if !(PathBuf.mk source.path).isAbsolute then
    .error ⟨"invalid_path", "transaction paths must be absolute"⟩
  else if isBlank source.revision then
    .error ⟨"ambiguous_revision", "source revision must not be empty"⟩
  else if !source.dirty && source.ownership ≠ .clean then
    .error ⟨"ambiguous_buffer_ownership", "clean source buffers must use clean ownership"⟩
  else .ok ()

/-- The sources by their paths, with the message for a path that comes twice. -/
def collectSources (message : String) :
    List SourceRevision → Std.TreeMap String SourceRevision →
      Except WriteTransactionError (Std.TreeMap String SourceRevision)
  | [], map => .ok map
  | source :: sources, map => do
    validateSource source
    if map.contains source.path then .error ⟨"ambiguous_revision", message⟩
    else collectSources message sources (map.insert source.path source)

def revisionMap (revisions : List SourceRevision) :
    Except WriteTransactionError (Std.TreeMap String SourceRevision) :=
  collectSources "each observed path must have exactly one revision" revisions ∅

/-- `paths` sorted, each once. -/
def deduplicatePaths (paths : List String) : List String := paths.toFinset.sort (· ≤ ·)

namespace WriteTransaction

def begin (transactionId : String) (sources : List SourceRevision) :
    Except WriteTransactionError WriteTransaction := do
  if isBlank transactionId then
    .error ⟨"invalid_transaction", "transaction id must not be empty"⟩
  else
    let expectedSources ← collectSources
      "each changed path must have exactly one expected source revision" sources ∅
    if expectedSources.isEmpty then
      .error ⟨"invalid_transaction", "transaction requires at least one changed path"⟩
    else
      .ok ⟨transactionId, .awaitingRead, expectedSources, [], none, [], none, none, none,
        none, none,
        none⟩

def block (self : WriteTransaction) (code message : String) : Recorded :=
  (.error ⟨code, message⟩, { self with state := .blocked, terminalReason := some message })

/-- The error of an operation that comes out of order. -/
def outOfOrder (self : WriteTransaction) (expected : WriteTransactionState) : Recorded :=
  (.error ⟨"invalid_transaction_sequence",
    "expected " ++ expected.asStr ++ ", found " ++ self.state.asStr⟩, self)

/-- The revision is that of the workspace after the writes. -/
def isPostWriteRevision (self : WriteTransaction) (revision : String) : Bool :=
  self.postWriteWorkspaceRevision = some revision

/-! ## Before the writes -/

/-- The first source that was read at another revision or holds the work of someone else. -/
def staleRead (observed : Std.TreeMap String SourceRevision) :
    List (String × SourceRevision) → Option (String × String)
  | [] => none
  | (path, expected) :: sources =>
    -- Every planned path is among those that were observed.
    let actual := observed.getD path expected
    if expected.revision ≠ actual.revision then
      some ("stale_revision",
        path ++ " changed after transaction began; reread and re-preview before apply")
    else if actual.dirty && actual.ownership.blocksMutation then
      some ("dirty_user_buffer", path
        ++ " has dirty user or unknown content; preserve it and request explicit handoff")
    else staleRead observed sources

def recordReadRevisions (self : WriteTransaction) (observed : List SourceRevision) : Recorded :=
  if self.state ≠ .awaitingRead then self.outOfOrder .awaitingRead
  else
    match revisionMap observed with
    | .error e => (.error e, self)
    | .ok observed =>
      if observed.size ≠ self.expectedSources.size || observed.keys ≠ self.expectedSources.keys then
        self.block "ambiguous_revision" "read revisions do not cover exactly planned changed paths"
      else
        match staleRead observed self.expectedSources.toList with
        | some (code, message) => self.block code message
        | none => (.ok (), { self with state := .awaitingPreview })

/-- The paths of the previews, or the error of the first that is wrong. -/
def checkPreviews (expectedSources : Std.TreeMap String SourceRevision) :
    List WritePreview → List String → Except (String × String) (List String)
  | [], paths => .ok paths
  | preview :: previews, paths =>
    match expectedSources[preview.path]? with
    | none => .error ("unexpected_path", "preview contains a path outside transaction scope")
    | some source =>
      if paths.contains preview.path then
        .error ("ambiguous_preview", "preview contains the same path more than once")
      else if preview.expectedRevision ≠ source.revision then
        .error ("stale_revision",
          "preview for " ++ preview.path ++ " does not match fresh source revision")
      else if isBlank preview.summary then
        .error ("invalid_preview", "preview summary must not be empty")
      else checkPreviews expectedSources previews (preview.path :: paths)

def recordPreview (self : WriteTransaction) (previews : List WritePreview) : Recorded :=
  if self.state ≠ .awaitingPreview then self.outOfOrder .awaitingPreview
  else
    match checkPreviews self.expectedSources previews [] with
    | .error (code, message) => self.block code message
    | .ok paths =>
      if paths.length ≠ self.expectedSources.size then
        self.block "incomplete_preview" "preview must cover every planned changed path"
      else (.ok (), { self with state := .awaitingApproval })

def recordApproval (self : WriteTransaction) (approval : WriteApproval) : Recorded :=
  if self.state ≠ .awaitingApproval then self.outOfOrder .awaitingApproval
  else
    let self := { self with approval := some approval }
    match approval with
    | .approved approvalId =>
      if !isBlank approvalId then (.ok (), { self with state := .awaitingApply })
      else self.block "invalid_approval" "approval id must not be empty"
    | .denied reason => self.block "approval_denied"
        ("mutation denied: " ++ reason ++ "; no changes were applied")

/-! ## The writes -/

/-- What a list of outcomes comes to. -/
inductive AppliesCheck where
  | rejected (code message : String)
  | stopped (applied : List AppliedWrite)
  | passed (seen : List String) (applied : List AppliedWrite)

@[grind =] def checkApplies (expectedSources : Std.TreeMap String SourceRevision) :
    List AppliedWrite → List String → List AppliedWrite → AppliesCheck
  | [], seen, applied => .passed seen applied
  | outcome :: outcomes, seen, applied =>
    match expectedSources[outcome.path]? with
    | none =>
      .rejected "unexpected_path" "apply result contains a path outside transaction scope"
    | some source =>
      if seen.contains outcome.path then
        .rejected "ambiguous_apply" "apply result contains the same path more than once"
      else if outcome.expectedRevision ≠ source.revision then
        .rejected "stale_revision"
          ("apply for " ++ outcome.path ++ " used a stale or conflicting source revision")
      else if !outcome.applied || outcome.postWriteRevision.all (· = "") then
        .stopped (applied ++ [outcome])
      else checkApplies expectedSources outcomes (outcome.path :: seen) (applied ++ [outcome])

/-- The record with the outcomes of some of the paths. -/
def withApplies (self : WriteTransaction) (applied : List AppliedWrite) : WriteTransaction :=
  { self with applies := applied, changedPaths := (applied.filter (·.applied)).map (·.path) }

@[grind =] def recordApply (self : WriteTransaction) (outcomes : List AppliedWrite)
    (workspaceRevision : String) : Recorded :=
  if self.state ≠ .awaitingApply then self.outOfOrder .awaitingApply
  else if isBlank workspaceRevision then
    self.block "ambiguous_revision" "post-write workspace revision must not be empty"
  else
    match checkApplies self.expectedSources outcomes [] [] with
    | .rejected code message => self.block code message
    | .stopped applied => (self.withApplies applied).block "partial_apply"
        ("one or more paths did not apply; preserve current work, inspect outcomes, then recover "
          ++ "explicitly")
    | .passed seen applied =>
      if seen.length ≠ self.expectedSources.size then
        (self.withApplies applied).block "partial_apply"
          ("apply did not return every planned path; preserve current work and recover "
            ++ "explicitly")
      else
        (.ok (), { self with
          changedPaths := self.expectedSources.keys
          applies := applied
          postWriteWorkspaceRevision := some workspaceRevision
          state := .awaitingDiagnostics })

/-! ## After the writes -/

def recordDiagnostics (self : WriteTransaction) (diagnostics : TransactionDiagnostics) : Recorded :=
  if self.state ≠ .awaitingDiagnostics then self.outOfOrder .awaitingDiagnostics
  else if !self.isPostWriteRevision diagnostics.workspaceRevision then
    self.block "stale_revision"
      "diagnostics do not match post-write workspace revision; refresh diagnostics"
  else if isBlank diagnostics.evidenceId then
    self.block "invalid_diagnostics" "diagnostics evidence id must not be empty"
  else
    let self := { self with diagnostics := some diagnostics }
    if diagnostics.regressed then
      self.block "diagnostic_regression"
        "post-write diagnostics regressed; leave work blocked and investigate before repair"
    else (.ok (), { self with state := .awaitingFinalDiff })

def recordFinalDiff (self : WriteTransaction) (diff : TransactionFinalDiff) : Recorded :=
  if self.state ≠ .awaitingFinalDiff then self.outOfOrder .awaitingFinalDiff
  else if !self.isPostWriteRevision diff.workspaceRevision then
    self.block "stale_revision"
      "final diff does not match post-write workspace revision; refresh final diff"
  else if isBlank diff.evidenceId then
    self.block "invalid_final_diff" "final diff evidence id must not be empty"
  else if deduplicatePaths diff.changedPaths ≠ self.changedPaths then
    self.block "stale_final_diff"
      "final diff paths differ from applied transaction paths; refresh final diff"
  else
    let self := { self with finalDiff := some diff }
    if !diff.passed then
      self.block "final_diff_failed"
        (diff.detail.getD "final diff review reported a safety issue")
    else (.ok (), { self with state := .awaitingValidation })

def recordValidation (self : WriteTransaction) (validation : TransactionValidation) : Recorded :=
  if self.state ≠ .awaitingValidation then self.outOfOrder .awaitingValidation
  else if validation.transactionId ≠ self.transactionId then
    self.block "wrong_transaction" "validation evidence belongs to a different transaction"
  else if !self.isPostWriteRevision (validation.record.revision.getD "") then
    self.block "stale_revision"
      "validation does not match post-write workspace revision; rerun validation"
  else if !validation.record.selected then
    self.block "unselected_validation" "validation must be explicitly selected for completion"
  else if validation.record.denied then
    self.block "validation_denied" "validation was denied; obtain approval then rerun it"
  else if validation.record.outcome = .skipped then
    (.ok (), { self with
      validation := some validation
      state := .unverified
      terminalReason := some "selected validation was skipped; run it against current revision" })
  else if validation.record.outcome ≠ .passed then
    self.block "validation_failed" "selected validation failed; resolve it then rerun validation"
  else
    (.ok (),
      { self with validation := some validation, state := .verified, terminalReason := none })

/-! ## Interruptions and rollback -/

def interrupt (self : WriteTransaction) (reason : String) : WriteTransaction :=
  if self.state = .verified || self.state = .rolledBack then self
  else { self with state := .unverified, terminalReason := some reason }

def prepareRollback (self : WriteTransaction) (safety : RollbackSafetyCheck) : Recorded :=
  if !(self.state = .blocked || self.state = .unverified) then
    (.error ⟨"invalid_rollback_state",
      "rollback is only available for blocked or unverified transactions"⟩, self)
  else if !self.isPostWriteRevision safety.workspaceRevision then
    (.error ⟨"stale_revision", "evidence revision does not match post-write workspace revision"⟩,
      self)
  else if isBlank safety.approvalId || !safety.noLaterUserEdits then
    (.error ⟨"rollback_safety_check_failed",
      "rollback requires explicit approval and proof no later user edits exist"⟩, self)
  else if self.applies.isEmpty || self.applies.any
    (fun item ↦ !item.applied || !item.agentOwned) then
    (.error ⟨"rollback_not_agent_owned",
      "rollback is allowed only for successfully applied agent-owned changes"⟩, self)
  else (.ok (), { self with rollbackSafety := some safety })

def recordRollback (self : WriteTransaction) (currentWorkspaceRevision : String) : Recorded :=
  match self.rollbackSafety with
  | none => (.error ⟨"rollback_safety_check_missing",
      "record rollback safety checks before applying rollback"⟩, self)
  | some safety =>
    if safety.workspaceRevision ≠ currentWorkspaceRevision then
      (.error ⟨"stale_revision",
        "workspace changed after rollback safety check; reread before rollback"⟩, self)
    else
      (.ok (), { self with
        state := .rolledBack
        terminalReason := some "agent-owned transaction changes rolled back" })

end WriteTransaction

end EeEditor.Orchestrator
