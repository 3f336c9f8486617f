import EeEditor.Orchestrator.MemoryCompaction
import EeEditor.Orchestrator.ParallelTools
import EeEditor.Orchestrator.TurnSlices

/-!
# The sequential tool path

The calls that the tool loop of `ee-agent-orchestrator/src/loop_engine.rs` makes one after the
other, with the detector of `stuck.rs` that may stop it. A call is executed, or the result of a
completed call is reused. What a milestone checkpoint makes of the state is left out: it does not
change it.

JSON values are in `J` as before, with what the loop uses of them.
-/

namespace EeEditor.Orchestrator

variable {J φ : Type}

/-! ## Results and messages -/

inductive ToolErrorKind where
  | invalidArguments
  | backend
  | timeout
  | cancelled
  | permissionDenied
deriving DecidableEq

def ToolErrorKind.asStr : ToolErrorKind → String
  | invalidArguments => "invalid_arguments"
  | backend => "backend"
  | timeout => "timeout"
  | cancelled => "cancelled"
  | permissionDenied => "permission_denied"

/-- What a result has besides `success`. -/
structure ToolContent (J : Type) where
  textOutput : String
  structuredOutput : Option J
  errorKind : Option ToolErrorKind
deriving DecidableEq

def ToolResult.successStructured (textOutput : String) (structuredOutput : J) :
    ToolResult (ToolContent J) :=
  ⟨true, textOutput, some structuredOutput, none⟩

def ToolResult.summaryText (self : ToolResult (ToolContent J)) : String :=
  match self.success, self.content.errorKind with
  | true, _ => self.content.textOutput
  | false, some kind => kind.asStr ++ ": " ++ self.content.textOutput
  | false, none => "error: " ++ self.content.textOutput

inductive ModelRole where
  | system
  | user
  | assistant
  | tool
  | subagent
deriving DecidableEq

def trustForRole : ModelRole → TrustLevel
  | .system => .systemPolicy
  | .user => .userPrompt
  | .assistant => .modelOutput
  | .tool => .toolOutputUntrusted
  | .subagent => .subagentSummaryUntrusted

inductive ModelContent (J : Type) where
  | text (text : String)
  | toolResult (toolCallId : String) (result : ToolResult (ToolContent J))
  | fileReference (path : String)
  | terminalReference (terminalId : String)

structure ModelMessage (J : Type) where
  role : ModelRole
  content : List (ModelContent J)
  reasoningSummary : Option String
  metadata : List (String × String)
  trust : TrustLevel

def ModelMessage.new (role : ModelRole) : ModelMessage J := ⟨role, [], none, [], trustForRole role⟩

def ModelMessage.toolResult (toolCallId : String) (result : ToolResult (ToolContent J)) :
    ModelMessage J :=
  { (ModelMessage.new .tool : ModelMessage J) with content := [.toolResult toolCallId result] }

/-! ## The detector -/

structure StuckConfig where
  maxRepeatedToolCalls : ℕ
  maxFailedEditAttempts : ℕ

inductive StuckReason where
  | repeatedToolCall (signature : String) (count : ℕ)
  | repeatedFailedEdit (toolName : String) (count : ℕ)

/-- The part of the detector that `observe_tool_call` reads. -/
structure StuckDetector where
  lastToolFingerprint : Option String
  repeatedToolCount : ℕ
  failedEditCount : ℕ

/-- What the loop uses of `serde_json`. -/
structure SerdeJson (J : Type) where
  fromStr : String → Option J
  toString : J → String
  get : J → String → Option J
  asStr : J → Option String
  bool : Bool → J
  string : String → J
  object : List (String × J) → J

def SerdeJson.toolFingerprint (json : SerdeJson J) (intent : ToolIntent J) : String :=
  intent.name ++ " " ++ json.toString intent.arguments

def StuckDetector.observeToolCall (self : StuckDetector) (config : StuckConfig) (json : SerdeJson J)
    (intent : ToolIntent J) (cls : Option SideEffectClass) (success : Bool) :
    Option StuckReason × StuckDetector :=
  let fingerprint := json.toolFingerprint intent
  let repeatedToolCount :=
    if self.lastToolFingerprint = some fingerprint then self.repeatedToolCount + 1 else 1
  let failedEditCount :=
    if cls = some .write then if success then 0 else self.failedEditCount + 1
    else self.failedEditCount
  let reason :=
    if repeatedToolCount ≥ config.maxRepeatedToolCalls then
      some (.repeatedToolCall fingerprint repeatedToolCount)
    else if cls = some .write && !success && failedEditCount ≥ config.maxFailedEditAttempts then
      some (.repeatedFailedEdit intent.name failedEditCount)
    else none
  (reason, ⟨some fingerprint, repeatedToolCount, failedEditCount⟩)

/-! ## The loop -/

/-- The source that a fetched page comes from, as the loop tells it. -/
def webSource (json : SerdeJson J) (intent : ToolIntent J) (result : ToolResult (ToolContent J)) :
    Option (J × String × String) := do
  if intent.name ≠ "ee_fetch_url" || !result.success then none
  else
    let value ← result.content.structuredOutput.or (json.fromStr result.content.textOutput)
    let url ← (json.get value "url").bind json.asStr
    let sha256 ← (json.get value "sha256").bind json.asStr
    if (json.get value "trust").bind json.asStr ≠ some "untrusted_external_content" then none
    else some (value, url, sha256)

/-- The result that the model sees, and the sources that were observed. -/
def compactRepeatedWebFetch (tools : Tools J φ) (json : SerdeJson J) (intent : ToolIntent J)
    (result : ToolResult (ToolContent J)) (observedSources : List String) :
    ToolResult (ToolContent J) × List String :=
  match webSource json intent result with
  | none => (result, observedSources)
  | some (value, url, sha256) =>
    let sourceId := url ++ "#" ++ sha256
    if sourceId ∈ observedSources then
      let source := json.object [("url", json.string url), ("sha256", json.string sha256),
        ("retrieved_at", (json.get value "retrieved_at").getD tools.null),
        ("cached", (json.get value "cached").getD (json.bool false)),
        ("truncated", (json.get value "truncated").getD (json.bool false)),
        ("trust", json.string "untrusted_external_content"), ("content_reused", json.bool true)]
      (.successStructured ("untrusted external source reused: " ++ sourceId
        ++ "; refer to earlier fetched evidence") source, observedSources)
    else (result, sourceId :: observedSources)

inductive LoopEvent where
  | toolStarted (toolCallId toolName : String)
  | toolFinished (toolCallId toolName : String) (success : Bool)
  | toolResultReused (toolCallId toolName : String)

structure ToolExecutionLogEntry (J : Type) where
  toolCallId : String
  toolName : String
  sideEffectClass : Option SideEffectClass
  arguments : J
  success : Bool
  summary : String

/-- A turn is not resumed from a state with an operation in flight. -/
structure LoopEngine (J φ : Type) where
  tools : Tools J φ
  json : SerdeJson J
  stuck : StuckConfig
  resumeState : Option (ResumeState J φ)
  inFlight_eq : ∀ resume, resumeState = some resume → resume.inFlight = none

structure LoopState (J φ : Type) where
  transcript : List (ModelMessage J)
  track : ResumeState J φ
  detector : StuckDetector
  observedWebSources : List String
  executionLog : Option (List (ToolExecutionLogEntry J))
  events : List LoopEvent

inductive LoopStop where
  | failed (error : OrchestratorError)
  | stuck (reason : StuckReason)

abbrev Outcome (J : Type) := Except OrchestratorError (ToolResult (ToolContent J))

namespace LoopState

def record (self : LoopState J φ) (event : LoopEvent) : LoopState J φ :=
  { self with events := self.events ++ [event] }

def pushToolResult (self : LoopState J φ) (toolCallId : String)
    (result : ToolResult (ToolContent J)) : LoopState J φ :=
  { self with transcript := self.transcript ++ [.toolResult toolCallId result] }

def setInFlight (self : LoopState J φ) (inFlight : Option (InFlightOperation φ)) : LoopState J φ :=
  { self with track := { self.track with inFlight } }

def log (self : LoopState J φ) (intent : ToolIntent J) (cls : Option SideEffectClass)
    (executed : Outcome J) : LoopState J φ :=
  let (success, summary) := match executed with
    | .ok result => (result.success, result.summaryText)
    | .error _ => (false, "")
  { self with
    executionLog := self.executionLog.map
      (· ++ [⟨intent.toolCallId, intent.name, cls, intent.arguments, success, summary⟩]) }

def pushCompleted (self : LoopState J φ) (tools : Tools J φ) (intent : ToolIntent J)
    (cls : Option SideEffectClass) (result : ToolResult (ToolContent J)) : LoopState J φ :=
  { self with
    track := { self.track with
      completedTools := self.track.completedTools ++ [⟨intent.toolCallId, intent.name,
        intent.arguments, tools.fingerprint intent.name intent.arguments, result.success,
        result.summaryText, cls.getD .read⟩] } }

/-- The completed call that is reused, which only exists in a resumed run. -/
def findCompleted [DecidableEq φ] (self : LoopState J φ) (engine : LoopEngine J φ)
    (intent : ToolIntent J) (cls : Option SideEffectClass) : Option (CompletedToolCall J φ) :=
  if engine.resumeState.isSome && cls.any Turn.replays then
    self.track.completedTools.find? fun completed ↦
      completed.toolName = intent.name && completed.argumentsFingerprint =
        engine.tools.fingerprint intent.name intent.arguments
  else none

def tryReuseCompleted [DecidableEq φ] (self : LoopState J φ) (engine : LoopEngine J φ)
    (intent : ToolIntent J) (cls : Option SideEffectClass) :
    Option (ToolResult (ToolContent J)) × LoopState J φ :=
  match self.findCompleted engine intent cls with
  | none => (none, self)
  | some completed =>
    let result : ToolResult (ToolContent J) := ⟨completed.success,
      "previous side-effect result withheld from durable recovery state", none, none⟩
    (some result,
      (self.record (.toolResultReused intent.toolCallId intent.name)).pushToolResult
        intent.toolCallId result)

/-- The executor is not asked when a result is reused. -/
def execute [DecidableEq φ] (self : LoopState J φ) (engine : LoopEngine J φ) (intent : ToolIntent J)
    (cls : Option SideEffectClass) (outcome : Outcome J) : Bool × Outcome J × LoopState J φ :=
  match self.tryReuseCompleted engine intent cls with
  | (some result, self) => (true, .ok result, self)
  | (none, self) =>
    let self := self.setInFlight (some ⟨intent.toolCallId, intent.name,
      engine.tools.fingerprint intent.name intent.arguments⟩)
    (false, outcome, self.setInFlight none)

/-- What the loop does with a result. -/
def observe (self : LoopState J φ) (engine : LoopEngine J φ) (intent : ToolIntent J)
    (cls : Option SideEffectClass) (reused : Bool) (result : ToolResult (ToolContent J)) :
    Except LoopStop Unit × LoopState J φ :=
  let (result, observedWebSources) :=
    compactRepeatedWebFetch engine.tools engine.json intent result self.observedWebSources
  let self := { self with observedWebSources }
  let self := if reused then self else self.pushCompleted engine.tools intent cls result
  let (reason, detector) :=
    self.detector.observeToolCall engine.stuck engine.json intent cls result.success
  let self := { self with detector }
  match reason with
  | some reason => (.error (.stuck reason), self)
  | none => (.ok (), self.pushToolResult intent.toolCallId result)

/-- One pass of the loop over the intents, with what the executor answers if it is asked. -/
def call [DecidableEq φ] (self : LoopState J φ) (engine : LoopEngine J φ) (intent : ToolIntent J)
    (outcome : Outcome J) : Except LoopStop Unit × LoopState J φ :=
  let self := self.record (.toolStarted intent.toolCallId intent.name)
  let cls := engine.tools.registered intent.name
  let (reused, executed, self) := self.execute engine intent cls outcome
  let success := match executed with
    | .ok result => result.success
    | .error _ => false
  let self := self.record (.toolFinished intent.toolCallId intent.name success)
  let self := if reused then self else self.log intent cls executed
  match executed with
  | .error error => (.error (.failed error), self)
  | .ok result => self.observe engine intent cls reused result

def callAll [DecidableEq φ] (self : LoopState J φ) (engine : LoopEngine J φ) :
    List (ToolIntent J × Outcome J) → Except LoopStop Unit × LoopState J φ
  | [] => (.ok (), self)
  | (intent, outcome) :: calls =>
    match self.call engine intent outcome with
    | (.ok (), self) => self.callAll engine calls
    | (.error stop, self) => (.error stop, self)

/-! ## Runs -/

/-- What happens to the state of a run: a round of the model, which may drop old messages and append
what the model said, and the calls that it asks for. -/
inductive RunEvent (J : Type) where
  | round (dropped : ℕ) (said : List (ModelMessage J))
  | batch (calls : List (ToolIntent J × Outcome J))

/-- A run goes on behind a batch that was not stopped. -/
def step [DecidableEq φ] (engine : LoopEngine J φ) (self : LoopState J φ) :
    RunEvent J → Option (LoopState J φ)
  | .round dropped said => some { self with transcript := self.transcript.drop dropped ++ said }
  | .batch calls =>
    match self.callAll engine calls with
    | (.ok (), self) => some self
    | (.error _, _) => none

/-- A fresh or resumed run begins with the completed calls of the state that it resumes. -/
def start (engine : LoopEngine J φ) (transcript : List (ModelMessage J))
    (executionLog : Option (List (ToolExecutionLogEntry J))) : LoopState J φ :=
  ⟨transcript, engine.resumeState.getD ⟨[], none, 0⟩, ⟨none, 0, 0⟩, [], executionLog, []⟩

/-! ## Results and calls -/

variable {engine : LoopEngine J φ} {s s' : LoopState J φ} {intent : ToolIntent J}
  {calls : List (ToolIntent J × Outcome J)}

/-- What the fingerprints of two calls are compared with. -/
def identityOf (tools : Tools J φ) (intent : ToolIntent J) : String × φ :=
  (intent.name, tools.fingerprint intent.name intent.arguments)

def completedIdentity (completed : CompletedToolCall J φ) : String × φ :=
  (completed.toolName, completed.argumentsFingerprint)

/-- The call is reused in a run whose completed calls are `known`. -/
def reuses [DecidableEq φ] (engine : LoopEngine J φ) (known : List (String × φ))
    (intent : ToolIntent J) : Bool :=
  engine.resumeState.isSome && (engine.tools.registered intent.name).any Turn.replays &&
    identityOf engine.tools intent ∈ known

/-- The intents whose calls are executed. -/
def executed [DecidableEq φ] (engine : LoopEngine J φ) :
    List (String × φ) → List (ToolIntent J) → List (ToolIntent J)
  | _, [] => []
  | known, intent :: intents =>
    if reuses engine known intent then executed engine known intents
    else intent :: executed engine (known ++ [identityOf engine.tools intent]) intents

def known (s : LoopState J φ) : List (String × φ) := s.track.completedTools.map completedIdentity

/-- One result for each intent in the order of the intents, and one completed entry for each call
that is executed. -/
structure GainsResults [DecidableEq φ] (engine : LoopEngine J φ) (s s' : LoopState J φ)
    (intents : List (ToolIntent J)) : Prop where
  transcript : ∃ results : List (ToolResult (ToolContent J)), results.length = intents.length ∧
    s'.transcript = s.transcript ++
      List.zipWith (fun intent result ↦ .toolResult intent.toolCallId result) intents results
  completed : ∃ entries, s'.track.completedTools = s.track.completedTools ++ entries ∧
    entries.map (fun entry ↦ (entry.toolCallId, completedIdentity entry)) =
      (executed engine (known s) intents).map
        fun intent ↦ (intent.toolCallId, identityOf engine.tools intent)
  inFlight : s'.track.inFlight = none

/-- No intent asks for a call that has completed before in the run or the one that it resumes, or
that an earlier intent asks for. -/
def AsksAfresh [DecidableEq φ] (engine : LoopEngine J φ) (known : List (String × φ))
    (intents : List (ToolIntent J)) : Prop :=
  ∀ older intent newer, intents = older ++ intent :: newer →
    reuses engine (known ++ older.map (identityOf engine.tools)) intent = false

theorem asksAfresh_cons [DecidableEq φ] {known : List (String × φ)}
    {intents : List (ToolIntent J)} : AsksAfresh engine known (intent :: intents) ↔
      reuses engine known intent = false ∧
        AsksAfresh engine (known ++ [identityOf engine.tools intent]) intents := by
  rw [AsksAfresh, forall_split_cons (Q := fun older intent _ ↦
    reuses engine (known ++ older.map (identityOf engine.tools)) intent = false), AsksAfresh]
  simp only [List.map_nil, List.append_nil, List.map_cons, List.append_assoc,
    List.singleton_append]

/-- As many calls are executed as there are intents exactly when none is reused. -/
theorem length_executed [DecidableEq φ] (engine : LoopEngine J φ) (known : List (String × φ))
    (intents : List (ToolIntent J)) : (executed engine known intents).length ≤ intents.length ∧
      ((executed engine known intents).length = intents.length ↔
        AsksAfresh engine known intents) := by
  induction intents generalizing known with
  | nil => exact ⟨le_rfl, iff_of_true rfl (by simp [AsksAfresh])⟩
  | cons intent intents ih =>
    rw [asksAfresh_cons, executed]
    cases hreuses : reuses engine known intent with
    | true =>
      obtain ⟨hle, -⟩ := ih known
      rw [if_pos rfl, List.length_cons]
      refine ⟨by omega, iff_of_false (by omega) fun h ↦ Bool.noConfusion h.1⟩
    | false =>
      obtain ⟨hle, hiff⟩ := ih (known ++ [identityOf engine.tools intent])
      rw [if_neg Bool.false_ne_true, List.length_cons, List.length_cons, ← hiff]
      exact ⟨by omega, by rw [and_iff_right rfl]; omega⟩

/-! ## One call -/

theorem isSome_findCompleted [DecidableEq φ] (engine : LoopEngine J φ) (s : LoopState J φ)
    (intent : ToolIntent J) :
    (s.findCompleted engine intent (engine.tools.registered intent.name)).isSome =
      reuses engine (known s) intent := by
  rw [findCompleted, reuses]
  cases engine.resumeState.isSome && (engine.tools.registered intent.name).any Turn.replays with
  | false => rfl
  | true =>
    rw [if_pos rfl, Bool.true_and, List.isSome_find?, known, Bool.eq_iff_iff, List.any_eq_true,
      decide_eq_true_eq, List.mem_map]
    refine exists_congr fun completed ↦ and_congr_right fun _ ↦ ?_
    rw [Bool.and_eq_true, decide_eq_true_eq, decide_eq_true_eq, completedIdentity, identityOf,
      Prod.mk.injEq]

theorem observe_ok {cls : Option SideEffectClass} {reused : Bool}
    {result : ToolResult (ToolContent J)}
    (h : s.observe engine intent cls reused result = (.ok (), s')) :
    ∃ result', s'.transcript = s.transcript ++ [.toolResult intent.toolCallId result'] ∧
      s'.track = if reused then s.track
        else (s.pushCompleted engine.tools intent cls result').track := by
  rw [observe] at h
  split at h
  rename_i result' observed _
  refine ⟨result', ?_⟩
  cases reused with
  | true =>
    dsimp only at h
    rw [if_pos rfl] at h
    split at h
    · cases (Prod.mk.inj h).1
    · obtain rfl := (Prod.mk.inj h).2
      exact ⟨rfl, rfl⟩
  | false =>
    dsimp only at h
    rw [if_neg Bool.false_ne_true] at h
    split at h
    · cases (Prod.mk.inj h).1
    · obtain rfl := (Prod.mk.inj h).2
      exact ⟨rfl, rfl⟩

/-- A reused call leaves two results in the transcript and no entry in the track. -/
theorem call_reused [DecidableEq φ] {outcome : Outcome J}
    (hreuses : reuses engine (known s) intent = true)
    (h : s.call engine intent outcome = (.ok (), s')) :
    ∃ result result', s'.transcript = s.transcript ++
        [.toolResult intent.toolCallId result, .toolResult intent.toolCallId result'] ∧
      s'.track = s.track := by
  rw [← isSome_findCompleted] at hreuses
  obtain ⟨completed, hfind⟩ := Option.isSome_iff_exists.mp hreuses
  have hfind' : (s.record (.toolStarted intent.toolCallId intent.name)).findCompleted engine intent
      (engine.tools.registered intent.name) = some completed := hfind
  rw [call] at h
  dsimp only at h
  rw [execute, tryReuseCompleted, hfind'] at h
  dsimp only at h
  rw [if_pos rfl] at h
  obtain ⟨result', htranscript, htrack⟩ := observe_ok h
  let withheld : ToolResult (ToolContent J) := ⟨completed.success,
    "previous side-effect result withheld from durable recovery state", none, none⟩
  refine ⟨withheld, result', htranscript.trans ?_, htrack⟩
  exact List.append_assoc s.transcript [.toolResult intent.toolCallId withheld] _

/-- An executed call leaves one result in the transcript and one entry in the track. -/
theorem call_executed [DecidableEq φ] {outcome : Outcome J}
    (hreuses : reuses engine (known s) intent = false)
    (h : s.call engine intent outcome = (.ok (), s')) :
    ∃ result entry, s'.transcript = s.transcript ++ [.toolResult intent.toolCallId result] ∧
      s'.track.completedTools = s.track.completedTools ++ [entry] ∧
      (entry.toolCallId, completedIdentity entry) =
        (intent.toolCallId, identityOf engine.tools intent) ∧
      s'.track.inFlight = none := by
  rw [← isSome_findCompleted] at hreuses
  have hfind : (s.record (.toolStarted intent.toolCallId intent.name)).findCompleted engine intent
      (engine.tools.registered intent.name) = none := Option.not_isSome_iff_eq_none.mp (by
    rw [Bool.not_eq_true]
    exact hreuses)
  rw [call] at h
  dsimp only at h
  rw [execute, tryReuseCompleted, hfind] at h
  dsimp only at h
  rw [if_neg Bool.false_ne_true] at h
  split at h
  · cases (Prod.mk.inj h).1
  · obtain ⟨result', htranscript, htrack⟩ := observe_ok h
    rw [if_neg Bool.false_ne_true] at htrack
    exact ⟨result', _, htranscript, congrArg (·.completedTools) htrack, rfl,
      congrArg (·.inFlight) htrack⟩

/-! ## A batch -/

/-- By induction on the calls. -/
theorem callAll_ok [DecidableEq φ] (h : s.callAll engine calls = (.ok (), s')) :
    ∃ messages entries, s'.transcript = s.transcript ++ messages ∧
      s'.track.completedTools = s.track.completedTools ++ entries ∧
      entries.map (fun entry ↦ (entry.toolCallId, completedIdentity entry)) =
        (executed engine (known s) (calls.map (·.1))).map
          (fun intent ↦ (intent.toolCallId, identityOf engine.tools intent)) ∧
      messages.length + (executed engine (known s) (calls.map (·.1))).length = 2 * calls.length ∧
      (AsksAfresh engine (known s) (calls.map (·.1)) →
        ∃ results : List (ToolResult (ToolContent J)), results.length = calls.length ∧
          messages = List.zipWith (fun intent result ↦ .toolResult intent.toolCallId result)
            (calls.map (·.1)) results) ∧
      (s.track.inFlight = none → s'.track.inFlight = none) := by
  induction calls generalizing s with
  | nil =>
    obtain rfl := (Prod.mk.inj h).2
    exact ⟨[], [], by simp, by simp, rfl, rfl, fun _ ↦ ⟨[], rfl, rfl⟩, id⟩
  | cons first calls ih =>
    obtain ⟨intent, outcome⟩ := first
    rw [callAll] at h
    split at h
    · rename_i s₁ hcall
      obtain ⟨messages, entries, htranscript, hcompleted, hentries, hlength, hfresh,
        hflight⟩ := ih h
      rw [List.map_cons, executed, asksAfresh_cons]
      cases hreuses : reuses engine (known s) intent with
      | true =>
        obtain ⟨result, result', htranscript₁, htrack₁⟩ := call_reused hreuses hcall
        have hknown : known s₁ = known s := by rw [known, htrack₁, known]
        rw [hknown] at hentries hlength
        rw [htrack₁] at hcompleted hflight
        refine ⟨[.toolResult intent.toolCallId result, .toolResult intent.toolCallId result'] ++
          messages, entries, ?_, hcompleted, ?_, ?_, fun hall ↦ Bool.noConfusion hall.1, hflight⟩
        · rw [htranscript, htranscript₁, List.append_assoc]
        · rw [if_pos rfl, hentries]
        · rw [if_pos rfl, List.length_append, List.length_cons, List.length_cons, List.length_nil,
            List.length_cons]
          omega
      | false =>
        obtain ⟨result, entry, htranscript₁, hcompleted₁, hentry, hflight₁⟩ :=
          call_executed hreuses hcall
        have hknown : known s₁ = known s ++ [identityOf engine.tools intent] := by
          rw [known, hcompleted₁, List.map_append, known, List.map_singleton,
            (Prod.mk.inj hentry).2]
        rw [hknown] at hentries hlength hfresh
        refine ⟨.toolResult intent.toolCallId result :: messages, entry :: entries, ?_, ?_, ?_, ?_,
          fun hall ↦ ?_, fun _ ↦ hflight hflight₁⟩
        · rw [htranscript, htranscript₁, List.append_assoc, List.singleton_append]
        · rw [hcompleted, hcompleted₁, List.append_assoc, List.singleton_append]
        · rw [if_neg Bool.false_ne_true, List.map_cons, List.map_cons, hentry, hentries]
        · rw [if_neg Bool.false_ne_true, List.length_cons, List.length_cons, List.length_cons]
          dsimp only
          omega
        · obtain ⟨results, hresults, hmessages⟩ := hfresh hall.2
          exact ⟨result :: results, congrArg (· + 1) hresults, by
            rw [hmessages, List.zipWith_cons_cons]⟩
    · cases (Prod.mk.inj h).1

theorem gainsResults_iff [DecidableEq φ] (hinFlight : s.track.inFlight = none)
    (h : s.callAll engine calls = (.ok (), s')) :
    GainsResults engine s s' (calls.map (·.1)) ↔
      AsksAfresh engine (known s) (calls.map (·.1)) := by
  obtain ⟨messages, entries, htranscript, hcompleted, hentries, hlength, hfresh, hflight⟩ :=
    callAll_ok h
  constructor
  · intro hgains
    obtain ⟨results, hresults, hmessages⟩ := hgains.transcript
    have heq := List.append_cancel_left (htranscript.symm.trans hmessages)
    rw [← (length_executed engine (known s) (calls.map (·.1))).2, List.length_map]
    rw [List.length_map] at hresults
    rw [heq, List.length_zipWith, List.length_map, hresults, Nat.min_self] at hlength
    omega
  · intro hall
    obtain ⟨results, hresults, hmessages⟩ := hfresh hall
    exact
      { transcript := ⟨results, by rw [hresults, List.length_map], by rw [htranscript, hmessages]⟩
        completed := ⟨entries, hcompleted, hentries⟩
        inFlight := hflight hinFlight }

/-! ## The run -/

/-- Every batch of the run that is not stopped gains one result for each of its intents. -/
def PairsResults [DecidableEq φ] (engine : LoopEngine J φ) (s : LoopState J φ)
    (events : List (RunEvent J)) : Prop :=
  Throughout (step engine) s events fun s event ↦ ∀ calls s', event = .batch calls →
    s.callAll engine calls = (.ok (), s') → GainsResults engine s s' (calls.map (·.1))

/-- Every batch of the run that is not stopped asks for calls that are not reused. -/
def AlwaysAsksAfresh [DecidableEq φ] (engine : LoopEngine J φ) (s : LoopState J φ)
    (events : List (RunEvent J)) : Prop :=
  Throughout (step engine) s events fun s event ↦ ∀ calls s', event = .batch calls →
    s.callAll engine calls = (.ok (), s') → AsksAfresh engine (known s) (calls.map (·.1))

theorem inFlight_step [DecidableEq φ] {event : RunEvent J} (h : s.track.inFlight = none)
    (hstep : step engine s event = some s') : s'.track.inFlight = none := by
  cases event with
  | round dropped said =>
    obtain rfl := Option.some.inj hstep
    exact h
  | batch calls =>
    rw [step] at hstep
    split at hstep
    · rename_i s₁ hcalls
      obtain rfl := Option.some.inj hstep
      obtain ⟨-, -, -, -, -, -, -, hflight⟩ := callAll_ok hcalls
      exact hflight h
    · cases hstep

theorem inFlight_start (engine : LoopEngine J φ) (transcript : List (ModelMessage J))
    (executionLog : Option (List (ToolExecutionLogEntry J))) :
    (start engine transcript executionLog).track.inFlight = none := by
  rw [start]
  cases hresume : engine.resumeState with
  | none => rfl
  | some resume => exact engine.inFlight_eq resume hresume

/-- A run pairs calls and results exactly when none of its calls is reused. -/
theorem pairsResults_iff [DecidableEq φ] (engine : LoopEngine J φ)
    (transcript : List (ModelMessage J)) (executionLog : Option (List (ToolExecutionLogEntry J)))
    (events : List (RunEvent J)) :
    PairsResults engine (start engine transcript executionLog) events ↔
      AlwaysAsksAfresh engine (start engine transcript executionLog) events := by
  refine forall₅_congr fun pre event post t _ ↦ forall_congr' fun ht ↦ ?_
  have hall : Throughout (step engine) (start engine transcript executionLog) pre fun _ _ ↦ True :=
    throughout_of_forall fun _ _ _ ↦ trivial
  have hflight : t.track.inFlight = none := exec_invariant (I := fun s ↦ s.track.inFlight = none)
    (fun _ _ _ h _ hstep ↦ inFlight_step h hstep) (inFlight_start engine transcript executionLog)
    hall ht
  refine forall₂_congr fun calls s' ↦ forall₂_congr fun _ hcalls ↦ ?_
  exact gainsResults_iff hflight hcalls

/-- A run resumed behind the command `make`. -/
def resumedEngine : LoopEngine Unit String :=
  let completed : CompletedToolCall Unit String := ⟨"1", "make", (), "make", true, "", .execute⟩
  { tools := ⟨(), fun name _ ↦ name, fun _ ↦ some .execute⟩
    json := ⟨fun _ ↦ none, fun _ ↦ "null", fun _ _ ↦ none, fun _ ↦ none, fun _ ↦ (), fun _ ↦ (),
      fun _ ↦ ()⟩
    stuck := ⟨3, 3⟩
    resumeState := some ⟨[completed], none, 1⟩
    inFlight_eq := by
      rintro resume ⟨⟩
      rfl }

/-- The model asks for the command again and gets two results. -/
theorem resumedEngine_pushes_twice : ¬ ∀ (engine : LoopEngine Unit String)
    (transcript : List (ModelMessage Unit))
    (executionLog : Option (List (ToolExecutionLogEntry Unit)))
    (events : List (RunEvent Unit)),
    PairsResults engine (start engine transcript executionLog) events := by
  intro h
  let calls : List (ToolIntent Unit × Outcome Unit) :=
    [(⟨"2", "make", ()⟩, .ok ⟨true, "made", none, none⟩)]
  have hgains := h resumedEngine [] none [.batch calls] [] _ [] _ rfl rfl calls _ rfl rfl
  obtain ⟨results, hresults, htranscript⟩ := hgains.transcript
  have hlength := congrArg List.length htranscript
  rw [List.length_append, List.length_zipWith, hresults] at hlength
  exact absurd hlength (by decide +kernel)

end LoopState

end EeEditor.Orchestrator
