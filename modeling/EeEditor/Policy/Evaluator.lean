import Mathlib.Data.Finset.Basic
import EeEditor.Policy.Rules

/-!
# The evaluator of the trust policy

The model of `ee-cli/src/policy/evaluator.rs`. The rule that applies among those of one effect is
the one with the least id, and nothing but its id reaches the decision and the trace.
-/

namespace EeEditor.Policy

inductive FallbackEffect where
  | deny
  | confirm
deriving DecidableEq

inductive TrustOutcome where
  | allow
  | deny
  | confirm
deriving DecidableEq

inductive DecisionReason where
  | builtInDeny
  | persistentDeny
  | sessionDeny
  | mandatoryConfirm
  | builtInAllow
  | sessionAllow
  | persistentAllow
  | unknownOperation
  | workspaceDisabled
  | toolDefaultDeny
  | toolDefaultConfirm
  | categoryDefaultDeny
  | categoryDefaultConfirm
  | globalDefaultDeny
  | globalDefaultConfirm
  | noMatchingRule
deriving DecidableEq

structure TrustDecision where
  outcome : TrustOutcome
  reason : DecisionReason
  ruleId : Option String
deriving DecidableEq

def TrustDecision.allow (reason : DecisionReason) (ruleId : Option String) : TrustDecision :=
  ⟨.allow, reason, ruleId⟩

def TrustDecision.deny (reason : DecisionReason) (ruleId : Option String) : TrustDecision :=
  ⟨.deny, reason, ruleId⟩

def TrustDecision.confirm (reason : DecisionReason) (ruleId : Option String) : TrustDecision :=
  ⟨.confirm, reason, ruleId⟩

/-- The decisions of the session, by the session and the fingerprint of the operation. -/
structure SessionPolicy where
  allowed : Finset (String × String)
  denied : Finset (String × String)

def SessionPolicy.isDenied (session : SessionPolicy) (sessionId fingerprint : String) : Bool :=
  (sessionId, fingerprint) ∈ session.denied

def SessionPolicy.isAllowed (session : SessionPolicy) (sessionId fingerprint : String) : Bool :=
  (sessionId, fingerprint) ∈ session.allowed

/-- The successful uses by the id of the rule. -/
structure UsageSnapshot where
  used : AList fun _ : String ↦ ℕ

def UsageSnapshot.usedBy (usage : UsageSnapshot) (ruleId : String) : ℕ :=
  (usage.used.lookup ruleId).getD 0

structure SafeguardMatch where
  ruleId : String

structure PolicyInput where
  sessionId : String
  fingerprint : String
  operation : TrustOperation
  session : SessionPolicy
  rules : List TrustRule
  now : SystemTime
  usage : UsageSnapshot
  workspaceEnabled : Bool
  safeReadEnabled : Bool
  builtInDeny : Option SafeguardMatch
  toolDefault : Option FallbackEffect
  categoryDefault : Option FallbackEffect
  globalDefault : Option FallbackEffect

inductive TraceStatus where
  | noMatch
  | matched
  | notReached
deriving DecidableEq

structure PrecedenceTraceStep where
  layer : String
  status : TraceStatus
  ruleId : Option String
deriving DecidableEq

structure EvaluationResult where
  decision : TrustDecision
  trace : List PrecedenceTraceStep
deriving DecidableEq

def traceLayers : List String :=
  ["built_in_deny", "persistent_deny", "session_deny", "mandatory_confirm", "built_in_allow",
    "workspace_gate", "session_allow", "bounded_persistent_allow", "tool_default",
    "category_default", "global_default"]

/-! ## Rules that apply -/

/-- The workspace, the agent, the expiration and the budget. -/
def scopeMatches (rule : TrustRule) (input : PolicyInput) : Bool :=
  let scope := rule.scope
  if scope.workspace ≠ input.operation.workspace then false
  else if !scope.agent.all (input.operation.agent = some ·) then false
  else if scope.expiresAt.any (· ≤ input.now) then false
  else if rule.effect = .allow && scope.maxUses.any (input.usage.usedBy rule.id ≥ ·) then false
  else true

def matchingRule (input : PolicyInput) (effect : TrustEffect) : Option TrustRule :=
  (((input.rules.filter (·.effect = effect)).filter (scopeMatches · input)).filter
    (·.matches input.operation)).argmin TrustRule.id

/-- Operations that need the gate of the workspace before a rule can match. -/
def gateRequired (operation : TrustOperation) : Bool :=
  operation.category = .read ||
    match operation.identity with
    | .profile _ => true
    | _ => false

inductive FallbackSource where
  | tool
  | category
  | global

def fallbackDecision : FallbackEffect → FallbackSource → TrustDecision
  | .deny, .tool => .deny .toolDefaultDeny none
  | .confirm, .tool => .confirm .toolDefaultConfirm none
  | .deny, .category => .deny .categoryDefaultDeny none
  | .confirm, .category => .confirm .categoryDefaultConfirm none
  | .deny, .global => .deny .globalDefaultDeny none
  | .confirm, .global => .confirm .globalDefaultConfirm none

def unknownDecision (input : PolicyInput) : TrustDecision :=
  match input.toolDefault with
  | some effect => fallbackDecision effect .tool
  | none =>
    match input.categoryDefault with
    | some effect => fallbackDecision effect .category
    | none =>
      if input.globalDefault = some .deny then fallbackDecision .deny .global
      else .confirm .unknownOperation none

/-! ## Layers -/

/-- A decision at a layer, after the layers that did not match. -/
def finish (passed : List String) (layer : String) (ruleId : Option String)
    (decision : TrustDecision) : EvaluationResult :=
  let trace := passed.map (⟨·, .noMatch, none⟩) ++ [⟨layer, .matched, ruleId⟩]
  ⟨decision, trace ++ (traceLayers.drop trace.length).map (⟨·, .notReached, none⟩)⟩

/-- The fallbacks of an operation that has a category and an identity. -/
def evaluateDefaults (input : PolicyInput) : EvaluationResult :=
  let passed := ["built_in_deny", "persistent_deny", "session_deny", "mandatory_confirm",
    "built_in_allow", "workspace_gate", "session_allow", "bounded_persistent_allow"]
  match input.toolDefault with
  | some effect => finish passed "tool_default" none (fallbackDecision effect .tool)
  | none =>
    let passed := passed ++ ["tool_default"]
    match input.categoryDefault with
    | some effect => finish passed "category_default" none (fallbackDecision effect .category)
    | none =>
      let passed := passed ++ ["category_default"]
      match input.globalDefault with
      | some effect => finish passed "global_default" none (fallbackDecision effect .global)
      | none => finish passed "global_default" none (.confirm .noMatchingRule none)

/-- The fallbacks of an unknown operation. -/
def evaluateUnknown (input : PolicyInput) : EvaluationResult :=
  let passed := ["built_in_deny", "persistent_deny", "session_deny", "mandatory_confirm",
    "built_in_allow", "workspace_gate", "session_allow", "bounded_persistent_allow"]
  match input.toolDefault with
  | some effect => finish passed "tool_default" none (fallbackDecision effect .tool)
  | none =>
    let passed := passed ++ ["tool_default"]
    match input.categoryDefault with
    | some effect => finish passed "category_default" none (fallbackDecision effect .category)
    | none => finish (passed ++ ["category_default"]) "global_default" none (unknownDecision input)

/-- The built-in read-only allowlist covers the operation. -/
def safeReadApplies (input : PolicyInput) : Bool :=
  input.safeReadEnabled &&
    match input.operation.identity with
    | .profile profile => isSafeReadProfile profile
    | _ => false

/-- The layers after those that deny, for an operation that is not unknown. -/
def evaluateGrants (input : PolicyInput) (matching : TrustEffect → Option String) :
    EvaluationResult :=
  let passed := ["built_in_deny", "persistent_deny", "session_deny"]
  match matching .confirm with
  | some id => finish passed "mandatory_confirm" (some id) (.confirm .mandatoryConfirm (some id))
  | none =>
    let passed := passed ++ ["mandatory_confirm"]
    if safeReadApplies input then
      finish passed "built_in_allow" none (.allow .builtInAllow none)
    else
      let passed := passed ++ ["built_in_allow"]
      if gateRequired input.operation && !input.workspaceEnabled then
        finish passed "workspace_gate" none (.confirm .workspaceDisabled none)
      else
        let passed := passed ++ ["workspace_gate"]
        if input.session.isAllowed input.sessionId input.fingerprint then
          finish passed "session_allow" none (.allow .sessionAllow none)
        else
          let passed := passed ++ ["session_allow"]
          match matching .allow with
          | some id =>
            finish passed "bounded_persistent_allow" (some id) (.allow .persistentAllow (some id))
          | none => evaluateDefaults input

/-- The layers, given the id of the rule that applies for each effect. -/
def evaluateLayers (input : PolicyInput) (matching : TrustEffect → Option String) :
    EvaluationResult :=
  match input.builtInDeny with
  | some safeguard => finish [] "built_in_deny" (some safeguard.ruleId)
      (.deny .builtInDeny (some safeguard.ruleId))
  | none =>
    match matching .deny with
    | some id =>
      finish ["built_in_deny"] "persistent_deny" (some id) (.deny .persistentDeny (some id))
    | none =>
      if input.session.isDenied input.sessionId input.fingerprint then
        finish ["built_in_deny", "persistent_deny"] "session_deny" none (.deny .sessionDeny none)
      else if input.operation.isUnknown then evaluateUnknown input
      else evaluateGrants input matching

/-- The id of the rule that applies for an effect. -/
def matchingId (input : PolicyInput) (effect : TrustEffect) : Option String :=
  (matchingRule input effect).map TrustRule.id

def evaluateWithTrace (input : PolicyInput) : EvaluationResult :=
  evaluateLayers input (matchingId input)

def evaluate (input : PolicyInput) : TrustDecision := (evaluateWithTrace input).decision

end EeEditor.Policy
