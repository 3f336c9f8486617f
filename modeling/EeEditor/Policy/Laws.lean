import EeEditor.Policy.Evaluator

/-!
# The laws of the trust policy

What the evaluator decides depends on the rules only through the ids of those that apply. The order
of the rules is not among them, a rule out of scope does not apply, and `evaluateLayers_allow_iff`
says when an operation is allowed.
-/

namespace EeEditor.Policy

variable {input : PolicyInput} {matching : TrustEffect → Option String}

/-! ## Traces -/

/-- One step for each layer in order: those that did not match, the one that did, and those that
were not reached. -/
def WellTraced (trace : List PrecedenceTraceStep) : Prop :=
  trace.map (·.layer) = traceLayers ∧
    ∃ i < traceLayers.length, trace.map (·.status)
      = List.replicate i .noMatch ++ .matched :: List.replicate (traceLayers.length - i - 1)
          .notReached

theorem wellTraced_finish {passed : List String} {layer : String}
    (h : passed ++ [layer] <+: traceLayers) (ruleId : Option String) (decision : TrustDecision) :
    WellTraced (finish passed layer ruleId decision).trace := by
  have hlen : passed.length < traceLayers.length := by
    have hle := h.length_le
    rw [List.length_append, List.length_singleton] at hle
    exact hle
  obtain ⟨rest, hrest⟩ := h
  refine ⟨?_, passed.length, hlen, ?_⟩
  · rw [← hrest]
    simp [finish, ← hrest, Function.comp_def]
  · simp [finish, Function.comp_def, List.map_const', Nat.sub_sub]

theorem wellTraced_evaluateDefaults (input : PolicyInput) :
    WellTraced (evaluateDefaults input).trace := by
  rw [evaluateDefaults]
  split
  · exact wellTraced_finish (by decide) _ _
  split
  · exact wellTraced_finish (by decide) _ _
  split
  · exact wellTraced_finish (by decide) _ _
  · exact wellTraced_finish (by decide) _ _

theorem wellTraced_evaluateUnknown (input : PolicyInput) :
    WellTraced (evaluateUnknown input).trace := by
  rw [evaluateUnknown]
  split
  · exact wellTraced_finish (by decide) _ _
  split
  · exact wellTraced_finish (by decide) _ _
  · exact wellTraced_finish (by decide) _ _

theorem wellTraced_evaluateGrants (input : PolicyInput) (matching : TrustEffect → Option String) :
    WellTraced (evaluateGrants input matching).trace := by
  rw [evaluateGrants]
  split
  · exact wellTraced_finish (by decide) _ _
  split
  · exact wellTraced_finish (by decide) _ _
  split
  · exact wellTraced_finish (by decide) _ _
  split
  · exact wellTraced_finish (by decide) _ _
  split
  · exact wellTraced_finish (by decide) _ _
  · exact wellTraced_evaluateDefaults input

theorem wellTraced_evaluateLayers (input : PolicyInput) (matching : TrustEffect → Option String) :
    WellTraced (evaluateLayers input matching).trace := by
  rw [evaluateLayers]
  split
  · exact wellTraced_finish (by decide) _ _
  split
  · exact wellTraced_finish (by decide) _ _
  split
  · exact wellTraced_finish (by decide) _ _
  split
  · exact wellTraced_evaluateUnknown input
  · exact wellTraced_evaluateGrants input matching

/-! ## Decisions -/

/-- The built-in allowlist covers the operation. -/
def SafeRead (input : PolicyInput) : Prop :=
  input.safeReadEnabled = true ∧
    ∃ profile, input.operation.identity = .profile profile ∧ isSafeReadProfile profile = true

/-- The gate of the workspace is open, or the operation does not need it. -/
def GateOpen (input : PolicyInput) : Prop :=
  gateRequired input.operation = true → input.workspaceEnabled = true

theorem fallbackDecision_ne_allow (effect : FallbackEffect) (source : FallbackSource) :
    (fallbackDecision effect source).outcome ≠ .allow := by
  cases effect <;> cases source <;> decide

theorem evaluateDefaults_ne_allow (input : PolicyInput) :
    (evaluateDefaults input).decision.outcome ≠ .allow := by
  rw [evaluateDefaults]
  split
  · exact fallbackDecision_ne_allow _ _
  split
  · exact fallbackDecision_ne_allow _ _
  split
  · exact fallbackDecision_ne_allow _ _
  · exact nofun

theorem evaluateUnknown_ne_allow (input : PolicyInput) :
    (evaluateUnknown input).decision.outcome ≠ .allow := by
  rw [evaluateUnknown]
  split
  · exact fallbackDecision_ne_allow _ _
  split
  · exact fallbackDecision_ne_allow _ _
  · next htool _ hcategory =>
    dsimp only [finish]
    rw [unknownDecision, htool, hcategory]
    dsimp only
    split
    · exact fallbackDecision_ne_allow _ _
    · exact nofun

theorem safeReadApplies_iff (input : PolicyInput) :
    safeReadApplies input = true ↔ SafeRead input := by
  rw [safeReadApplies, Bool.and_eq_true, SafeRead]
  refine and_congr_right fun _ ↦ ?_
  constructor
  · intro h
    split at h
    · next profile hprofile => exact ⟨profile, hprofile, h⟩
    · cases h
  · rintro ⟨profile, hprofile, h⟩
    rw [hprofile]
    exact h

theorem gateOpen_iff (input : PolicyInput) :
    (gateRequired input.operation && !input.workspaceEnabled) = true ↔ ¬ GateOpen input := by
  rw [GateOpen, Bool.and_eq_true, Bool.not_eq_true', Classical.not_imp, Bool.not_eq_true]

theorem evaluateGrants_allow_iff :
    (evaluateGrants input matching).decision.outcome = .allow ↔
      matching .confirm = none ∧ (SafeRead input ∨ GateOpen input ∧
        (input.session.isAllowed input.sessionId input.fingerprint = true ∨
          matching .allow ≠ none)) := by
  rw [evaluateGrants]
  split
  · next id hid => simp [finish, TrustDecision.confirm, hid]
  next hconfirm =>
  split
  · next hsafe => simp [finish, TrustDecision.allow, hconfirm, (safeReadApplies_iff input).mp hsafe]
  next hsafe =>
  have hsafe' := mt (safeReadApplies_iff input).mpr hsafe
  split
  · next hgate =>
    simp [finish, TrustDecision.confirm, hconfirm, hsafe', (gateOpen_iff input).mp hgate]
  next hgate =>
  have hgate' := not_not.mp (mt (gateOpen_iff input).mpr hgate)
  split
  · next hsession => simp [finish, TrustDecision.allow, hconfirm, hgate', hsession]
  next hsession =>
  split
  · next id hid => simp [finish, TrustDecision.allow, hconfirm, hgate', hid]
  · next hnone =>
    simp [evaluateDefaults_ne_allow, hsafe', hsession, hnone]

/-- When an operation is allowed. -/
theorem evaluateLayers_allow_iff :
    (evaluateLayers input matching).decision.outcome = .allow ↔
      input.builtInDeny = none ∧ matching .deny = none ∧
      input.session.isDenied input.sessionId input.fingerprint = false ∧
      input.operation.isUnknown = false ∧ matching .confirm = none ∧
      (SafeRead input ∨ GateOpen input ∧
        (input.session.isAllowed input.sessionId input.fingerprint = true ∨
          matching .allow ≠ none)) := by
  rw [evaluateLayers]
  split
  · next safeguard hsafeguard => simp [finish, TrustDecision.deny, hsafeguard]
  next hbuiltIn =>
  split
  · next id hid => simp [finish, TrustDecision.deny, hid]
  next hdeny =>
  split
  · next hsession => simp [finish, TrustDecision.deny, hsession]
  next hsession =>
  split
  · next hunknown => simp [evaluateUnknown_ne_allow, hunknown]
  · next hunknown => simp [evaluateGrants_allow_iff, hbuiltIn, hdeny, hsession, hunknown]

theorem evaluateLayers_deny {id : String} (h : matching .deny = some id) :
    (evaluateLayers input matching).decision.outcome = .deny := by
  rw [evaluateLayers]
  split
  · rfl
  · rw [h]
    rfl

/-! ## Rules that apply -/

/-- The rule has the effect, is in scope and matches the operation. -/
def Applies (input : PolicyInput) (effect : TrustEffect) (rule : TrustRule) : Prop :=
  rule.effect = effect ∧ scopeMatches rule input = true ∧ rule.matches input.operation = true

/-- The ids of the rules that apply, in the order of the rules. -/
def applicableIds (input : PolicyInput) (effect : TrustEffect) : List String :=
  (((input.rules.filter (·.effect = effect)).filter (scopeMatches · input)).filter
    (·.matches input.operation)).map TrustRule.id

theorem matchingId_eq_none_iff {effect : TrustEffect} :
    matchingId input effect = none ↔ ∀ rule ∈ input.rules, ¬ Applies input effect rule := by
  rw [matchingId, Option.map_eq_none_iff, matchingRule, List.argmin_eq_none, List.filter_filter,
    List.filter_filter, List.filter_eq_nil_iff]
  refine forall₂_congr fun rule _ ↦ not_congr ?_
  rw [Applies, Bool.and_eq_true, Bool.and_eq_true, decide_eq_true_eq]
  tauto

/-- The id of the rule that applies is the least of the ids of those that do. -/
theorem matchingId_eq_some_iff {effect : TrustEffect} {id : String} :
    matchingId input effect = some id ↔
      id ∈ applicableIds input effect ∧ ∀ other ∈ applicableIds input effect, id ≤ other := by
  rw [matchingId, matchingRule, applicableIds, Option.map_eq_some_iff]
  constructor
  · rintro ⟨rule, hrule, rfl⟩
    refine ⟨List.mem_map_of_mem (List.argmin_mem hrule), fun other hother ↦ ?_⟩
    obtain ⟨rule', hrule', rfl⟩ := List.mem_map.mp hother
    exact List.le_of_mem_argmin hrule' hrule
  · rintro ⟨hmem, hle⟩
    obtain ⟨rule, hrule, rfl⟩ := List.mem_map.mp hmem
    have hsome := mt (List.argmin_eq_none (f := TrustRule.id)).mp (List.ne_nil_of_mem hrule)
    obtain ⟨least, hleast⟩ := Option.ne_none_iff_exists'.mp hsome
    exact ⟨least, hleast, le_antisymm (List.le_of_mem_argmin hrule hleast)
      (hle _ (List.mem_map_of_mem (List.argmin_mem hleast)))⟩

/-- The decision and the trace depend on the rules only through the ids of those that apply. -/
theorem evaluateWithTrace_congr {rules : List TrustRule}
    (h : ∀ effect id, id ∈ applicableIds { input with rules } effect ↔
      id ∈ applicableIds input effect) :
    evaluateWithTrace { input with rules } = evaluateWithTrace input := by
  have hmatching : matchingId { input with rules } = matchingId input := by
    funext effect
    refine Option.ext fun id ↦ ?_
    rw [matchingId_eq_some_iff, matchingId_eq_some_iff, h]
    simp only [h]
  rw [evaluateWithTrace, hmatching]
  rfl

theorem mem_applicableIds {effect : TrustEffect} {id : String} :
    id ∈ applicableIds input effect ↔
      ∃ rule ∈ input.rules, Applies input effect rule ∧ rule.id = id := by
  rw [applicableIds, List.mem_map]
  simp only [List.mem_filter, decide_eq_true_eq, Applies]
  refine exists_congr fun rule ↦ ?_
  tauto

/-- The order of the rules is without effect. -/
theorem evaluateWithTrace_perm {rules : List TrustRule} (h : rules.Perm input.rules) :
    evaluateWithTrace { input with rules } = evaluateWithTrace input := by
  refine evaluateWithTrace_congr fun effect id ↦ ?_
  rw [mem_applicableIds, mem_applicableIds]
  exact exists_congr fun rule ↦ and_congr_left fun _ ↦ h.mem_iff

/-- The rule is of another workspace or agent, has expired, or is spent. -/
def OutOfScope (input : PolicyInput) (rule : TrustRule) : Prop :=
  rule.scope.workspace ≠ input.operation.workspace ∨
    (∃ agent, rule.scope.agent = some agent ∧ input.operation.agent ≠ some agent) ∨
    (∃ expires, rule.scope.expiresAt = some expires ∧ expires ≤ input.now) ∨
    (rule.effect = .allow ∧
      ∃ maxUses, rule.scope.maxUses = some maxUses ∧ maxUses ≤ input.usage.usedBy rule.id)

theorem OutOfScope.scopeMatches_eq {rule : TrustRule} (h : OutOfScope input rule) :
    scopeMatches rule input = false := by
  rw [scopeMatches]
  rcases h with h | ⟨agent, hagent, hne⟩ | ⟨expires, hexpires, hle⟩ | ⟨heffect, maxUses, hmax, hle⟩
  · simp [h]
  · simp [hagent, hne]
  · simp [hexpires, hle]
  · simp [heffect, hmax, hle]

/-- A rule that does not apply is without effect. -/
theorem evaluateWithTrace_remove {pre post : List TrustRule} {rule : TrustRule}
    (hrules : input.rules = pre ++ rule :: post) (h : ∀ effect, ¬ Applies input effect rule) :
    evaluateWithTrace { input with rules := pre ++ post } = evaluateWithTrace input := by
  refine evaluateWithTrace_congr fun effect id ↦ ?_
  rw [mem_applicableIds, mem_applicableIds]
  constructor
  · rintro ⟨r, hr, happlies, hid⟩
    refine ⟨r, ?_, happlies, hid⟩
    rw [hrules]
    rcases List.mem_append.mp hr with hr | hr
    · exact List.mem_append_left _ hr
    · exact List.mem_append_right _ (List.mem_cons_of_mem _ hr)
  · rintro ⟨r, hr, happlies, hid⟩
    refine ⟨r, ?_, happlies, hid⟩
    rw [hrules] at hr
    rcases List.mem_append.mp hr with hr | hr
    · exact List.mem_append_left _ hr
    · rcases List.mem_cons.mp hr with rfl | hr
      · exact absurd happlies (h effect)
      · exact List.mem_append_right _ hr

/-! ## Laws -/

/-- Deny below confirm below allow. -/
def TrustOutcome.permissiveness : TrustOutcome → ℕ
  | .deny => 0
  | .confirm => 1
  | .allow => 2

theorem evaluate_allow_iff :
    (evaluate input).outcome = .allow ↔
      input.builtInDeny = none ∧
      input.session.isDenied input.sessionId input.fingerprint = false ∧
      (∀ rule ∈ input.rules, ¬ Applies input .deny rule ∧ ¬ Applies input .confirm rule) ∧
      input.operation.isUnknown = false ∧
      (SafeRead input ∨ GateOpen input ∧
        (input.session.isAllowed input.sessionId input.fingerprint = true ∨
          ∃ rule ∈ input.rules, Applies input .allow rule)) := by
  have hallow : matchingId input .allow ≠ none ↔
      ∃ rule ∈ input.rules, Applies input .allow rule := by
    rw [Ne, matchingId_eq_none_iff]
    push Not
    rfl
  rw [evaluate, evaluateWithTrace, evaluateLayers_allow_iff, hallow, matchingId_eq_none_iff,
    matchingId_eq_none_iff]
  constructor
  · rintro ⟨hbuiltIn, hdeny, hsession, hunknown, hconfirm, hgrant⟩
    exact ⟨hbuiltIn, hsession, fun rule hrule ↦ ⟨hdeny rule hrule, hconfirm rule hrule⟩, hunknown,
      hgrant⟩
  · rintro ⟨hbuiltIn, hsession, hrules, hunknown, hgrant⟩
    exact ⟨hbuiltIn, fun rule hrule ↦ (hrules rule hrule).1, hsession, hunknown,
      fun rule hrule ↦ (hrules rule hrule).2, hgrant⟩

/-- A rule that is added applies and its effect is in force, or changes nothing. -/
theorem evaluateWithTrace_add {pre post : List TrustRule} (rule : TrustRule)
    (hrules : input.rules = pre ++ post) :
    Applies input rule.effect rule ∨
      evaluateWithTrace { input with rules := pre ++ rule :: post } = evaluateWithTrace input := by
  by_cases happlies : Applies input rule.effect rule
  · exact .inl happlies
  · refine .inr (Eq.symm ?_)
    have hremove : evaluateWithTrace { input with rules := pre ++ post } = evaluateWithTrace
        { input with rules := pre ++ rule :: post } :=
      @evaluateWithTrace_remove { input with rules := pre ++ rule :: post } pre post rule rfl
        fun effect h ↦ happlies (h.1 ▸ h)
    rw [← hremove, ← hrules]

/-- The laws of the evaluator. -/
theorem evaluate_laws (input : PolicyInput) :
    (∀ rules : List TrustRule, rules.Perm input.rules →
      evaluateWithTrace { input with rules } = evaluateWithTrace input) ∧
    (∀ pre post rule, input.rules = pre ++ post → rule.effect = .deny →
      (evaluate { input with rules := pre ++ rule :: post }).outcome.permissiveness
        ≤ (evaluate input).outcome.permissiveness) ∧
    (∀ pre post rule, input.rules = pre ++ post → rule.effect = .confirm →
      (evaluate input).outcome ≠ .allow →
      (evaluate { input with rules := pre ++ rule :: post }).outcome ≠ .allow) ∧
    (∀ pre post rule, input.rules = pre ++ rule :: post → OutOfScope input rule →
      evaluateWithTrace { input with rules := pre ++ post } = evaluateWithTrace input) ∧
    ((evaluate input).outcome = .allow →
      input.builtInDeny = none ∧
      input.session.isDenied input.sessionId input.fingerprint = false ∧
      (∀ rule ∈ input.rules, ¬ Applies input .deny rule ∧ ¬ Applies input .confirm rule) ∧
      input.operation.isUnknown = false ∧
      (SafeRead input ∨ GateOpen input ∧
        (input.session.isAllowed input.sessionId input.fingerprint = true ∨
          ∃ rule ∈ input.rules, Applies input .allow rule))) ∧
    WellTraced (evaluateWithTrace input).trace := by
  refine ⟨fun rules ↦ evaluateWithTrace_perm, fun pre post rule hrules heffect ↦ ?_,
    fun pre post rule hrules heffect hne ↦ ?_, fun pre post rule hrules hout ↦ ?_,
    evaluate_allow_iff.mp, wellTraced_evaluateLayers input _⟩
  · rcases evaluateWithTrace_add rule hrules with happlies | heq
    · rw [heffect] at happlies
      have hsome : matchingId { input with rules := pre ++ rule :: post } .deny ≠ none :=
        fun hnone ↦ matchingId_eq_none_iff.mp hnone rule (by simp) happlies
      obtain ⟨id, hid⟩ := Option.ne_none_iff_exists'.mp hsome
      rw [evaluate, evaluateWithTrace, evaluateLayers_deny hid]
      exact Nat.zero_le _
    · rw [evaluate, heq, evaluate]
  · rcases evaluateWithTrace_add rule hrules with happlies | heq
    · rw [heffect] at happlies
      intro hallow
      exact ((evaluate_allow_iff.mp hallow).2.2.1 rule (by simp)).2 happlies
    · rwa [evaluate, heq]
  · refine evaluateWithTrace_remove hrules fun effect happlies ↦ ?_
    exact absurd happlies.2.1 (by rw [hout.scopeMatches_eq]; exact nofun)

end EeEditor.Policy
