import EeEditor.Orchestrator.WriteTransaction

/-!
# Verified transactions

Whatever is called in whatever order, a transaction is verified only with the whole chain of
evidence. `Inv` ties every state to the evidence that leads to it: each operation that is accepted
adds its own, and every other way out leads to a state that claims none.
-/

namespace EeEditor.Orchestrator

open WriteTransaction

/-! ## Runs -/

inductive Call where
  | readRevisions (observed : List SourceRevision)
  | preview (previews : List WritePreview)
  | approval (approval : WriteApproval)
  | apply (outcomes : List AppliedWrite) (workspaceRevision : String)
  | diagnostics (diagnostics : TransactionDiagnostics)
  | finalDiff (diff : TransactionFinalDiff)
  | validation (validation : TransactionValidation)
  | interrupt (reason : String)
  | prepareRollback (safety : RollbackSafetyCheck)
  | rollback (currentWorkspaceRevision : String)

def WriteTransaction.call (self : WriteTransaction) : Call → Recorded
  | .readRevisions observed => self.recordReadRevisions observed
  | .preview previews => self.recordPreview previews
  | .approval approval => self.recordApproval approval
  | .apply outcomes workspaceRevision => self.recordApply outcomes workspaceRevision
  | .diagnostics diagnostics => self.recordDiagnostics diagnostics
  | .finalDiff diff => self.recordFinalDiff diff
  | .validation validation => self.recordValidation validation
  | .interrupt reason => (.ok (), self.interrupt reason)
  | .prepareRollback safety => self.prepareRollback safety
  | .rollback currentWorkspaceRevision => self.recordRollback currentWorkspaceRevision

/-- The record after some calls. -/
def WriteTransaction.after (start : WriteTransaction) (calls : List Call) : WriteTransaction :=
  calls.foldl (fun self c ↦ (self.call c).2) start

variable {start self self' : WriteTransaction} {calls : List Call}
  {sources : Std.TreeMap String SourceRevision}

theorem WriteTransaction.after_append_singleton (start : WriteTransaction) (calls : List Call)
    (c : Call) : start.after (calls ++ [c]) = ((start.after calls).call c).2 :=
  List.foldl_concat _ _ _ _

/-- The call is one of those made, and was accepted. -/
def Accepted (start : WriteTransaction) (calls : List Call) (c : Call) : Prop :=
  ∃ pre post, calls = pre ++ c :: post ∧ ((start.after pre).call c).1 = .ok ()

theorem Accepted.append {c : Call} (h : Accepted start calls c) (d : Call) :
    Accepted start (calls ++ [d]) c := by
  obtain ⟨pre, post, rfl, hok⟩ := h
  exact ⟨pre, post ++ [d], by simp, hok⟩

theorem accepted_last {c : Call} (h : ((start.after calls).call c).1 = .ok ()) :
    Accepted start (calls ++ [c]) c := ⟨calls, [], rfl, h⟩

/-! ## Evidence -/

/-- Every planned path was read once, at its expected revision, with no work of the user or of
someone unknown in its buffer. -/
def ReadAll (sources : Std.TreeMap String SourceRevision) (observed : List SourceRevision) : Prop :=
  (observed.map (·.path)).Perm sources.keys ∧
    ∀ actual ∈ observed, ∃ expected, sources[actual.path]? = some expected ∧
      actual.revision = expected.revision ∧
      (actual.dirty && actual.ownership.blocksMutation) = false

/-- Every planned path was previewed once, at its expected revision. -/
def PreviewedAll (sources : Std.TreeMap String SourceRevision) (previews : List WritePreview) :
    Prop :=
  (previews.map (·.path)).Perm sources.keys ∧
    ∀ preview ∈ previews, ∃ expected, sources[preview.path]? = some expected ∧
      preview.expectedRevision = expected.revision

/-- The write is that of a planned path at its expected revision, and succeeded. -/
def Applied (sources : Std.TreeMap String SourceRevision) (write : AppliedWrite) : Prop :=
  write.applied = true ∧ (∃ expected, sources[write.path]? = some expected ∧
    write.expectedRevision = expected.revision) ∧
    ∃ revision, write.postWriteRevision = some revision ∧ revision ≠ ""

/-- Every planned path was written once, at its expected revision. -/
def AppliedAll (sources : Std.TreeMap String SourceRevision) (applies : List AppliedWrite) : Prop :=
  (applies.map (·.path)).Perm sources.keys ∧ ∀ write ∈ applies, Applied sources write

/-! ## What the scans establish -/

theorem getElem?_insert_path (map : Std.TreeMap String SourceRevision) (source : SourceRevision)
    (path : String) : (map.insert source.path source)[path]? =
      if source.path = path then some source else map[path]? := by
  rw [Std.TreeMap.getElem?_insert]
  simp only [Std.LawfulEqCmp.compare_eq_iff_eq]

/-- Collected sources are the given ones, each under its own path. -/
theorem collectSources_spec {message : String} {revisions : List SourceRevision}
    {map map' : Std.TreeMap String SourceRevision}
    (h : collectSources message revisions map = .ok map') :
    (revisions.map (·.path)).Nodup ∧ (∀ r ∈ revisions, map[r.path]? = none) ∧
      ∀ path r, map'[path]? = some r ↔
        map[path]? = some r ∨ r ∈ revisions ∧ r.path = path := by
  induction revisions generalizing map with
  | nil =>
    cases h
    exact ⟨List.nodup_nil, nofun, fun path r ↦ ⟨.inl, fun hr ↦ hr.elim id fun h ↦ nomatch h.1⟩⟩
  | cons source sources ih =>
    simp only [collectSources, bind, Except.bind] at h
    split at h
    · cases h
    split at h
    · cases h
    · rename_i hnot
      have hfree : map[source.path]? = none := by
        rw [Std.TreeMap.getElem?_eq_none]
        simpa [Std.TreeMap.contains_iff_mem] using hnot
      obtain ⟨hnodup, hnone, hmem⟩ := ih h
      have hother : ∀ r ∈ sources, r.path ≠ source.path := by
        intro r hr heq
        have := hnone r hr
        rw [getElem?_insert_path, if_pos heq.symm] at this
        cases this
      refine ⟨List.nodup_cons.mpr ⟨?_, hnodup⟩, ?_, ?_⟩
      · intro hin
        obtain ⟨r, hr, heq⟩ := List.mem_map.mp hin
        exact hother r hr heq
      · intro r hr
        obtain rfl | hr := List.mem_cons.mp hr
        · exact hfree
        · have := hnone r hr
          rwa [getElem?_insert_path, if_neg (hother r hr).symm] at this
      · intro path r
        rw [hmem, getElem?_insert_path]
        by_cases hpath : source.path = path
        · subst hpath
          simp only [if_true, Option.some.injEq, hfree, List.mem_cons]
          constructor
          · rintro (rfl | ⟨hr, heq⟩)
            · exact .inr ⟨.inl rfl, rfl⟩
            · exact .inr ⟨.inr hr, heq⟩
          · rintro (h | ⟨rfl | hr, heq⟩)
            · cases h
            · exact .inl rfl
            · exact .inr ⟨hr, heq⟩
        · rw [if_neg hpath]
          constructor
          · rintro (h | ⟨hr, heq⟩)
            · exact .inl h
            · exact .inr ⟨List.mem_cons_of_mem _ hr, heq⟩
          · rintro (h | ⟨hr, heq⟩)
            · exact .inl h
            · obtain rfl | hr := List.mem_cons.mp hr
              · exact absurd heq hpath
              · exact .inr ⟨hr, heq⟩

theorem staleRead_eq_none {observed : Std.TreeMap String SourceRevision}
    {sources : List (String × SourceRevision)} (h : staleRead observed sources = none)
    {path : String} {expected : SourceRevision} (hmem : (path, expected) ∈ sources) :
    (observed.getD path expected).revision = expected.revision ∧
      ((observed.getD path expected).dirty &&
        (observed.getD path expected).ownership.blocksMutation) = false := by
  induction sources with
  | nil => cases hmem
  | cons source sources ih =>
    simp only [staleRead] at h
    split at h
    · cases h
    rename_i hrevision
    split at h
    · cases h
    rename_i hdirty
    obtain rfl | hmem := List.mem_cons.mp hmem
    · exact ⟨(not_not.mp hrevision).symm, Bool.eq_false_iff.mpr hdirty⟩
    · exact ih h hmem

theorem mem_keys_of_getElem? {map : Std.TreeMap String SourceRevision} {path : String}
    {source : SourceRevision} (h : map[path]? = some source) : path ∈ map.keys := by
  rw [Std.TreeMap.mem_keys, Std.TreeMap.mem_iff_isSome_getElem?, h]
  rfl

theorem readAll_of_accepted {sources map : Std.TreeMap String SourceRevision}
    {observed : List SourceRevision} (hmap : revisionMap observed = .ok map)
    (hkeys : map.keys = sources.keys) (hstale : staleRead map sources.toList = none) :
    ReadAll sources observed := by
  obtain ⟨hnodup, -, hmem⟩ := collectSources_spec hmap
  have hown : ∀ actual ∈ observed, map[actual.path]? = some actual := fun actual h ↦
    (hmem actual.path actual).mpr (.inr ⟨h, rfl⟩)
  constructor
  · rw [List.perm_ext_iff_of_nodup hnodup Std.TreeMap.nodup_keys, ← hkeys]
    intro path
    rw [List.mem_map]
    constructor
    · rintro ⟨actual, h, rfl⟩
      exact mem_keys_of_getElem? (hown actual h)
    · intro h
      have h := Std.TreeMap.mem_keys.mp h
      have hr := (hmem path map[path]).mp (Std.TreeMap.getElem?_eq_some_getElem h)
      simp only [Std.TreeMap.getElem?_emptyc, reduceCtorEq, false_or] at hr
      exact ⟨_, hr⟩
  · intro actual h
    have hplanned : actual.path ∈ sources := by
      rw [← Std.TreeMap.mem_keys, ← hkeys]
      exact mem_keys_of_getElem? (hown actual h)
    have hsome := Std.TreeMap.getElem?_eq_some_getElem hplanned
    have hread := staleRead_eq_none hstale
      (Std.TreeMap.mem_toList_iff_getElem?_eq_some.mpr hsome)
    rw [Std.TreeMap.getD_eq_getD_getElem?, hown actual h] at hread
    exact ⟨_, hsome, hread⟩

/-- As many different planned paths as there are planned are all of them. -/
theorem perm_keys_of_length {paths : List String} (hnodup : paths.Nodup)
    (hmem : ∀ path ∈ paths, path ∈ sources.keys)
    (hlength : paths.length = sources.size) : paths.Perm sources.keys := by
  apply (List.subperm_of_subset hnodup hmem).perm_of_length_le
  rw [Std.TreeMap.length_keys, hlength]

theorem checkPreviews_spec {previews : List WritePreview} {paths paths' : List String}
    (h : checkPreviews sources previews paths = .ok paths') (hnodup : paths.Nodup) :
    paths' = (previews.map (·.path)).reverse ++ paths ∧ paths'.Nodup ∧
      ∀ preview ∈ previews, ∃ expected, sources[preview.path]? = some expected ∧
        preview.expectedRevision = expected.revision := by
  induction previews generalizing paths with
  | nil =>
    cases h
    exact ⟨rfl, hnodup, nofun⟩
  | cons preview previews ih =>
    simp only [checkPreviews] at h
    split at h
    · cases h
    rename_i expected hexpected
    split at h
    · cases h
    rename_i hnew
    split at h
    · cases h
    rename_i hrevision
    split at h
    · cases h
    have hnew : preview.path ∉ paths := by simpa using hnew
    obtain ⟨rfl, hnodup', hall⟩ := ih h (List.nodup_cons.mpr ⟨hnew, hnodup⟩)
    refine ⟨by simp, hnodup', fun other hother ↦ ?_⟩
    obtain rfl | hother := List.mem_cons.mp hother
    · exact ⟨expected, hexpected, not_not.mp hrevision⟩
    · exact hall other hother

theorem previewedAll_of_accepted {previews : List WritePreview} {paths : List String}
    (h : checkPreviews sources previews [] = .ok paths) (hlength : paths.length = sources.size) :
    PreviewedAll sources previews := by
  obtain ⟨rfl, hnodup, hall⟩ := checkPreviews_spec h List.nodup_nil
  rw [List.append_nil] at hnodup hlength
  refine ⟨perm_keys_of_length (List.nodup_reverse.mp hnodup) ?_ (by simpa using hlength), hall⟩
  intro path hpath
  obtain ⟨preview, hpreview, rfl⟩ := List.mem_map.mp hpath
  obtain ⟨expected, hexpected, -⟩ := hall preview hpreview
  exact mem_keys_of_getElem? hexpected

theorem checkApplies_spec {outcomes applied applied' : List AppliedWrite} {seen seen' : List String}
    (h : checkApplies sources outcomes seen applied = .passed seen' applied')
    (hnodup : seen.Nodup) :
    applied' = applied ++ outcomes ∧ seen' = (outcomes.map (·.path)).reverse ++ seen ∧
      seen'.Nodup ∧ ∀ write ∈ outcomes, Applied sources write := by
  induction outcomes generalizing seen applied with
  | nil =>
    cases h
    exact ⟨(List.append_nil _).symm, rfl, hnodup, nofun⟩
  | cons outcome outcomes ih =>
    simp only [checkApplies] at h
    split at h
    · cases h
    rename_i expected hexpected
    split at h
    · cases h
    rename_i hnew
    split at h
    · cases h
    rename_i hrevision
    split at h
    · cases h
    rename_i hwritten
    have hnew : outcome.path ∉ seen := by simpa using hnew
    have happlied : Applied sources outcome := by
      simp only [Bool.or_eq_true, Bool.not_eq_true', not_or, Bool.not_eq_false,
        Option.all_eq_true] at hwritten
      refine ⟨hwritten.1, ⟨expected, hexpected, not_not.mp hrevision⟩, ?_⟩
      simpa using hwritten.2
    obtain ⟨rfl, rfl, hnodup', hall⟩ := ih h (List.nodup_cons.mpr ⟨hnew, hnodup⟩)
    refine ⟨by simp, by simp, hnodup', fun other hother ↦ ?_⟩
    obtain rfl | hother := List.mem_cons.mp hother
    · exact happlied
    · exact hall other hother

theorem appliedAll_of_accepted {outcomes applied : List AppliedWrite} {seen : List String}
    (h : checkApplies sources outcomes [] [] = .passed seen applied)
    (hlength : seen.length = sources.size) : AppliedAll sources applied := by
  obtain ⟨rfl, rfl, hnodup, hall⟩ := checkApplies_spec h List.nodup_nil
  rw [List.append_nil] at hnodup hlength
  refine ⟨perm_keys_of_length (List.nodup_reverse.mp hnodup) ?_ (by simpa using hlength), hall⟩
  intro path hpath
  obtain ⟨write, hwrite, rfl⟩ := List.mem_map.mp hpath
  obtain ⟨-, ⟨expected, hexpected, -⟩, -⟩ := hall write hwrite
  exact mem_keys_of_getElem? hexpected

/-! ## What a call can do -/

def WriteTransactionState.isAwaiting : WriteTransactionState → Bool
  | verified | blocked | unverified | rolledBack => false
  | _ => true

/-- The states of a transaction that stopped without being verified. -/
def WriteTransactionState.isStopped : WriteTransactionState → Bool
  | blocked | unverified | rolledBack => true
  | _ => false

/-- The record is as it was, or that of a transaction that stopped. -/
def AddsNothing (self self' : WriteTransaction) : Prop :=
  self' = self ∨ self'.state.isStopped = true ∧ self'.transactionId = self.transactionId ∧
    self'.expectedSources = self.expectedSources

/-- The calls that lead to the next state, and what they establish. -/
inductive Advance (self : WriteTransaction) : Call → WriteTransaction → Prop where
  | read {observed : List SourceRevision} (state : self.state = .awaitingRead)
      (read : ReadAll self.expectedSources observed) :
      Advance self (.readRevisions observed) { self with state := .awaitingPreview }
  | preview {previews : List WritePreview} (state : self.state = .awaitingPreview)
      (previewed : PreviewedAll self.expectedSources previews) :
      Advance self (.preview previews) { self with state := .awaitingApproval }
  | approval {approvalId : String} (state : self.state = .awaitingApproval)
      (nonblank : isBlank approvalId = false) :
      Advance self (.approval (.approved approvalId))
        { self with approval := some (.approved approvalId), state := .awaitingApply }
  | apply {outcomes applied : List AppliedWrite} {workspaceRevision : String}
      (state : self.state = .awaitingApply) (nonblank : isBlank workspaceRevision = false)
      (all : AppliedAll self.expectedSources applied) :
      Advance self (.apply outcomes workspaceRevision) { self with
        changedPaths := self.expectedSources.keys
        applies := applied
        postWriteWorkspaceRevision := some workspaceRevision
        state := .awaitingDiagnostics }
  | diagnostics {diagnostics : TransactionDiagnostics}
      (state : self.state = .awaitingDiagnostics)
      (fresh : self.postWriteWorkspaceRevision = some diagnostics.workspaceRevision)
      (regressed : diagnostics.regressed = false) :
      Advance self (.diagnostics diagnostics)
        { self with diagnostics := some diagnostics, state := .awaitingFinalDiff }
  | finalDiff {diff : TransactionFinalDiff} (state : self.state = .awaitingFinalDiff)
      (fresh : self.postWriteWorkspaceRevision = some diff.workspaceRevision)
      (paths : deduplicatePaths diff.changedPaths = self.changedPaths)
      (passed : diff.passed = true) :
      Advance self (.finalDiff diff)
        { self with finalDiff := some diff, state := .awaitingValidation }
  | validation {validation : TransactionValidation} (state : self.state = .awaitingValidation)
      (own : validation.transactionId = self.transactionId)
      (fresh : self.postWriteWorkspaceRevision = some (validation.record.revision.getD ""))
      (selected : validation.record.selected = true) (denied : validation.record.denied = false)
      (passed : validation.record.outcome = .passed) :
      Advance self (.validation validation)
        { self with validation := some validation, state := .verified, terminalReason := none }

/-- A call adds nothing, or is accepted and leads to the next state. -/
def Steps (self : WriteTransaction) (c : Call) (r : Recorded) : Prop :=
  AddsNothing self r.2 ∨ r.1 = .ok () ∧ Advance self c r.2

variable {c : Call}

theorem steps_outOfOrder (expected : WriteTransactionState) :
    Steps self c (self.outOfOrder expected) := .inl (.inl rfl)

theorem steps_error (e : WriteTransactionError) : Steps self c (.error e, self) := .inl (.inl rfl)

theorem steps_block (code message : String) (hid : self'.transactionId = self.transactionId)
    (hsources : self'.expectedSources = self.expectedSources) :
    Steps self c (self'.block code message) := .inl (.inr ⟨rfl, hid, hsources⟩)

theorem steps_recordReadRevisions (self : WriteTransaction) (observed : List SourceRevision) :
    Steps self (.readRevisions observed) (self.recordReadRevisions observed) := by
  unfold recordReadRevisions
  split
  · apply steps_outOfOrder
  rename_i hstate
  split
  · apply steps_error
  rename_i map hmap
  split
  · exact steps_block _ _ rfl rfl
  rename_i hkeys
  split
  · exact steps_block _ _ rfl rfl
  rename_i hstale
  simp only [ne_eq, Bool.or_eq_true, decide_eq_true_eq, not_or, not_not] at hkeys
  exact .inr ⟨rfl, .read (not_not.mp hstate) (readAll_of_accepted hmap hkeys.2 hstale)⟩

theorem steps_recordPreview (self : WriteTransaction) (previews : List WritePreview) :
    Steps self (.preview previews) (self.recordPreview previews) := by
  unfold recordPreview
  split
  · apply steps_outOfOrder
  rename_i hstate
  split
  · exact steps_block _ _ rfl rfl
  rename_i paths hpaths
  split
  · exact steps_block _ _ rfl rfl
  rename_i hlength
  exact .inr ⟨rfl, .preview (not_not.mp hstate)
    (previewedAll_of_accepted hpaths (not_not.mp hlength))⟩

theorem steps_recordApproval (self : WriteTransaction) (approval : WriteApproval) :
    Steps self (.approval approval) (self.recordApproval approval) := by
  unfold recordApproval
  split
  · apply steps_outOfOrder
  rename_i hstate
  cases approval with
  | denied reason => exact steps_block _ _ rfl rfl
  | approved approvalId =>
    dsimp only
    split
    · rename_i hblank
      exact .inr ⟨rfl, .approval (not_not.mp hstate) (by simpa using hblank)⟩
    · exact steps_block _ _ rfl rfl

theorem steps_recordApply (self : WriteTransaction) (outcomes : List AppliedWrite)
    (workspaceRevision : String) :
    Steps self (.apply outcomes workspaceRevision)
      (self.recordApply outcomes workspaceRevision) := by
  unfold recordApply
  split
  · apply steps_outOfOrder
  rename_i hstate
  split
  · exact steps_block _ _ rfl rfl
  rename_i hblank
  split
  · exact steps_block _ _ rfl rfl
  · exact steps_block _ _ rfl rfl
  rename_i seen applied hpassed
  split
  · exact steps_block _ _ rfl rfl
  rename_i hlength
  exact .inr ⟨rfl, .apply (not_not.mp hstate) (Bool.eq_false_iff.mpr hblank)
    (appliedAll_of_accepted hpassed (not_not.mp hlength))⟩

theorem eq_some_of_isPostWriteRevision {revision : String}
    (h : ¬(!self.isPostWriteRevision revision) = true) :
    self.postWriteWorkspaceRevision = some revision := by
  simpa [isPostWriteRevision] using h

theorem steps_recordDiagnostics (self : WriteTransaction) (diagnostics : TransactionDiagnostics) :
    Steps self (.diagnostics diagnostics) (self.recordDiagnostics diagnostics) := by
  unfold recordDiagnostics
  split
  · apply steps_outOfOrder
  rename_i hstate
  split
  · exact steps_block _ _ rfl rfl
  rename_i hfresh
  split
  · exact steps_block _ _ rfl rfl
  dsimp only
  split
  · exact steps_block _ _ rfl rfl
  rename_i hregressed
  exact .inr ⟨rfl, .diagnostics (not_not.mp hstate) (eq_some_of_isPostWriteRevision hfresh)
    (Bool.eq_false_iff.mpr hregressed)⟩

theorem steps_recordFinalDiff (self : WriteTransaction) (diff : TransactionFinalDiff) :
    Steps self (.finalDiff diff) (self.recordFinalDiff diff) := by
  unfold recordFinalDiff
  split
  · apply steps_outOfOrder
  rename_i hstate
  split
  · exact steps_block _ _ rfl rfl
  rename_i hfresh
  split
  · exact steps_block _ _ rfl rfl
  split
  · exact steps_block _ _ rfl rfl
  rename_i hpaths
  dsimp only
  split
  · exact steps_block _ _ rfl rfl
  rename_i hpassed
  exact .inr ⟨rfl, .finalDiff (not_not.mp hstate) (eq_some_of_isPostWriteRevision hfresh)
    (not_not.mp hpaths) (by simpa using hpassed)⟩

theorem steps_recordValidation (self : WriteTransaction) (validation : TransactionValidation) :
    Steps self (.validation validation) (self.recordValidation validation) := by
  unfold recordValidation
  split
  · apply steps_outOfOrder
  rename_i hstate
  split
  · exact steps_block _ _ rfl rfl
  rename_i hown
  split
  · exact steps_block _ _ rfl rfl
  rename_i hfresh
  split
  · exact steps_block _ _ rfl rfl
  rename_i hselected
  split
  · exact steps_block _ _ rfl rfl
  rename_i hdenied
  split
  · exact .inl (.inr ⟨rfl, rfl, rfl⟩)
  split
  · exact steps_block _ _ rfl rfl
  rename_i hpassed
  exact .inr ⟨rfl, .validation (not_not.mp hstate) (not_not.mp hown)
    (eq_some_of_isPostWriteRevision hfresh) (by simpa using hselected)
    (Bool.eq_false_iff.mpr hdenied) (not_not.mp hpassed)⟩

theorem steps_prepareRollback (self : WriteTransaction) (safety : RollbackSafetyCheck) :
    Steps self (.prepareRollback safety) (self.prepareRollback safety) := by
  unfold prepareRollback
  split
  · apply steps_error
  rename_i hstate
  split
  · apply steps_error
  split
  · apply steps_error
  split
  · apply steps_error
  refine .inl (.inr ⟨?_, rfl, rfl⟩)
  simp only [Bool.not_eq_true', Bool.not_eq_false, Bool.or_eq_true, decide_eq_true_eq] at hstate
  obtain h | h := hstate
  · rw [h]
    rfl
  · rw [h]
    rfl

theorem steps_recordRollback (self : WriteTransaction) (revision : String) :
    Steps self (.rollback revision) (self.recordRollback revision) := by
  unfold recordRollback
  split
  · apply steps_error
  split
  · apply steps_error
  · exact .inl (.inr ⟨rfl, rfl, rfl⟩)

theorem addsNothing_interrupt (self : WriteTransaction) (reason : String) :
    AddsNothing self (self.interrupt reason) := by
  unfold interrupt
  split
  · exact .inl rfl
  · exact .inr ⟨rfl, rfl, rfl⟩

theorem steps_call (self : WriteTransaction) (c : Call) : Steps self c (self.call c) := by
  cases c with
  | readRevisions observed => exact steps_recordReadRevisions self observed
  | preview previews => exact steps_recordPreview self previews
  | approval approval => exact steps_recordApproval self approval
  | apply outcomes revision => exact steps_recordApply self outcomes revision
  | diagnostics diagnostics => exact steps_recordDiagnostics self diagnostics
  | finalDiff diff => exact steps_recordFinalDiff self diff
  | validation validation => exact steps_recordValidation self validation
  | interrupt reason => exact .inl (addsNothing_interrupt self reason)
  | prepareRollback safety => exact steps_prepareRollback self safety
  | rollback revision => exact steps_recordRollback self revision

theorem Advance.isAwaiting (h : Advance self c self') : self.state.isAwaiting = true := by
  cases h with
  | read hstate | preview hstate | approval hstate | apply hstate | diagnostics hstate
  | finalDiff hstate | validation hstate => rw [hstate]; rfl

/-- No call leads from an end of the transaction back into it. -/
theorem isAwaiting_call (h : self.state.isAwaiting = false) (c : Call) :
    (self.call c).2.state.isAwaiting = false := by
  obtain (heq | ⟨hstopped, -, -⟩) | ⟨-, hadvance⟩ := steps_call self c
  · rwa [heq]
  · revert hstopped
    cases (self.call c).2.state <;> simp [WriteTransactionState.isStopped,
      WriteTransactionState.isAwaiting]
  · rw [hadvance.isAwaiting] at h
    cases h

/-! ## The chain of evidence -/

/-- How much of the chain a state claims. -/
def WriteTransactionState.level : WriteTransactionState → ℕ
  | awaitingPreview => 1
  | awaitingApproval => 2
  | awaitingApply => 3
  | awaitingDiagnostics => 4
  | awaitingFinalDiff => 5
  | awaitingValidation => 6
  | verified => 7
  | awaitingRead | blocked | unverified | rolledBack => 0

/-- What is established by reaching the level after `n`. The reads and the previews are not stored:
they are those of a call that was accepted. -/
def Evidence (start : WriteTransaction) (calls : List Call) (current : WriteTransaction) : ℕ → Prop
  | 0 => ∃ observed, Accepted start calls (.readRevisions observed) ∧
      ReadAll start.expectedSources observed
  | 1 => ∃ previews, Accepted start calls (.preview previews) ∧
      PreviewedAll start.expectedSources previews
  | 2 => ∃ approvalId, current.approval = some (.approved approvalId) ∧ isBlank approvalId = false
  | 3 => AppliedAll start.expectedSources current.applies ∧
      current.changedPaths = start.expectedSources.keys ∧
      ∃ revision, current.postWriteWorkspaceRevision = some revision ∧ isBlank revision = false
  | 4 => ∃ diagnostics, current.diagnostics = some diagnostics ∧
      current.postWriteWorkspaceRevision = some diagnostics.workspaceRevision ∧
      diagnostics.regressed = false
  | 5 => ∃ diff, current.finalDiff = some diff ∧
      current.postWriteWorkspaceRevision = some diff.workspaceRevision ∧
      deduplicatePaths diff.changedPaths = start.expectedSources.keys ∧ diff.passed = true
  | 6 => ∃ validation, current.validation = some validation ∧
      validation.transactionId = start.transactionId ∧
      current.postWriteWorkspaceRevision = some (validation.record.revision.getD "") ∧
      validation.record.selected = true ∧ validation.record.denied = false ∧
      validation.record.outcome = .passed
  | _ => True

/-- The record is that of the planned transaction, with the evidence that its state claims. -/
structure Inv (start : WriteTransaction) (calls : List Call) (current : WriteTransaction) :
    Prop where
  transactionId : current.transactionId = start.transactionId
  sources : current.expectedSources = start.expectedSources
  evidence : ∀ n < current.state.level, Evidence start calls current n

theorem Evidence.append {n : ℕ} (h : Evidence start calls self n) (c : Call) :
    Evidence start (calls ++ [c]) self n := by
  match n, h with
  | 0, ⟨observed, hcall, hread⟩ => exact ⟨observed, hcall.append c, hread⟩
  | 1, ⟨previews, hcall, hpreviewed⟩ => exact ⟨previews, hcall.append c, hpreviewed⟩
  | 2, h | 3, h | 4, h | 5, h | 6, h => exact h
  | _ + 7, _ => trivial

theorem Inv.addsNothing (h : Inv start calls self) (c : Call)
    (hnothing : AddsNothing self self') : Inv start (calls ++ [c]) self' := by
  obtain rfl | ⟨hstopped, hid, hsources⟩ := hnothing
  · exact ⟨h.transactionId, h.sources, fun n hn ↦ (h.evidence n hn).append c⟩
  · have hzero : self'.state.level = 0 := by
      revert hstopped
      cases self'.state <;> simp [WriteTransactionState.isStopped, WriteTransactionState.level]
    refine ⟨hid.trans h.transactionId, hsources.trans h.sources, fun n hn ↦ ?_⟩
    rw [hzero] at hn
    exact absurd hn (Nat.not_lt_zero n)

/-- A call that advances keeps what was established and adds its own evidence. -/
theorem Inv.advance (h : Inv start calls self)
    (haccepted : Accepted start (calls ++ [c]) c) (hadvance : Advance self c self') :
    Inv start (calls ++ [c]) self' := by
  have hold : ∀ n < self.state.level, Evidence start (calls ++ [c]) self n := fun n hn ↦
    (h.evidence n hn).append c
  cases hadvance with
  | read hstate hread =>
    rw [hstate] at hold
    exact ⟨h.transactionId, h.sources,
      Nat.forall_lt_succ_right.mpr ⟨hold, _, haccepted, h.sources ▸ hread⟩⟩
  | preview hstate hpreviewed =>
    rw [hstate] at hold
    exact ⟨h.transactionId, h.sources,
      Nat.forall_lt_succ_right.mpr ⟨hold, _, haccepted, h.sources ▸ hpreviewed⟩⟩
  | approval hstate hblank =>
    rw [hstate] at hold
    refine ⟨h.transactionId, h.sources,
      Nat.forall_lt_succ_right.mpr ⟨fun n hn ↦ ?_, _, rfl, hblank⟩⟩
    match n with
    | 0 | 1 => exact hold _ hn
  | apply hstate hblank happlied =>
    rw [hstate] at hold
    refine ⟨h.transactionId, h.sources, Nat.forall_lt_succ_right.mpr ⟨fun n hn ↦ ?_,
      h.sources ▸ happlied, congrArg Std.TreeMap.keys h.sources, _, rfl, hblank⟩⟩
    match n with
    | 0 | 1 | 2 => exact hold _ hn
  | diagnostics hstate hfresh hregressed =>
    rw [hstate] at hold
    refine ⟨h.transactionId, h.sources,
      Nat.forall_lt_succ_right.mpr ⟨fun n hn ↦ ?_, _, rfl, hfresh, hregressed⟩⟩
    match n with
    | 0 | 1 | 2 | 3 => exact hold _ hn
  | finalDiff hstate hfresh hpaths hpassed =>
    rw [hstate] at hold
    have hplanned := (hold 3 (by decide)).2.1
    refine ⟨h.transactionId, h.sources, Nat.forall_lt_succ_right.mpr ⟨fun n hn ↦ ?_, _, rfl, hfresh,
      hpaths.trans hplanned, hpassed⟩⟩
    match n with
    | 0 | 1 | 2 | 3 | 4 => exact hold _ hn
  | validation hstate hown hfresh hselected hdenied hpassed =>
    rw [hstate] at hold
    refine ⟨h.transactionId, h.sources, Nat.forall_lt_succ_right.mpr ⟨fun n hn ↦ ?_, _, rfl,
      hown.trans h.transactionId, hfresh, hselected, hdenied, hpassed⟩⟩
    match n with
    | 0 | 1 | 2 | 3 | 4 | 5 => exact hold _ hn

theorem Inv.call (h : Inv start calls (start.after calls)) (c : Call) :
    Inv start (calls ++ [c]) (start.after (calls ++ [c])) := by
  rw [after_append_singleton]
  obtain hnothing | ⟨hok, hadvance⟩ := steps_call (start.after calls) c
  · exact h.addsNothing c hnothing
  · exact h.advance (accepted_last hok) hadvance

theorem inv_after (hstart : start.state = .awaitingRead) (calls : List Call) :
    Inv start calls (start.after calls) := by
  induction calls using List.reverseRecOn with
  | nil =>
    refine ⟨rfl, rfl, fun n hn ↦ ?_⟩
    rw [show start.after [] = start from rfl, hstart] at hn
    exact absurd hn (Nat.not_lt_zero n)
  | append_singleton calls c ih => exact ih.call c

/-! ## Verified transactions -/

/-- The sources that a transaction was begun with are those it expects. -/
def Plans (sources : List SourceRevision) (start : WriteTransaction) : Prop :=
  (sources.map (·.path)).Perm start.expectedSources.keys ∧
    ∀ source ∈ sources, start.expectedSources[source.path]? = some source

theorem begin_spec {transactionId : String} {sources : List SourceRevision}
    (h : WriteTransaction.begin transactionId sources = .ok start) :
    start.state = .awaitingRead ∧ start.transactionId = transactionId ∧ Plans sources start := by
  simp only [WriteTransaction.begin] at h
  split at h
  · cases h
  simp only [bind, Except.bind] at h
  split at h
  · cases h
  rename_i map hmap
  split at h
  · cases h
  cases h
  obtain ⟨hnodup, -, hmem⟩ := collectSources_spec hmap
  have hown : ∀ source ∈ sources, map[source.path]? = some source := fun source hsource ↦
    (hmem _ _).mpr (.inr ⟨hsource, rfl⟩)
  refine ⟨rfl, rfl, ?_, hown⟩
  rw [List.perm_ext_iff_of_nodup hnodup Std.TreeMap.nodup_keys]
  intro path
  rw [List.mem_map]
  constructor
  · rintro ⟨source, hsource, rfl⟩
    exact mem_keys_of_getElem? (hown source hsource)
  · intro hpath
    have hpath := Std.TreeMap.mem_keys.mp hpath
    have hsource := (hmem path map[path]).mp (Std.TreeMap.getElem?_eq_some_getElem hpath)
    simp only [Std.TreeMap.getElem?_emptyc, reduceCtorEq, false_or] at hsource
    exact ⟨_, hsource⟩

/-- The complete and fresh chain: everything that was reported after the writes carries the one
revision of the workspace that they led to. -/
structure CompleteChain (start : WriteTransaction) (calls : List Call)
    (current : WriteTransaction) : Prop where
  read : ∃ observed, Accepted start calls (.readRevisions observed) ∧
    ReadAll start.expectedSources observed
  preview : ∃ previews, Accepted start calls (.preview previews) ∧
    PreviewedAll start.expectedSources previews
  approval : ∃ approvalId, current.approval = some (.approved approvalId) ∧
    isBlank approvalId = false
  apply : AppliedAll start.expectedSources current.applies
  after : ∃ revision diagnostics diff validation,
    current.postWriteWorkspaceRevision = some revision ∧
    (current.diagnostics = some diagnostics ∧ diagnostics.workspaceRevision = revision ∧
      diagnostics.regressed = false) ∧
    (current.finalDiff = some diff ∧ diff.workspaceRevision = revision ∧ diff.passed = true ∧
      ∀ path, path ∈ diff.changedPaths ↔ path ∈ start.expectedSources.keys) ∧
    current.validation = some validation ∧ validation.record.revision = some revision ∧
    validation.transactionId = start.transactionId ∧ validation.record.selected = true ∧
    validation.record.denied = false ∧ validation.record.outcome = .passed

theorem Inv.completeChain (h : Inv start calls self) (hverified : self.state = .verified) :
    CompleteChain start calls self := by
  have hlevel : self.state.level = 7 := by rw [hverified]; rfl
  have hall : ∀ n < 7, Evidence start calls self n := fun n hn ↦ h.evidence n (hlevel ▸ hn)
  obtain ⟨happlied, -, revision, hrevision, hblank⟩ := hall 3 (by decide)
  obtain ⟨diagnostics, hdiagnostics, hfresh, hregressed⟩ := hall 4 (by decide)
  obtain ⟨diff, hdiff, hfresh', hpaths, hpassed⟩ := hall 5 (by decide)
  obtain ⟨validation, hvalidation, hown, hfresh'', hselected, hdenied, houtcome⟩ :=
    hall 6 (by decide)
  rw [hrevision, Option.some.injEq] at hfresh hfresh' hfresh''
  refine ⟨hall 0 (by decide), hall 1 (by decide), hall 2 (by decide), happlied,
    revision, diagnostics, diff, validation, hrevision, ⟨hdiagnostics, hfresh.symm, hregressed⟩,
    ⟨hdiff, hfresh'.symm, hpassed, fun path ↦ ?_⟩, hvalidation, ?_, hown, hselected, hdenied,
    houtcome⟩
  · rw [← hpaths, deduplicatePaths, Finset.mem_sort, List.mem_toFinset]
  · -- A validation without a revision would carry the blank one.
    cases hrecord : validation.record.revision with
    | none =>
      rw [hrecord, Option.getD_none] at hfresh''
      rw [hfresh''] at hblank
      exact absurd hblank (by decide)
    | some recorded =>
      rw [hrecord, Option.getD_some] at hfresh''
      rw [hfresh'']

/-- A transaction is verified only with the complete chain, and once it has ended no call leads back
into it. -/
theorem begin_verified {transactionId : String} {sources : List SourceRevision}
    (h : WriteTransaction.begin transactionId sources = .ok start) (calls : List Call) :
    Plans sources start ∧ start.transactionId = transactionId ∧
      ((start.after calls).state = .verified → CompleteChain start calls (start.after calls)) ∧
      ((start.after calls).state.isAwaiting = false →
        ∀ c, ((start.after calls).call c).2.state.isAwaiting = false) := by
  obtain ⟨hstate, hid, hplans⟩ := begin_spec h
  exact ⟨hplans, hid, (inv_after hstate calls).completeChain, isAwaiting_call⟩

/-- A plan for one file, and the calls of a host that carries it out. -/
def renamePlan : SourceRevision := ⟨"/a", "1", false, .clean⟩

def renameCalls : List Call :=
  [.readRevisions [renamePlan], .preview [⟨"/a", "1", "rename"⟩], .approval (.approved "yes"),
    .apply [⟨"/a", "1", some "2", true, true, none⟩] "w2", .diagnostics ⟨"d", "w2", 1, 0, 2, 2⟩,
    .finalDiff ⟨"f", "w2", ["/a"], true, none⟩,
    .validation ⟨"t", ⟨.passed, some "w2", true, false⟩⟩]

theorem begin_verified_rename : ∃ start, WriteTransaction.begin "t" [renamePlan] = .ok start ∧
    (start.after renameCalls).state = .verified ∧
    CompleteChain start renameCalls (start.after renameCalls) := by
  refine ⟨_, rfl, by decide +kernel, ?_⟩
  exact (@begin_verified _ "t" [renamePlan] rfl renameCalls).2.2.1 (by decide +kernel)

end EeEditor.Orchestrator
