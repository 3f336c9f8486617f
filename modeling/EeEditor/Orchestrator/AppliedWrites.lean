import EeEditor.Orchestrator.WriteTransaction

/-!
# What a blocked transaction shows of its writes

`record_apply` scans the outcomes that the host reports. It keeps what it scanned when an outcome
says that a write failed, and nothing when it refuses an outcome or the revision of the workspace.
In either case the host has made the writes that come later in the list as well.
-/

namespace EeEditor.Orchestrator

open WriteTransaction

variable {sources : Std.TreeMap String SourceRevision} {outcomes before after : List AppliedWrite}
  {outcome : AppliedWrite}

/-- The outcome names a planned path at its expected revision, and no path of an outcome before. -/
def FitsPlan (sources : Std.TreeMap String SourceRevision) (before : List AppliedWrite)
    (outcome : AppliedWrite) : Prop :=
  outcome.path ∉ before.map (·.path) ∧
    ∃ source, sources[outcome.path]? = some source ∧ outcome.expectedRevision = source.revision

/-- The write was made, and its file has a revision. -/
def AppliedWrite.Succeeded (self : AppliedWrite) : Prop :=
  self.applied = true ∧ ∃ revision, self.postWriteRevision = some revision ∧ revision ≠ ""

/-- Outcomes that are scanned to their end. -/
inductive AcceptedWrites (sources : Std.TreeMap String SourceRevision) : List AppliedWrite → Prop
  | nil : AcceptedWrites sources []
  | concat {before : List AppliedWrite} {outcome : AppliedWrite}
      (accepted : AcceptedWrites sources before) (fits : FitsPlan sources before outcome)
      (succeeded : outcome.Succeeded) : AcceptedWrites sources (before ++ [outcome])

/-! ## The scan -/

/-- Outcomes are accepted up to one that does not fit the plan or failed. -/
theorem acceptedWrites_or (sources : Std.TreeMap String SourceRevision)
    (outcomes : List AppliedWrite) :
    AcceptedWrites sources outcomes ∨ ∃ before outcome after,
      outcomes = before ++ outcome :: after ∧ AcceptedWrites sources before ∧
        ¬ (FitsPlan sources before outcome ∧ outcome.Succeeded) := by
  induction outcomes using List.reverseRecOn with
  | nil => exact .inl .nil
  | append_singleton outcomes last ih =>
    rcases ih with haccepted | ⟨before, outcome, after, rfl, haccepted, hbad⟩
    · by_cases hgood : FitsPlan sources outcomes last ∧ last.Succeeded
      · exact .inl (haccepted.concat hgood.1 hgood.2)
      · exact .inr ⟨outcomes, last, [], rfl, haccepted, hgood⟩
    · exact .inr ⟨before, outcome, after ++ [last], by simp, haccepted, hbad⟩

theorem succeeded_iff : outcome.Succeeded ↔
    ¬ (!outcome.applied || outcome.postWriteRevision.all (· = "")) = true := by
  rw [AppliedWrite.Succeeded]
  cases outcome.applied <;> cases outcome.postWriteRevision <;> simp

theorem checkApplies_cons (hfits : FitsPlan sources before outcome) :
    checkApplies sources (outcome :: after) (before.map (·.path)).reverse before =
      if (!outcome.applied || outcome.postWriteRevision.all (· = "")) = true then
        .stopped (before ++ [outcome])
      else checkApplies sources after ((before ++ [outcome]).map (·.path)).reverse
        (before ++ [outcome]) := by
  obtain ⟨hnew, source, hsource, hrevision⟩ := hfits
  have hseen : (before.map (·.path)).reverse.contains outcome.path = false := by
    simpa using hnew
  simp only [checkApplies, hsource, hseen, hrevision, Bool.false_eq_true, ne_eq, not_true,
    if_false]
  simp

theorem checkApplies_accepted (haccepted : AcceptedWrites sources before)
    (after : List AppliedWrite) : checkApplies sources (before ++ after) [] [] =
      checkApplies sources after (before.map (·.path)).reverse before := by
  induction haccepted generalizing after with
  | nil => rfl
  | concat haccepted hfits hsucceeded ih =>
    rw [List.append_assoc, List.singleton_append, ih, checkApplies_cons hfits,
      if_neg (succeeded_iff.mp hsucceeded)]

theorem checkApplies_failed (haccepted : AcceptedWrites sources before)
    (hfits : FitsPlan sources before outcome) (hfailed : ¬ outcome.Succeeded) :
    checkApplies sources (before ++ outcome :: after) [] [] = .stopped (before ++ [outcome]) := by
  rw [checkApplies_accepted haccepted, checkApplies_cons hfits,
    if_pos (not_not.mp (mt succeeded_iff.mpr hfailed))]

theorem checkApplies_refused (haccepted : AcceptedWrites sources before)
    (hfits : ¬ FitsPlan sources before outcome) (after : List AppliedWrite) :
    ∃ code message, checkApplies sources (before ++ outcome :: after) [] [] =
      .rejected code message := by
  rw [checkApplies_accepted haccepted, checkApplies]
  cases hsource : sources[outcome.path]? with
  | none => exact ⟨_, _, rfl⟩
  | some source =>
    by_cases hseen : (before.map (·.path)).reverse.contains outcome.path
    · exact ⟨_, _, if_pos hseen⟩
    · by_cases hrevision : outcome.expectedRevision = source.revision
      · refine absurd ⟨?_, source, hsource, hrevision⟩ hfits
        simpa using hseen
      · refine ⟨"stale_revision", "apply for " ++ outcome.path
          ++ " used a stale or conflicting source revision", ?_⟩
        dsimp only
        rw [if_neg hseen, if_pos hrevision]

/-! ## What the record shows -/

/-- Every outcome that wrote a planned path is in the record, and its path among those changed. -/
def WriteTransaction.Shows (t : WriteTransaction) (outcomes : List AppliedWrite) : Prop :=
  ∀ outcome ∈ outcomes, outcome.path ∈ t.expectedSources → outcome.applied = true →
    outcome ∈ t.applies ∧ outcome.path ∈ t.changedPaths

/-- When the list or the revision is refused, the record already shows what was written. When the
scan stops at a failed outcome, nothing else was written after it. -/
structure Scannable (t : WriteTransaction) (outcomes : List AppliedWrite) (revision : String) :
    Prop where
  refused : (isBlank revision = true ∨ ∃ before outcome after,
    outcomes = before ++ outcome :: after ∧ AcceptedWrites t.expectedSources before ∧
      ¬ FitsPlan t.expectedSources before outcome) → t.Shows outcomes
  failed : isBlank revision = false → ∀ before outcome after,
    outcomes = before ++ outcome :: after → AcceptedWrites t.expectedSources before →
      FitsPlan t.expectedSources before outcome → ¬ outcome.Succeeded →
        ∀ other ∈ after, other.path ∈ t.expectedSources → other.applied = true →
          other ∈ before ++ [outcome]

variable {t : WriteTransaction} {revision : String}

theorem shows_block (t : WriteTransaction) (code message : String) (outcomes : List AppliedWrite) :
    (t.block code message).2.Shows outcomes ↔ t.Shows outcomes := Iff.rfl

theorem shows_withApplies {applied : List AppliedWrite} :
    (t.withApplies applied).Shows outcomes ↔ ∀ outcome ∈ outcomes,
      outcome.path ∈ t.expectedSources → outcome.applied = true → outcome ∈ applied := by
  refine forall₄_congr fun outcome _ _ happlied ↦ and_iff_left_of_imp fun hmem ↦ ?_
  exact List.mem_map_of_mem (List.mem_filter.mpr ⟨hmem, happlied⟩)

/-- A refused call leaves of the record what it was. -/
theorem shows_refused (hstate : t.state = .awaitingApply)
    (hrefused : isBlank revision = true ∨ ∃ before outcome after,
      outcomes = before ++ outcome :: after ∧ AcceptedWrites t.expectedSources before ∧
        ¬ FitsPlan t.expectedSources before outcome) :
    (t.recordApply outcomes revision).2.Shows outcomes ↔ t.Shows outcomes := by
  rw [WriteTransaction.recordApply, if_neg (not_not_intro hstate)]
  by_cases hblank : isBlank revision = true
  · rw [if_pos hblank, shows_block]
  · obtain ⟨before, outcome, after, rfl, haccepted, hfits⟩ := hrefused.resolve_left hblank
    obtain ⟨code, message, hcheck⟩ := checkApplies_refused haccepted hfits after
    rw [if_neg hblank, hcheck]
    exact shows_block t code message _

theorem shows_failed (hstate : t.state = .awaitingApply) (hblank : isBlank revision = false)
    (haccepted : AcceptedWrites t.expectedSources before)
    (hfits : FitsPlan t.expectedSources before outcome) (hfailed : ¬ outcome.Succeeded) :
    (t.recordApply (before ++ outcome :: after) revision).2.Shows (before ++ outcome :: after) ↔
      ∀ other ∈ after, other.path ∈ t.expectedSources → other.applied = true →
        other ∈ before ++ [outcome] := by
  rw [WriteTransaction.recordApply, if_neg (not_not_intro hstate), hblank,
    if_neg Bool.false_ne_true, checkApplies_failed haccepted hfits hfailed]
  dsimp only
  rw [shows_block, shows_withApplies]
  refine ⟨fun h other hother ↦ h other (by simp [hother]), fun h other hother hpath happlied ↦ ?_⟩
  rw [← List.singleton_append, ← List.append_assoc] at hother
  rcases List.mem_append.mp hother with hkept | hafter
  · exact hkept
  · exact h other hafter hpath happlied

theorem shows_accepted (hstate : t.state = .awaitingApply) (hblank : isBlank revision = false)
    (haccepted : AcceptedWrites t.expectedSources outcomes) :
    (t.recordApply outcomes revision).2.Shows outcomes := by
  have hcheck := checkApplies_accepted haccepted []
  rw [List.append_nil, checkApplies] at hcheck
  rw [WriteTransaction.recordApply, if_neg (not_not_intro hstate), hblank,
    if_neg Bool.false_ne_true, hcheck]
  dsimp only
  split
  · rw [shows_block, shows_withApplies]
    exact fun outcome hmem _ _ ↦ hmem
  · exact fun outcome hmem hpath _ ↦ ⟨hmem, Std.TreeMap.mem_keys.mpr hpath⟩

/-- `record_apply` forgets no write that was made exactly when what it refuses wrote nothing and
nothing was written after the outcome that failed. -/
theorem recordApply_shows_iff (t : WriteTransaction) (outcomes : List AppliedWrite)
    (revision : String) (hstate : t.state = .awaitingApply) :
    (t.recordApply outcomes revision).2.Shows outcomes ↔ Scannable t outcomes revision := by
  constructor
  · refine fun hshows ↦ ⟨fun hrefused ↦ (shows_refused hstate hrefused).mp hshows, ?_⟩
    rintro hblank before outcome after rfl haccepted hfits hfailed
    exact (shows_failed hstate hblank haccepted hfits hfailed).mp hshows
  · intro h
    by_cases hblank : isBlank revision = true
    · exact (shows_refused hstate (.inl hblank)).mpr (h.refused (.inl hblank))
    · have hblank : isBlank revision = false := Bool.eq_false_iff.mpr hblank
      rcases acceptedWrites_or t.expectedSources outcomes with
        haccepted | ⟨before, outcome, after, rfl, haccepted, hbad⟩
      · exact shows_accepted hstate hblank haccepted
      · by_cases hfits : FitsPlan t.expectedSources before outcome
        · have hfailed : ¬ outcome.Succeeded := fun hsucceeded ↦ hbad ⟨hfits, hsucceeded⟩
          refine (shows_failed hstate hblank haccepted hfits hfailed).mpr ?_
          exact h.failed hblank before outcome after rfl haccepted hfits hfailed
        · have hrefused : ∃ pre bad post, before ++ outcome :: after = pre ++ bad :: post ∧
              AcceptedWrites t.expectedSources pre ∧ ¬ FitsPlan t.expectedSources pre bad :=
            ⟨before, outcome, after, rfl, haccepted, hfits⟩
          exact (shows_refused hstate (.inr hrefused)).mpr (h.refused (.inr hrefused))

/-- A transaction for one file, ready to be applied. -/
def onePathPlan : WriteTransaction :=
  ⟨"t", .awaitingApply, (∅ : Std.TreeMap String SourceRevision).insert "/a"
    ⟨"/a", "1", false, .clean⟩,
    [], some (.approved "yes"), [], none, none, none, none, none, none⟩

/-- The write that was planned. -/
def plannedWrite : AppliedWrite := ⟨"/a", "1", some "2", true, true, none⟩

theorem plannedWrite_fits : FitsPlan onePathPlan.expectedSources [] plannedWrite :=
  ⟨List.not_mem_nil, ⟨"/a", "1", false, .clean⟩, rfl, rfl⟩

theorem eq_of_singleton {l l' : List AppliedWrite} {a b : AppliedWrite} (h : [a] = l ++ b :: l') :
    l = [] ∧ b = a ∧ l' = [] := by
  rcases List.singleton_eq_append_iff.mp h with ⟨rfl, hrest⟩ | ⟨-, hrest⟩
  · obtain ⟨rfl, rfl⟩ := List.cons.inj hrest
    exact ⟨rfl, rfl, rfl⟩
  · cases hrest

/-- The record shows the write: it is no failed one, and nothing comes after it. -/
theorem recordApply_shows_onePath : plannedWrite.path ∈ onePathPlan.expectedSources ∧
    plannedWrite ∈ (onePathPlan.recordApply [plannedWrite] "w2").2.applies ∧
    plannedWrite.path ∈ (onePathPlan.recordApply [plannedWrite] "w2").2.changedPaths := by
  have hplanned : plannedWrite.path ∈ onePathPlan.expectedSources := by decide +kernel
  have hblank : isBlank "w2" = false := rfl
  have hscannable : Scannable onePathPlan [plannedWrite] "w2" := by
    constructor
    · rintro (hrefused | ⟨before, outcome, after, heq, -, hfits⟩)
      · rw [hblank] at hrefused
        cases hrefused
      · obtain ⟨rfl, rfl, rfl⟩ := eq_of_singleton heq
        exact absurd plannedWrite_fits hfits
    · rintro - before outcome after heq - - - other hother
      obtain ⟨rfl, rfl, rfl⟩ := eq_of_singleton heq
      cases hother
  exact ⟨hplanned, (recordApply_shows_iff onePathPlan [plannedWrite] "w2" rfl).mpr hscannable
    plannedWrite List.mem_cons_self hplanned rfl⟩

/-- The write to the planned file is forgotten because another path follows it. -/
theorem recordApply_forgets : ¬ ∀ (t : WriteTransaction) (outcomes : List AppliedWrite)
    (revision : String), t.state = .awaitingApply →
      (t.recordApply outcomes revision).2.Shows outcomes := by
  intro h
  have hshows := h onePathPlan [plannedWrite, ⟨"/b", "1", some "2", true, true, none⟩] "w2" rfl
    _ List.mem_cons_self (by decide +kernel) rfl
  exact absurd hshows (by decide)

end EeEditor.Orchestrator
