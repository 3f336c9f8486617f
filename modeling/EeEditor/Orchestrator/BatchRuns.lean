import EeEditor.Orchestrator.ParallelTools

/-!
# Runs of a batch fill every slot

What has been written, what is awaited and what is left to run make up the order of the graph in
every state of a run, so that each slot is written once. A group has one member or only reads.
-/

namespace EeEditor.Orchestrator

open Function

variable {J τ : Type} {planned : List (PlannedTool J)} {n : ℕ}

/-! ## Phases of a wave -/

def Phase.group : Phase n → List (Fin n)
  | .execute group => group
  | _ => []

theorem flatMap_group_started (wave : List (Fin n)) :
    (wave.map Phase.started).flatMap Phase.group = [] := by
  simp [List.flatMap_eq_nil_iff, Phase.group]

theorem flatMap_group_finished (wave : List (Fin n)) :
    (wave.map Phase.finished).flatMap Phase.group = [] := by
  simp [List.flatMap_eq_nil_iff, Phase.group]

theorem flatMap_group_execute (groups : List (List (Fin n))) :
    (groups.map Phase.execute).flatMap Phase.group = groups.flatten := by
  rw [List.flatMap_map, List.flatMap_def]
  exact congrArg List.flatten (List.map_id' groups)

theorem flatten_chunksWith {size : ℕ} (hsize : 0 < size) (fuel : ℕ) (wave : List (Fin n))
    (hfuel : wave.length ≤ fuel) : (chunksWith size fuel wave).flatten = wave := by
  induction fuel generalizing wave with
  | zero => rw [List.length_eq_zero_iff.mp (Nat.le_zero.mp hfuel)]; rfl
  | succ fuel ih =>
    cases wave with
    | nil => rfl
    | cons index wave =>
      rw [chunksWith, List.flatten_cons, ih, List.take_append_drop]
      rw [List.length_drop, List.length_cons] at *
      omega

variable (planned) in
/-- The calls of a group may be under way at the same time. -/
def Together (group : List (Fin planned.length)) : Prop :=
  group.length ≤ 1 ∨ ∀ i ∈ group, (planned.get i).definition.sideEffectClass = .read

theorem mem_of_mem_flatten_chunks {size : ℕ} (hsize : 0 < size) {wave group : List (Fin n)}
    (hgroup : group ∈ chunksWith size wave.length wave) {i : Fin n} (hi : i ∈ group) :
    i ∈ wave := by
  rw [← flatten_chunksWith hsize wave.length wave le_rfl]
  exact List.mem_flatten.mpr ⟨group, hgroup, hi⟩

theorem groups_spec {runner : ParallelToolRunner} (hpos : 0 < runner.maxParallel)
    (wave : List (Fin planned.length)) :
    ∃ groups, runner.groups planned wave = some groups ∧ groups.flatten = wave ∧
      ∀ group ∈ groups, Together planned group := by
  by_cases hread : readOnlyWave planned wave ∧ wave.length > 1
  · refine ⟨chunksWith runner.maxParallel wave.length wave, ?_,
      flatten_chunksWith hpos wave.length wave le_rfl, fun group hgroup ↦ .inr fun i hi ↦ ?_⟩
    · rw [ParallelToolRunner.groups, if_pos hread, chunks, if_neg hpos.ne']
    · have hall := List.all_eq_true.mp hread.1 i (mem_of_mem_flatten_chunks hpos hgroup hi)
      exact of_decide_eq_true hall
  · refine ⟨wave.map ([·]), by rw [ParallelToolRunner.groups, if_neg hread], ?_, ?_⟩
    · rw [← List.flatMap_def, List.flatMap_singleton']
    · intro group hgroup
      obtain ⟨i, -, rfl⟩ := List.mem_map.mp hgroup
      exact .inl le_rfl

variable (planned) in
/-- The phases run the indices of the order, in groups that may be under way together. -/
structure PhasesOf (order : List (Fin planned.length)) (phases : List (Phase planned.length)) :
    Prop where
  groups : phases.flatMap Phase.group = order
  together : ∀ group, .execute group ∈ phases → Together planned group

theorem exists_phases {runner : ParallelToolRunner} (hpos : 0 < runner.maxParallel)
    (wave : List (Fin planned.length)) :
    ∃ phases, runner.phases planned wave = some phases ∧ PhasesOf planned wave phases := by
  obtain ⟨groups, hgroups, hflatten, htogether⟩ := groups_spec hpos wave
  refine ⟨_, by rw [ParallelToolRunner.phases, hgroups]; rfl, ?_, fun group hgroup ↦ ?_⟩
  · rw [List.flatMap_append, List.flatMap_append, flatMap_group_started, flatMap_group_execute,
      flatMap_group_finished, hflatten, List.nil_append, List.append_nil]
  · exact htogether group (by simpa using hgroup)

theorem exists_phases_waves {runner : ParallelToolRunner} (hpos : 0 < runner.maxParallel)
    (waves : List (List (Fin planned.length))) :
    ∃ phases, waves.mapM (runner.phases planned) = some phases ∧
      PhasesOf planned waves.flatten phases.flatten := by
  induction waves with
  | nil => exact ⟨[], rfl, rfl, by simp⟩
  | cons wave waves ih =>
    obtain ⟨first, hfirst, h₁⟩ := exists_phases hpos wave
    obtain ⟨rest, hrest, h₂⟩ := ih
    refine ⟨first :: rest, by simp [hfirst, hrest], ?_, fun group hgroup ↦ ?_⟩
    · rw [List.flatten_cons, List.flatten_cons, List.flatMap_append, h₁.groups, h₂.groups]
    · rcases List.mem_append.mp (List.flatten_cons ▸ hgroup) with hgroup | hgroup
      · exact h₁.together group hgroup
      · exact h₂.together group hgroup

/-! ## The invariant -/

def BatchRun.group (self : BatchRun n τ) : List (Fin n) := (self.awaited.map (·.group)).getD []

structure Awaited.Sound (a : Awaited n τ) : Prop where
  sublist : a.running.Sublist a.group
  outcomes : ∀ i ∈ a.group, i ∈ a.running ∨ (a.outcomes i).isSome

variable (planned) in
structure BatchRun.Sound (order : List (Fin planned.length)) (s : BatchRun planned.length τ) :
    Prop where
  slots : s.writes ++ s.group ++ s.todo.flatMap Phase.group = order
  filled : ∀ i ∈ s.writes, (s.results i).isSome
  together : ∀ group, .execute group ∈ s.todo → Together planned group
  awaited : ∀ awaited ∈ s.awaited, awaited.Sound ∧ Together planned awaited.group

theorem BatchRun.sound_start {order : List (Fin planned.length)}
    {phases : List (Phase planned.length)} (h : PhasesOf planned order phases) :
    BatchRun.Sound (τ := τ) planned order (.start phases) where
  slots := h.groups
  filled := by simp [BatchRun.start]
  together := h.together
  awaited := by simp [BatchRun.start]

theorem Awaited.Sound.complete {awaited : Awaited n τ} (h : awaited.Sound) (index : Fin n)
    (outcome : ToolOutcome τ) : (awaited.complete index outcome).Sound where
  sublist := List.erase_sublist.trans h.sublist
  outcomes i hi := by
    by_cases heq : i = index
    · exact .inr (by simp [Awaited.complete, heq])
    · refine (h.outcomes i hi).imp (fun hrun ↦ ?_) fun hsome ↦ ?_
      · exact (List.mem_erase_of_ne heq).mpr hrun
      · simpa [Awaited.complete, heq] using hsome

theorem foldl_update_apply {α β : Type*} [DecidableEq α] (f g : α → β) (l : List α) (i : α) :
    l.foldl (fun f i ↦ update f i (g i)) f i = if i ∈ l then g i else f i := by
  induction l generalizing f with
  | nil => simp
  | cons j l ih =>
    rw [List.foldl_cons, ih]
    by_cases hi : i ∈ l
    · simp [hi]
    · by_cases hj : i = j <;> simp [hi, hj]

theorem BatchRun.results_collect (s : BatchRun n τ) (awaited : Awaited n τ) (i : Fin n) :
    (s.collect awaited).results i = if i ∈ awaited.group then awaited.outcomes i else s.results i :=
  foldl_update_apply s.results awaited.outcomes awaited.group i

variable {order : List (Fin planned.length)} {s s' : BatchRun planned.length τ}
  {events : List (BatchStep planned.length τ)} {e : BatchStep planned.length τ}
  {phases : List (Phase planned.length)}

theorem BatchRun.Sound.collect (h : s.Sound planned order) {awaited : Awaited planned.length τ}
    (hawaited : s.awaited = some awaited) (hrunning : awaited.running = []) :
    (s.collect awaited).Sound planned order where
  slots := by
    have hslots := h.slots
    rw [BatchRun.group, hawaited] at hslots
    simpa [BatchRun.collect, BatchRun.group] using hslots
  filled i hi := by
    rw [BatchRun.results_collect]
    by_cases hgroup : i ∈ awaited.group
    · rw [if_pos hgroup]
      refine ((h.awaited awaited hawaited).1.outcomes i hgroup).resolve_left ?_
      simp [hrunning]
    · rw [if_neg hgroup]
      exact h.filled i ((List.mem_append.mp hi).resolve_right hgroup)
  together := h.together
  awaited := by simp [BatchRun.collect]

theorem BatchRun.Sound.step (h : s.Sound planned order)
    (hstep : s.step planned e = some s') : s'.Sound planned order := by
  cases e with
  | complete index outcome =>
    rw [BatchRun.step] at hstep
    split at hstep
    · rename_i awaited hawaited
      split at hstep
      · cases hstep
        obtain ⟨hsound, htogether⟩ := h.awaited awaited hawaited
        refine ⟨?_, h.filled, h.together, ?_⟩
        · have hslots := h.slots
          rw [BatchRun.group, hawaited] at hslots
          exact hslots
        · rintro _ ⟨⟩
          exact ⟨hsound.complete index outcome, htogether⟩
      · cases hstep
    · cases hstep
  | proceed =>
    rw [BatchRun.step, BatchRun.proceed] at hstep
    have hslots := h.slots
    have htogether := h.together
    split at hstep
    case h_1 awaited hawaited =>
      split at hstep
      case isTrue hrunning =>
        cases hstep
        exact h.collect hawaited hrunning
      case isFalse => cases hstep
    case h_2 index todo hawaited htodo =>
      cases hstep
      rw [htodo] at hslots htogether
      exact ⟨hslots, h.filled, fun group hmem ↦ htogether group (.tail _ hmem), h.awaited⟩
    case h_3 group todo hawaited htodo =>
      cases hstep
      rw [htodo] at hslots htogether
      refine ⟨?_, h.filled, fun group hmem ↦ htogether group (.tail _ hmem), ?_⟩
      · rw [BatchRun.group, hawaited] at hslots
        simpa [BatchRun.group, Phase.group] using hslots
      · rintro _ ⟨⟩
        exact ⟨⟨.refl group, fun i hi ↦ .inl hi⟩, htogether group (.head _)⟩
    case h_4 index todo hawaited htodo =>
      cases hstep
      rw [htodo] at hslots htogether
      exact ⟨hslots, h.filled, fun group hmem ↦ htogether group (.tail _ hmem), h.awaited⟩
    case h_5 => cases hstep

theorem BatchRun.Sound.exec (h : s.Sound planned order)
    (hrun : exec (BatchRun.step planned) s events = some s') : s'.Sound planned order := by
  refine exec_invariant (P := fun _ _ ↦ True) (fun _ _ _ hs _ ↦ hs.step) h ?_ hrun
  exact throughout_of_forall fun _ _ _ ↦ trivial

/-! ## What is in the slots -/

/-- What a slot or a group under way holds is what the call completed with. -/
structure BatchRun.HoldsCompleted (s : BatchRun n τ) (events : List (BatchStep n τ)) : Prop where
  /-- A slot that was written. -/
  results : ∀ i outcome, s.results i = some outcome → .complete i outcome ∈ events
  /-- A call of the group under way. -/
  outcomes : ∀ awaited ∈ s.awaited, ∀ i outcome, awaited.outcomes i = some outcome →
    .complete i outcome ∈ events

theorem BatchRun.holdsCompleted_start (phases : List (Phase n)) :
    (BatchRun.start (τ := τ) phases).HoldsCompleted [] where
  results _ _ h := by cases h
  outcomes _ h := by cases h

theorem BatchRun.HoldsCompleted.mono {s : BatchRun n τ} {events : List (BatchStep n τ)}
    (h : s.HoldsCompleted events) (e : BatchStep n τ) : s.HoldsCompleted (events ++ [e]) where
  results i outcome hi := List.mem_append_left _ (h.results i outcome hi)
  outcomes awaited ha i outcome hi :=
    List.mem_append_left _ (h.outcomes awaited ha i outcome hi)

theorem BatchRun.HoldsCompleted.step (h : s.HoldsCompleted events)
    (hstep : s.step planned e = some s') : s'.HoldsCompleted (events ++ [e]) := by
  have hmono := h.mono e
  cases e with
  | complete index outcome =>
    rw [BatchRun.step] at hstep
    split at hstep
    · rename_i awaited hawaited
      split at hstep
      · cases hstep
        refine ⟨hmono.results, ?_⟩
        rintro _ ⟨⟩ i outcome' hi
        by_cases heq : i = index
        · subst heq
          obtain rfl : outcome = outcome' := by simpa [Awaited.complete] using hi
          exact List.mem_append_right _ (List.mem_singleton_self _)
        · refine hmono.outcomes awaited hawaited i outcome' ?_
          simpa [Awaited.complete, heq] using hi
      · cases hstep
    · cases hstep
  | proceed =>
    rw [BatchRun.step, BatchRun.proceed] at hstep
    split at hstep
    case h_1 awaited hawaited =>
      split at hstep
      case isTrue hrunning =>
        cases hstep
        refine ⟨fun i outcome hi ↦ ?_, fun _ ha ↦ by cases ha⟩
        rw [BatchRun.results_collect] at hi
        split_ifs at hi
        · exact hmono.outcomes awaited hawaited i outcome hi
        · exact hmono.results i outcome hi
      case isFalse => cases hstep
    case h_3 group todo hawaited htodo =>
      cases hstep
      refine ⟨hmono.results, ?_⟩
      rintro _ ⟨⟩ i outcome hi
      cases hi
    case h_5 => cases hstep
    all_goals
      cases hstep
      exact ⟨hmono.results, hmono.outcomes⟩

theorem BatchRun.HoldsCompleted.exec
    (hrun : EeEditor.exec (BatchRun.step planned) (.start phases) events = some s) :
    s.HoldsCompleted events := by
  induction events using List.reverseRecOn generalizing s with
  | nil =>
    cases hrun
    exact BatchRun.holdsCompleted_start phases
  | append_singleton events e ih =>
    obtain ⟨t, ht, hlast⟩ := exec_concat_eq_some.mp hrun
    exact (ih ht).step hlast

/-! ## What is left of a run -/

def Phase.cost : Phase n → ℕ
  | .execute group => group.length + 2
  | _ => 1

/-- The steps that are left. -/
def BatchRun.left (self : BatchRun n τ) : ℕ :=
  (self.todo.map Phase.cost).sum + (self.awaited.map (·.running.length + 1)).getD 0

theorem BatchRun.left_step (hstep : s.step planned e = some s') :
    s'.left + 1 = s.left := by
  cases e with
  | complete index outcome =>
    rw [BatchRun.step] at hstep
    split at hstep
    · rename_i awaited hawaited
      split at hstep
      · rename_i hmem
        cases hstep
        have herase := List.length_erase_of_mem hmem
        have hpos := List.length_pos_of_mem hmem
        simp only [BatchRun.left, hawaited, Awaited.complete, Option.map_some, Option.getD_some]
        omega
      · cases hstep
    · cases hstep
  | proceed =>
    rw [BatchRun.step, BatchRun.proceed] at hstep
    split at hstep
    case h_1 awaited hawaited =>
      split at hstep
      case isTrue hrunning =>
        cases hstep
        simp [BatchRun.left, BatchRun.collect, hawaited, hrunning]
      case isFalse => cases hstep
    case h_2 index todo hawaited htodo =>
      cases hstep
      simp only [BatchRun.left, hawaited, htodo, List.map_cons, List.sum_cons, Phase.cost]
      omega
    case h_3 group todo hawaited htodo =>
      cases hstep
      simp only [BatchRun.left, hawaited, htodo, List.map_cons, List.sum_cons, Phase.cost,
        Option.map_some, Option.map_none, Option.getD_some, Option.getD_none]
      omega
    case h_4 index todo hawaited htodo =>
      cases hstep
      simp only [BatchRun.left, hawaited, htodo, List.map_cons, List.sum_cons, Phase.cost]
      omega
    case h_5 => cases hstep

theorem BatchRun.left_exec (hrun : EeEditor.exec (BatchRun.step planned) s events = some s') :
    s'.left + events.length = s.left := by
  induction events using List.reverseRecOn generalizing s' with
  | nil =>
    cases hrun
    rfl
  | append_singleton events e ih =>
    obtain ⟨t, ht, hlast⟩ := exec_concat_eq_some.mp hrun
    have hleft := BatchRun.left_step hlast
    have := ih ht
    rw [List.length_append, List.length_singleton]
    omega

/-- A run goes on until it returns, as soon as the calls under way complete. -/
theorem BatchRun.exists_step (s : BatchRun planned.length τ) :
    s.done ∨ ∃ e s', s.step planned e = some s' := by
  cases hawaited : s.awaited with
  | some awaited =>
    cases hrunning : awaited.running with
    | nil => exact .inr ⟨.proceed, s.collect awaited, by simp [step, proceed, hawaited, hrunning]⟩
    | cons i _ =>
      refine .inr ⟨.complete i (.error (.invalidState "")),
        { s with awaited := some (awaited.complete i (.error (.invalidState ""))) }, ?_⟩
      simp [step, hawaited, hrunning]
  | none =>
    cases htodo : s.todo with
    | nil => exact .inl ⟨htodo, hawaited⟩
    | cons phase todo =>
      refine .inr ⟨.proceed, ?_⟩
      cases phase <;> exact ⟨_, by simp only [step, proceed, hawaited, htodo]; rfl⟩

/-! ## Every slot once, and no write beside another call -/

variable (planned) in
/-- Every state that the run can reach is safe, and every run fills the slots. -/
structure SafeRun (s₀ : BatchRun planned.length τ) : Prop where
  /-- A call that does not only read is the only one under way. -/
  alone : ∀ events s, EeEditor.exec (BatchRun.step planned) s₀ events = some s →
    ∀ i ∈ s.running, (planned.get i).definition.sideEffectClass ≠ .read → s.running = [i]
  /-- No slot is written twice. -/
  once : ∀ events s, EeEditor.exec (BatchRun.step planned) s₀ events = some s → s.writes.Nodup
  /-- A run that has not returned goes on. -/
  continues : ∀ events s, EeEditor.exec (BatchRun.step planned) s₀ events = some s →
    s.done ∨ ∃ e s', s.step planned e = some s'
  /-- No run goes on forever. -/
  bounded : ∀ events s, EeEditor.exec (BatchRun.step planned) s₀ events = some s →
    events.length ≤ s₀.left
  /-- At the end every slot is written, and what is returned for a call is what it completed
  with. -/
  filled : ∀ events s, EeEditor.exec (BatchRun.step planned) s₀ events = some s → s.done →
    s.writes.Perm (List.finRange planned.length) ∧ ∃ results : Fin planned.length → ToolOutcome τ,
      s.returned = some ((List.finRange planned.length).map results) ∧
        ∀ i, .complete i (results i) ∈ events

theorem BatchRun.Sound.alone (h : s.Sound planned order) {i : Fin planned.length}
    (hi : i ∈ s.running) (hclass : (planned.get i).definition.sideEffectClass ≠ .read) :
    s.running = [i] := by
  cases hawaited : s.awaited with
  | none => simp [BatchRun.running, hawaited] at hi
  | some awaited =>
    have hrunning : s.running = awaited.running := by rw [BatchRun.running, hawaited]; rfl
    rw [hrunning] at hi ⊢
    obtain ⟨hsound, hone | hread⟩ := h.awaited awaited hawaited
    · have hlength := hsound.sublist.length_le.trans hone
      obtain ⟨j, hj⟩ := List.length_eq_one_iff.mp
        (le_antisymm hlength (List.length_pos_of_mem hi))
      rw [hj] at hi ⊢
      rw [List.mem_singleton.mp hi]
    · exact absurd (hread i (hsound.sublist.subset hi)) hclass

theorem BatchRun.Sound.nodup (h : s.Sound planned order) (horder : order.Nodup) :
    s.writes.Nodup := by
  rw [← h.slots, List.append_assoc] at horder
  exact horder.of_append_left

theorem BatchRun.Sound.filled_done (h : s.Sound planned order)
    (horder : order.Perm (List.finRange planned.length)) (hdone : s.done)
    (hholds : s.HoldsCompleted events) :
    s.writes.Perm (List.finRange planned.length) ∧ ∃ results : Fin planned.length → ToolOutcome τ,
      s.returned = some ((List.finRange planned.length).map results) ∧
        ∀ i, .complete i (results i) ∈ events := by
  have hwrites : s.writes = order := by
    rw [← h.slots, BatchRun.group, hdone.1, hdone.2]
    simp
  refine ⟨hwrites ▸ horder, ?_⟩
  have hall : ∀ i, (s.results i).isSome := fun i ↦
    h.filled i (hwrites ▸ horder.symm.subset (List.mem_finRange i))
  choose f hf using fun i ↦ Option.isSome_iff_exists.mp (hall i)
  refine ⟨f, ?_, fun i ↦ hholds.results i (f i) (hf i)⟩
  rw [BatchRun.returned, funext hf]
  exact List.mapM_pure

theorem safeRun_start (horder : order.Perm (List.finRange planned.length))
    (h : PhasesOf planned order phases) :
    SafeRun planned (BatchRun.start (τ := τ) phases) := by
  have hsound := BatchRun.sound_start (τ := τ) h
  have hnodup : order.Nodup := horder.nodup_iff.mpr (List.nodup_finRange _)
  refine ⟨?_, ?_, ?_, ?_, ?_⟩
  · intro events s hrun i hi hclass
    exact (hsound.exec hrun).alone hi hclass
  · intro events s hrun
    exact (hsound.exec hrun).nodup hnodup
  · intro events s _
    exact s.exists_step
  · intro events s hrun
    exact (Nat.le_add_left _ _).trans_eq (BatchRun.left_exec hrun)
  · intro events s hrun hdone
    exact (hsound.exec hrun).filled_done horder hdone (.exec hrun)

/-! ## Every run of a batch -/

/-- A batch that is empty or cannot be planned is answered in every slot, and any other one runs. -/
inductive BatchStart.Safe (planned : List (PlannedTool J)) :
    BatchStart planned.length τ → Prop
  | returned (results : List (ToolOutcome τ)) (hlength : results.length = planned.length)
    (hnone : planned = [] ∨ Unplannable planned) : Safe planned (.returned results)
  | runs (run : BatchRun planned.length τ) (hsafe : SafeRun planned run) : Safe planned (.runs run)

theorem runBatch_safe (τ : Type) (tools : String → Option ToolDefinition) (maxParallel : ℕ)
    (intents : List (ToolIntent J)) :
    ∃ start, (ParallelToolRunner.new tools maxParallel).runBatch τ intents = some start ∧
      start.Safe ((ParallelToolRunner.new tools maxParallel).plan intents) := by
  generalize hrunner : ParallelToolRunner.new tools maxParallel = runner
  have hpos : 0 < runner.maxParallel := by
    rw [← hrunner]
    exact Nat.lt_of_lt_of_le Nat.one_pos (le_max_right maxParallel 1)
  have hlength : (runner.plan intents).length = intents.length := List.length_map _
  rw [ParallelToolRunner.runBatch]
  by_cases hnil : intents = []
  · rw [if_pos hnil]
    exact ⟨_, rfl, .returned [] (by simp [hnil, ParallelToolRunner.plan])
      (.inl (by simp [hnil, ParallelToolRunner.plan]))⟩
  · rw [if_neg hnil]
    rcases build_spec (runner.plan intents) with ⟨hbad, reason, hbuild⟩ | ⟨-, graph, hbuild, hexact⟩
    · rw [hbuild]
      exact ⟨_, rfl, .returned _ (by rw [hlength, List.length_replicate]) (.inr hbad)⟩
    · obtain ⟨phases, hphases, h⟩ := exists_phases_waves hpos graph.waves
      rw [hbuild, Option.bind_some]
      dsimp only
      rw [hphases]
      exact ⟨_, rfl, .runs _ (safeRun_start hexact.perm h)⟩

/-- Building refuses what cannot be planned and lays out everything else. -/
structure ExactBuild (planned : List (PlannedTool J)) : Prop where
  returns : ∃ result, ToolDependencyGraph.build planned = some result
  fails_iff : (∃ error, ToolDependencyGraph.build planned = some (.error error)) ↔
    Unplannable planned
  layers : ∀ graph, ToolDependencyGraph.build planned = some (.ok graph) →
    ExactLayering (Produces planned) graph.waves

/-- The waves of a planned batch layer it by its dependencies. A batch of intents never panics: each
slot is filled once, and a tool that does not only read runs alone, whatever the limit is. -/
theorem tool_waves (planned : List (PlannedTool J)) (tools : String → Option ToolDefinition)
    (maxParallel : ℕ) (intents : List (ToolIntent J)) :
    ExactBuild planned ∧
      ∃ start, (ParallelToolRunner.new tools maxParallel).runBatch τ intents = some start ∧
        start.Safe ((ParallelToolRunner.new tools maxParallel).plan intents) := by
  refine ⟨?_, runBatch_safe τ tools maxParallel intents⟩
  rcases build_spec planned with ⟨hbad, reason, hbuild⟩ | ⟨hgood, graph, hbuild, hexact⟩
  · refine ⟨⟨_, hbuild⟩, iff_of_true ⟨_, hbuild⟩ hbad, fun graph hgraph ↦ ?_⟩
    rw [hbuild] at hgraph
    cases hgraph
  · refine ⟨⟨_, hbuild⟩, iff_of_false ?_ hgood, fun graph' hgraph ↦ ?_⟩
    · rintro ⟨error, herror⟩
      rw [hbuild] at herror
      cases herror
    · rw [hbuild] at hgraph
      cases hgraph
      exact hexact

end EeEditor.Orchestrator
