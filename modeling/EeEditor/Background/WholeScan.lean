import EeEditor.Background.Reindent
import EeEditor.Editor.HeadEdit
import EeEditor.Effect.Trace

/-!
# Background reindents

The model of `WholeScanTask` in `xi-core-lib/src/whole_scan.rs` with its callers in
`event_context/editing.rs`. A reindent is computed by a worker from a snapshot of the text, while
the event loop goes on with edits, the edits of plugins, undo and redo; a later idle callback
applies the delta to whatever the text is then.

The commits of edits to the views change nothing that is read here, and a language without a parser,
for which `begin_async_reindent` starts no worker, is left out.
-/

namespace EeEditor.Background

/-- What a worker does next. -/
inductive ScanPhase where
  | unborn
  | check
  | compute
  | recheck (result : Option (Delta Char))
  | deposit (result : Option (Delta Char))
  | ended

/-- A buffer with its reindents. -/
structure WholeScan where
  editor : Editor Char
  generation : ℕ
  /-- The result slot, with the generation of the worker that filled it. -/
  slot : Option (ℕ × Option (Delta Char))
  phase : ℕ → ScanPhase
  /-- What each worker was given. -/
  requests : ℕ → ReindentRequest
  /-- The reindents whose results were polled. -/
  taken : List ℕ

namespace WholeScan

def new (editor : Editor Char) : WholeScan :=
  ⟨editor, 0, none, fun _ ↦ .unborn, fun _ ↦ ⟨[], [], "", []⟩, []⟩

inductive Event where
  | beginAsyncReindent (lineRanges : List (ℕ × ℕ)) (languageName : String) (indentStr : List Char)
  | check (worker : ℕ)
  | compute (worker : ℕ)
  | recheck (worker : ℕ)
  | deposit (worker : ℕ)
  | poll
  | edit (op : Editor.UndoOp Char) (wellFormed : op.WellFormed)
  | pluginEdit (edit : PluginEdit Char) (wellFormed : edit.delta.WellFormed)

/-- The worker is given the text as it is. The slot keeps what it holds. -/
def beginAsyncReindent (self : WholeScan) (lineRanges : List (ℕ × ℕ)) (languageName : String)
    (indentStr : List Char) : WholeScan :=
  { self with
    generation := self.generation + 1
    phase := Function.update self.phase (self.generation + 1) .check
    requests := Function.update self.requests (self.generation + 1)
      ⟨self.editor.text, lineRanges, languageName, indentStr⟩ }

def enter (self : WholeScan) (worker : ℕ) (phase : ScanPhase) : WholeScan :=
  { self with phase := Function.update self.phase worker phase }

/-- A worker that has been superseded bails. -/
def unlessSuperseded (self : WholeScan) (worker : ℕ) (phase : ScanPhase) : WholeScan :=
  self.enter worker (if self.generation ≠ worker then .ended else phase)

/-- The thread of a reindent that panics ends with nothing deposited. -/
def compute (levels : IndentationLevels) (self : WholeScan) (worker : ℕ) : WholeScan :=
  match reindent levels (self.requests worker) with
  | some result => self.enter worker (.recheck result)
  | none => self.enter worker .ended

def deposit (self : WholeScan) (worker : ℕ) (result : Option (Delta Char)) : WholeScan :=
  { self.enter worker .ended with slot := some (worker, result) }

/-- The result that `poll` takes: only one of the current generation. -/
def poll (self : WholeScan) : Option (Option (Delta Char)) :=
  match self.slot with
  | some (generation, result) => if generation = self.generation then some result else none
  | none => none

/-- The delta is applied to the text of now. -/
def applyWholeScanResult (token : RevId → RevToken) (self : WholeScan) : Option WholeScan :=
  match self.poll with
  | some (some delta) => do
    let editor ← Editor.applyDirectDelta token self.editor .other delta
    return { self with editor := editor, slot := none, taken := self.generation :: self.taken }
  | some none => some { self with slot := none, taken := self.generation :: self.taken }
  | none => some self

variable (token : RevId → RevToken) (levels : IndentationLevels)

def step (self : WholeScan) : Event → Option WholeScan
  | .beginAsyncReindent lineRanges languageName indentStr =>
    some (self.beginAsyncReindent lineRanges languageName indentStr)
  | .check worker =>
    match self.phase worker with
    | .check => some (self.unlessSuperseded worker .compute)
    | _ => none
  | .compute worker =>
    match self.phase worker with
    | .compute => some (self.compute levels worker)
    | _ => none
  | .recheck worker =>
    match self.phase worker with
    | .recheck result => some (self.unlessSuperseded worker (.deposit result))
    | _ => none
  | .deposit worker =>
    match self.phase worker with
    | .deposit result => some (self.deposit worker result)
    | _ => none
  | .poll => self.applyWholeScanResult token
  | .edit op _ => (op.exec token self.editor).map fun editor ↦ { self with editor := editor }
  | .pluginEdit edit _ =>
    (Editor.applyPluginEdit token self.editor edit).map fun (editor, _) ↦
      { self with editor := editor }

/-! ## What a run should do -/

/-- A result that is applied is applied to the text that it was computed from, and the edit does not
fail. -/
def Applies (self : WholeScan) (event : Event) : Prop :=
  ∀ delta, event = .poll → self.poll = some (some delta) →
    self.editor.text = (self.requests self.generation).text ∧
      ∃ editor, Editor.applyDirectDelta token self.editor .other delta = some editor

/-- Every result is applied to its own text, and no reindent is applied twice. -/
def AppliesToSnapshots (editor : Editor Char) (events : List Event) : Prop :=
  Throughout (step token levels) (new editor) events (Applies token) ∧
    ∀ pre post scan, events = pre ++ post → exec (step token levels) (new editor) pre = some scan →
      scan.taken.Nodup

/-- The newest reindent has been started, and its result has not been polled. -/
def Outstanding (self : WholeScan) : Prop := 0 < self.generation ∧ self.generation ∉ self.taken

/-- No edit, of the user or of a plugin, undo or redo changes the text while a reindent is
outstanding. -/
def LeavesText (self : WholeScan) : Event → Prop
  | .edit op _ => self.Outstanding →
    ∀ editor, op.exec token self.editor = some editor → editor.text = self.editor.text
  | .pluginEdit edit _ => self.Outstanding →
    ∀ editor ack, Editor.applyPluginEdit token self.editor edit = some (editor, ack) →
      editor.text = self.editor.text
  | _ => True

/-! ## The invariant -/

/-- What a worker has computed, it has computed from what it was given. A result is in one place at
a time, and the text of the newest reindent stays until its result is polled. -/
structure Inv (scan : WholeScan) : Prop where
  sound : scan.editor.Sound
  born : ∀ g, scan.phase g ≠ .unborn ↔ 0 < g ∧ g ≤ scan.generation
  recheck : ∀ g result, scan.phase g = .recheck result →
    reindent levels (scan.requests g) = some result
  deposit : ∀ g result, scan.phase g = .deposit result →
    reindent levels (scan.requests g) = some result
  slot : ∀ g result, scan.slot = some (g, result) →
    reindent levels (scan.requests g) = some result
  slot_ended : ∀ g result, scan.slot = some (g, result) → scan.phase g = .ended
  slot_new : ∀ g result, scan.slot = some (g, result) → g ∉ scan.taken
  taken_ended : ∀ g ∈ scan.taken, scan.phase g = .ended
  once : scan.taken.Nodup
  snapshot : scan.Outstanding → scan.editor.text = (scan.requests scan.generation).text

variable {token levels} {self self' : WholeScan} {event : Event} {worker : ℕ} {phase : ScanPhase}

theorem inv_new {editor : Editor Char} (h : editor.Sound) : Inv levels (new editor) where
  sound := h
  born _ := ⟨fun hne ↦ absurd rfl hne, fun hg ↦ absurd hg.1 (Nat.not_lt.mpr hg.2)⟩
  recheck := nofun
  deposit := nofun
  slot := nofun
  slot_ended := nofun
  slot_new := nofun
  taken_ended := nofun
  once := List.nodup_nil
  snapshot h := absurd h.1 (Nat.lt_irrefl 0)

theorem enter_phase (self : WholeScan) (worker : ℕ) (phase : ScanPhase) (g : ℕ) :
    (self.enter worker phase).phase g = if g = worker then phase else self.phase g :=
  Function.update_apply ..

theorem Inv.unborn (h : Inv levels self) : self.phase (self.generation + 1) = .unborn := by
  by_contra hborn
  exact absurd ((h.born _).mp hborn).2 (Nat.not_succ_le_self _)

/-- A worker that is not at its end moves on, with a result only if it has computed it. -/
theorem Inv.enter (h : Inv levels self) (hborn : self.phase worker ≠ .unborn)
    (hrunning : self.phase worker ≠ .ended) (hphase : phase ≠ .unborn)
    (hresult : ∀ result, phase = .recheck result ∨ phase = .deposit result →
      reindent levels (self.requests worker) = some result) :
    Inv levels (self.enter worker phase) := by
  have hother : ∀ g, self.phase g = .ended → (self.enter worker phase).phase g = .ended := by
    intro g hg
    rw [enter_phase, if_neg]
    · exact hg
    · rintro rfl
      exact hrunning hg
  refine { h with born := ?_, recheck := ?_, deposit := ?_, slot_ended := ?_, taken_ended := ?_ }
  · intro g
    rw [enter_phase]
    split
    · rename_i heq
      exact ⟨fun _ ↦ (h.born g).mp (heq ▸ hborn), fun _ ↦ hphase⟩
    · exact h.born g
  · intro g result hg
    rw [enter_phase] at hg
    split at hg
    · rename_i heq
      exact heq ▸ hresult result (.inl hg)
    · exact h.recheck g result hg
  · intro g result hg
    rw [enter_phase] at hg
    split at hg
    · rename_i heq
      exact heq ▸ hresult result (.inr hg)
    · exact h.deposit g result hg
  · exact fun g result hg ↦ hother g (h.slot_ended g result hg)
  · exact fun g hg ↦ hother g (h.taken_ended g hg)

theorem Inv.beginAsyncReindent (h : Inv levels self) (lineRanges : List (ℕ × ℕ))
    (languageName : String) (indentStr : List Char) :
    Inv levels (self.beginAsyncReindent lineRanges languageName indentStr) := by
  have hphase : ∀ g, (self.beginAsyncReindent lineRanges languageName indentStr).phase g =
      if g = self.generation + 1 then .check else self.phase g := fun g ↦ Function.update_apply ..
  have hold : ∀ {g}, self.phase g ≠ .unborn →
      (self.beginAsyncReindent lineRanges languageName indentStr).requests g = self.requests g ∧
        (self.beginAsyncReindent lineRanges languageName indentStr).phase g = self.phase g := by
    intro g hg
    have hne : g ≠ self.generation + 1 := by
      rintro rfl
      exact hg h.unborn
    exact ⟨Function.update_of_ne hne .., Function.update_of_ne hne ..⟩
  have hended : ∀ {g}, self.phase g = .ended →
      (self.beginAsyncReindent lineRanges languageName indentStr).phase g = .ended := by
    intro g hg
    rw [(hold (by rw [hg]; nofun)).2]
    exact hg
  refine ⟨h.sound, ?_, ?_, ?_, ?_, ?_, h.slot_new, ?_, h.once, ?_⟩
  · intro g
    rw [hphase]
    split
    · rename_i heq
      subst heq
      exact ⟨fun _ ↦ ⟨Nat.succ_pos _, Nat.le_refl _⟩, fun _ ↦ nofun⟩
    · rename_i hne
      refine (h.born g).trans (and_congr_right fun _ ↦ ?_)
      change g ≤ self.generation ↔ g ≤ self.generation + 1
      omega
  · intro g result hg
    rw [hphase] at hg
    split at hg
    · cases hg
    · rw [(hold (by rw [hg]; nofun)).1]
      exact h.recheck g result hg
  · intro g result hg
    rw [hphase] at hg
    split at hg
    · cases hg
    · rw [(hold (by rw [hg]; nofun)).1]
      exact h.deposit g result hg
  · intro g result hg
    rw [(hold (by rw [h.slot_ended g result hg]; nofun)).1]
    exact h.slot g result hg
  · exact fun g result hg ↦ hended (h.slot_ended g result hg)
  · exact fun g hg ↦ hended (h.taken_ended g hg)
  · intro _
    change self.editor.text = (Function.update self.requests (self.generation + 1)
      ⟨self.editor.text, lineRanges, languageName, indentStr⟩ (self.generation + 1)).text
    rw [Function.update_self]

theorem Inv.ends (h : Inv levels self) (hborn : self.phase worker ≠ .unborn)
    (hrunning : self.phase worker ≠ .ended) : Inv levels (self.enter worker .ended) := by
  refine h.enter hborn hrunning nofun ?_
  rintro _ (heq | heq) <;> cases heq

theorem Inv.unlessSuperseded (h : Inv levels self) (hborn : self.phase worker ≠ .unborn)
    (hrunning : self.phase worker ≠ .ended) (hphase : phase ≠ .unborn)
    (hresult : ∀ result, phase = .recheck result ∨ phase = .deposit result →
      reindent levels (self.requests worker) = some result) :
    Inv levels (self.unlessSuperseded worker phase) := by
  unfold WholeScan.unlessSuperseded
  split
  · exact h.ends hborn hrunning
  · exact h.enter hborn hrunning hphase hresult

theorem Inv.compute (h : Inv levels self) (hphase : self.phase worker = .compute) :
    Inv levels (self.compute levels worker) := by
  have hborn : self.phase worker ≠ .unborn := by rw [hphase]; nofun
  have hrunning : self.phase worker ≠ .ended := by rw [hphase]; nofun
  unfold WholeScan.compute
  split
  · rename_i result hresult
    refine h.enter hborn hrunning nofun ?_
    rintro _ (heq | heq) <;> cases heq
    exact hresult
  · exact h.ends hborn hrunning

theorem Inv.depositStep (h : Inv levels self) {result : Option (Delta Char)}
    (hphase : self.phase worker = .deposit result) :
    Inv levels (self.deposit worker result) := by
  have henter : Inv levels (self.enter worker .ended) :=
    h.ends (by rw [hphase]; nofun) (by rw [hphase]; nofun)
  refine { henter with slot := ?_, slot_ended := ?_, slot_new := ?_ }
  · rintro g result' hslot
    cases hslot
    exact h.deposit worker result hphase
  · rintro g result' hslot
    cases hslot
    exact Function.update_self ..
  · rintro g result' hslot
    cases hslot
    intro hin
    exact absurd ((h.taken_ended worker hin).symm.trans hphase) nofun

theorem poll_eq_some {result : Option (Delta Char)} :
    self.poll = some result ↔ self.slot = some (self.generation, result) := by
  unfold WholeScan.poll
  constructor
  · intro h
    split at h
    · rename_i g _ hslot
      obtain ⟨rfl, heq⟩ := Option.ite_none_right_eq_some.mp h
      cases heq
      exact hslot
    · cases h
  · intro h
    rw [h]
    exact if_pos rfl

/-- The result of the newest reindent applies to the text of now. -/
theorem Inv.applies (h : Inv levels self) (event : Event) : Applies token self event := by
  intro delta _ hpoll
  have hslot := poll_eq_some.mp hpoll
  have hborn : self.phase self.generation ≠ .unborn := by
    rw [h.slot_ended _ _ hslot]
    nofun
  have htext := h.snapshot ⟨((h.born _).mp hborn).1, h.slot_new _ _ hslot⟩
  obtain ⟨result, hreindent, hspec⟩ := reindent_spec levels (self.requests self.generation)
  obtain rfl : some delta = result :=
    Option.some.inj ((h.slot _ _ hslot).symm.trans hreindent)
  obtain ⟨hwf, hlen⟩ := hspec delta rfl
  exact ⟨htext, h.sound.applyDirectDelta .other hwf (by rw [hlen, htext])⟩

/-- A result that was polled is not polled again. -/
theorem Inv.take (h : Inv levels self) {result : Option (Delta Char)}
    (hpoll : self.poll = some result) {editor : Editor Char} (hsound : editor.Sound) :
    Inv levels { self with
      editor := editor, slot := none, taken := self.generation :: self.taken } := by
  have hslot := poll_eq_some.mp hpoll
  refine ⟨hsound, h.born, h.recheck, h.deposit, nofun, nofun, nofun, ?_, ?_, ?_⟩
  · intro g hg
    obtain rfl | hg := List.mem_cons.mp hg
    · exact h.slot_ended _ _ hslot
    · exact h.taken_ended g hg
  · exact List.nodup_cons.mpr ⟨h.slot_new _ _ hslot, h.once⟩
  · intro hout
    exact absurd List.mem_cons_self hout.2

theorem Inv.applyWholeScanResult (h : Inv levels self)
    (hs : self.applyWholeScanResult token = some self') : Inv levels self' := by
  unfold WholeScan.applyWholeScanResult at hs
  split at hs
  · rename_i delta hpoll
    obtain ⟨editor, hedit, hs⟩ := Option.bind_eq_some_iff.mp hs
    cases hs
    obtain ⟨result, hreindent, hspec⟩ := reindent_spec levels (self.requests self.generation)
    obtain rfl : some delta = result :=
      Option.some.inj ((h.slot _ _ (poll_eq_some.mp hpoll)).symm.trans hreindent)
    have hop : (Editor.UndoOp.addDelta .other delta).WellFormed := (hspec delta rfl).1
    exact h.take hpoll (h.sound.step hop hedit)
  · rename_i hpoll
    cases hs
    exact h.take hpoll h.sound
  · cases hs
    exact h

/-- An edit that leaves the text of an outstanding reindent. -/
theorem Inv.edited (h : Inv levels self) {editor : Editor Char} (hsound : editor.Sound)
    (htext : self.Outstanding → editor.text = self.editor.text) :
    Inv levels { self with editor := editor } :=
  { h with
    sound := hsound
    snapshot := fun hout ↦ (htext hout).trans (h.snapshot hout) }

theorem Inv.step (h : Inv levels self) (hleaves : LeavesText token self event)
    (hstep : self.step token levels event = some self') : Inv levels self' := by
  cases event with
  | beginAsyncReindent lineRanges languageName indentStr =>
    cases hstep
    exact h.beginAsyncReindent lineRanges languageName indentStr
  | check worker =>
    simp only [WholeScan.step] at hstep
    split at hstep
    · rename_i hphase
      cases hstep
      refine h.unlessSuperseded (by rw [hphase]; nofun) (by rw [hphase]; nofun) nofun ?_
      rintro _ (heq | heq) <;> cases heq
    · cases hstep
  | compute worker =>
    simp only [WholeScan.step] at hstep
    split at hstep
    · rename_i hphase
      cases hstep
      exact h.compute hphase
    · cases hstep
  | recheck worker =>
    simp only [WholeScan.step] at hstep
    split at hstep
    · rename_i result hphase
      cases hstep
      refine h.unlessSuperseded (by rw [hphase]; nofun) (by rw [hphase]; nofun) nofun ?_
      rintro _ (heq | heq) <;> cases heq
      exact h.recheck worker result hphase
    · cases hstep
  | deposit worker =>
    simp only [WholeScan.step] at hstep
    split at hstep
    · rename_i hphase
      cases hstep
      exact h.depositStep hphase
    · cases hstep
  | poll => exact h.applyWholeScanResult hstep
  | edit op wellFormed =>
    obtain ⟨editor, hop, rfl⟩ := Option.map_eq_some_iff.mp hstep
    exact h.edited (h.sound.step wellFormed hop) fun hout ↦ hleaves hout editor hop
  | pluginEdit edit wellFormed =>
    obtain ⟨⟨editor, ack⟩, hedit, rfl⟩ := Option.map_eq_some_iff.mp hstep
    exact h.edited (h.sound.applyPluginEdit wellFormed hedit)
      fun hout ↦ hleaves hout editor ack hedit

/-- **A reindent is applied only to its own text** in every run where no edit, undo or redo changes
the text between the start of a reindent and the poll of its result. -/
theorem appliesToSnapshots {text : List Char} {editor : Editor Char}
    (hstart : Editor.withText token text = some editor) {events : List Event}
    (hleaves : Throughout (step token levels) (new editor) events (LeavesText token)) :
    AppliesToSnapshots token levels editor events := by
  have hinv : ∀ {pre scan}, Throughout (step token levels) (new editor) pre (LeavesText token) →
      exec (step token levels) (new editor) pre = some scan → Inv levels scan := fun hpre hrun ↦
    exec_invariant (fun _ _ _ h hP hstep ↦ h.step hP hstep)
      (inv_new (Editor.sound_withText hstart)) hpre hrun
  constructor
  · rintro pre event post scan rfl hrun
    exact (hinv hleaves.of_append hrun).applies event
  · rintro pre post scan rfl hrun
    exact (hinv hleaves.of_append hrun).once

/-! ## An edit in between -/

/-- A block of three lines, the second of which is to be indented. -/
def blockLevels : IndentationLevels := fun _ _ _ ↦ some [0, 1, 0]

/-- A reindent of the block up to the poll of its result. -/
def reindentBlock : List Event :=
  [.beginAsyncReindent [(0, 2)] "rust" [' ', ' '], .check 1, .compute 1, .recheck 1, .deposit 1]

def typeAtStart : Event := .edit (.addDelta .insertChars (.simpleEdit 0 0 ['x'] 5)) (by
  change Delta.WellFormed _
  decide)

/-- A character typed before the reindent is started does no harm. -/
theorem appliesToSnapshots_typed : ∃ editor, Editor.withText RevId.num ['{', '\n', 'b', '\n', '}'] =
    some editor ∧ AppliesToSnapshots RevId.num blockLevels editor
      (typeAtStart :: reindentBlock ++ [.poll]) := by
  obtain ⟨editor, heditor⟩ :
      ∃ editor, Editor.withText RevId.num ['{', '\n', 'b', '\n', '}'] = some editor :=
    ⟨_, rfl⟩
  refine ⟨editor, heditor, appliesToSnapshots heditor (throughout_cons ?_ fun scan _ ↦ ?_)⟩
  · exact fun hout ↦ absurd hout.1 (Nat.lt_irrefl 0)
  · apply throughout_of_forall
    intro scan
    simp [reindentBlock, LeavesText]

/-- A reindent is polled after the user has typed a character: its delta does not fit the text, and
the edit of the engine fails. -/
theorem typing_before_poll_fails : ¬ ∀ (text : List Char) (editor : Editor Char)
    (events : List Event), Editor.withText RevId.num text = some editor →
      AppliesToSnapshots RevId.num blockLevels editor events := by
  intro h
  obtain ⟨editor, heditor, scan, hrun, hpoll, hfails⟩ :
      ∃ editor ∈ Editor.withText RevId.num ['{', '\n', 'b', '\n', '}'],
      ∃ scan ∈ exec (step RevId.num blockLevels) (new editor) (reindentBlock ++ [typeAtStart]),
        scan.poll = some (some ⟨[.copy 0 2, .insert [' ', ' '], .copy 2 5], 5⟩) ∧
        (Editor.applyDirectDelta RevId.num scan.editor .other
          ⟨[.copy 0 2, .insert [' ', ' '], .copy 2 5], 5⟩).isNone := by
    decide +kernel
  have happlies := (h _ editor (reindentBlock ++ [typeAtStart] ++ [.poll]) heditor).1
  obtain ⟨-, editor', hedit⟩ := happlies _ .poll [] scan rfl hrun _ rfl hpoll
  rw [hedit] at hfails
  cases hfails

end WholeScan

end EeEditor.Background
