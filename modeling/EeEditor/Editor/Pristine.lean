import EeEditor.Editor.Basic
import EeEditor.Engine.Saved

/-!
# Pristine buffers

`Editor::is_pristine` compares the deletions at the saved revision, as the walk back from the head
finds them, with those of the head. When the walk finds the saved text, an editor that is pristine
shows it.
-/

namespace EeEditor

variable {α : Type}

namespace Engine

variable {e : Engine α} {g : Ledger α} {p : RevId} {saved : List α}

/-- An equivalent revision has the text of the head. -/
theorem SavedAt.text_eq_of_isEquivalentRevision (h : SavedAt e g p saved) {head : RevId}
    (hhead : e.getHeadRevId = some head) (heq : e.isEquivalentRevision p head = some true) :
    e.text = saved := by
  have hrep := h.exact.represents
  obtain ⟨last, hlast, hlastid⟩ := Option.map_eq_some_iff.mp hhead
  obtain ⟨init, hinit⟩ := List.getLast?_eq_some_iff.mp hlast
  have hfind : e.findRev head = some init.length := by
    rw [findRev, hinit, ← List.append_nil (init ++ [last])]
    exact rfindIdx_append_cons init (by simp [hlastid]) (by simp)
  have hcur := (hrep.deletesFromCurUnionForIndex_eq_some_iff
    (hinit.trans (List.append_nil _).symm) _).mpr ⟨invertibleAll_nil, rfl⟩
  rw [isEquivalentRevision] at heq
  simp only [hfind, hcur, Option.bind_eq_bind, Option.map_some, Option.bind_some,
    Option.bind_eq_some_iff] at heq
  obtain ⟨s, hs, heq⟩ := heq
  have heq' := Option.some.inj heq
  rw [Bool.and_eq_true, decide_eq_true_iff] at heq'
  obtain ⟨-, rfl⟩ := heq'
  split at hs
  · cases hs
  · next ix hfind =>
    obtain ⟨pre, r, post, hrevs, rfl, hr, -⟩ := rfindIdx_eq_some hfind
    obtain ⟨s, hs, hsome⟩ := Option.map_eq_some_iff.mp hs
    obtain ⟨-, rfl⟩ := (hrep.deletesFromCurUnionForIndex_eq_some_iff hrevs s).mp hs
    have hlabel := Subset.label_inj.mp (Option.some.inj hsome)
    have hrevs' : e.revs = pre ++ r :: post := by rw [hrevs]; simp
    rw [← h.visible_eq hrevs' (of_decide_eq_true hr), visible_congr hlabel, hrep.text]
    refine visible_congr fun k hk ↦ ?_
    have hknown : known (init ++ [last]) k = true := by
      have hself := hrep.history.unionAt_self
      rw [hinit] at hself
      rw [← hself] at hk
      exact (mem_unionAt.mp hk).2
    rw [Represents.pastCount, hknown, if_pos rfl]
    rfl

end Engine

namespace Editor

/-! ## Runs -/

/-- The operations of a run. -/
inductive SaveOp (α : Type) where
  | addDelta (editType : EditType) (delta : Delta α)
  | doUndo
  | doRedo
  | applyPluginEdit (edit : PluginEdit α)
  | commitDelta
  | incrementRevsInFlight
  | decRevsInFlight
  | setPristine

/-- The deltas of an operation are well-formed. -/
def SaveOp.WellFormed : SaveOp α → Prop
  | .addDelta _ delta => delta.WellFormed
  | .applyPluginEdit edit => edit.delta.WellFormed
  | _ => True

/-- Run one operation. -/
def SaveOp.exec (token : RevId → RevToken) (ed : Editor α) : SaveOp α → Option (Editor α)
  | .addDelta editType delta => applyDirectDelta token ed editType delta
  | .doUndo => ed.doUndo
  | .doRedo => ed.doRedo
  | .applyPluginEdit edit => (Editor.applyPluginEdit token ed edit).map Prod.fst
  | .commitDelta => (Editor.commitDelta token ed).map Prod.fst
  | .incrementRevsInFlight => some ed.incrementRevsInFlight
  | .decRevsInFlight => ed.decRevsInFlight
  | .setPristine => ed.setPristine

/-- The text at the last save. -/
def SaveOp.savedText (ed' : Editor α) (saved : List α) : SaveOp α → List α
  | .setPristine => ed'.text
  | _ => saved

/-- The editors that runs of `allowed` operations lead to, with the text at the last save. -/
inductive SaveRun (token : RevId → RevToken) (allowed : Editor α → SaveOp α → Prop) :
    Editor α → List α → Prop
  | start {text : List α} {ed : Editor α} (h : withText token text = some ed) :
      SaveRun token allowed ed ed.text
  | step {ed ed' : Editor α} {saved : List α} (h : SaveRun token allowed ed saved) (op : SaveOp α)
      (hop : op.WellFormed) (hallowed : allowed ed op) (hs : op.exec token ed = some ed') :
      SaveRun token allowed ed' (op.savedText ed' saved)

/-- The operation keeps what the walk back to a revision needs: the engine records an undo, or the
undo does not matter to any edit, and a collection spares the text of the revision. -/
def SaveOp.KeepsRevision (ed : Editor α) (p : RevId) : SaveOp α → Prop
  | .doUndo => ed.curUndo > 1 → ∀ gr, ed.liveUndos[ed.curUndo - 1]? = some gr →
      ed.engine.Honest (insert gr ed.undos)
  | .doRedo => ∀ gr, ed.liveUndos[ed.curUndo]? = some gr → ed.engine.Honest (ed.undos.erase gr)
  | .decRevsInFlight => ed.revsInFlight = 1 → ed.gcUndos ≠ ∅ →
      ed.engine.GcKeepsSaved p ed.gcUndos
  | _ => True

/-- The operation keeps what the walk back to the saved revision needs. -/
def SaveOp.KeepsSaved (ed : Editor α) (op : SaveOp α) : Prop :=
  op.KeepsRevision ed ed.pristineRevId

variable {ed ed' : Editor α} {p : RevId} {saved : List α} {token : RevId → RevToken}

/-- The walk back to the revision finds the saved text. -/
structure SavedFrom (ed : Editor α) (p : RevId) (saved : List α) : Prop where
  savedAt : ∃ g, ed.engine.SavedAt g p saved
  text : ed.text = ed.engine.text

theorem saved_withText {text : List α} (h : withText token text = some ed) :
    SavedFrom ed ed.pristineRevId ed.text := by
  rw [withText, Option.bind_eq_bind, Option.bind_eq_some_iff] at h
  obtain ⟨engine, hnew, h⟩ := h
  obtain ⟨headRevId, hhead, h⟩ := Option.bind_eq_some_iff.mp h
  obtain rfl := Option.some.inj h
  obtain ⟨g, hg⟩ := Engine.exact_new hnew
  exact ⟨⟨g, hg.savedAt hhead⟩, rfl⟩

/-- Calculating a group does not touch the engine. -/
theorem calculateUndoGroup_engine {gr : ℕ} (h : ed.calculateUndoGroup = some (ed', gr)) :
    ed'.engine = ed.engine ∧ ed'.text = ed.text ∧ ed'.pristineRevId = ed.pristineRevId := by
  have hnew : calculateUndoGroup.newGroup ed = some (ed', gr) →
      ed'.engine = ed.engine ∧ ed'.text = ed.text ∧ ed'.pristineRevId = ed.pristineRevId := by
    intro h
    rw [calculateUndoGroup.newGroup, Option.bind_eq_bind, Option.bind_eq_some_iff] at h
    obtain ⟨discarded, -, h⟩ := h
    dsimp only at h
    split at h
    · obtain ⟨rfl, -⟩ := Prod.mk.inj (Option.some.inj h)
      exact ⟨rfl, rfl, rfl⟩
    · obtain ⟨oldest, -, h⟩ := Option.bind_eq_some_iff.mp h
      obtain ⟨rfl, -⟩ := Prod.mk.inj (Option.some.inj h)
      exact ⟨rfl, rfl, rfl⟩
  rw [calculateUndoGroup] at h
  split at h
  · split at h
    · obtain ⟨rfl, -⟩ := Prod.mk.inj (Option.some.inj h)
      exact ⟨rfl, rfl, rfl⟩
    · exact hnew h
  · exact hnew h

/-- An edit of the engine, based on any revision. -/
theorem SavedFrom.edited (h : SavedFrom ed p saved) {priority gr : ℕ} {base : RevToken}
    {d : Delta α}
    (hd : d.WellFormed) {engine : Engine α}
    (hok : ed.engine.tryEditRev token priority gr base d = some (.ok engine))
    (hengine : ed'.engine = engine) (htext : ed'.text = engine.getHead) :
    SavedFrom ed' p saved := by
  obtain ⟨g, hg⟩ := h.savedAt
  obtain ⟨pre, r, post, u', -, -, hed⟩ := hg.exact.represents.tryEditRev_ok hd hok
  obtain ⟨g', hg'⟩ := hg.edited hed
  exact ⟨⟨g', hengine ▸ hg'⟩, by rw [htext, hengine]; rfl⟩

theorem SavedFrom.updateUndos (h : SavedFrom ed p saved) {ed₁ : Editor α}
    (hs : ed₁.updateUndos = some ed') (hengine : ed₁.engine = ed.engine)
    (hp : ed₁.pristineRevId = ed.pristineRevId) (hhonest : ed.engine.Honest ed₁.undos) :
    SavedFrom ed' p saved ∧ ed'.pristineRevId = ed.pristineRevId := by
  obtain ⟨g, hg⟩ := h.savedAt
  rw [Editor.updateUndos, Option.bind_eq_bind, Option.bind_eq_some_iff, hengine] at hs
  obtain ⟨engine, hundo, hs⟩ := hs
  obtain rfl := Option.some.inj hs
  obtain ⟨g', hg'⟩ := hg.undo hhonest hundo
  exact ⟨⟨⟨g', hg'⟩, rfl⟩, hp⟩

/-- Every operation but a save keeps the saved revision, and what the walk back to any revision
finds if it keeps what the walk needs. -/
theorem SavedFrom.step (h : SavedFrom ed p saved) {op : SaveOp α} (hop : op.WellFormed)
    (hne : op ≠ .setPristine) (hkeeps : op.KeepsRevision ed p) (hs : op.exec token ed = some ed') :
    SavedFrom ed' p saved ∧ ed'.pristineRevId = ed.pristineRevId := by
  cases op with
  | addDelta editType delta =>
    rw [SaveOp.exec, applyDirectDelta, addDelta, Option.bind_eq_bind, Option.bind_eq_some_iff] at hs
    obtain ⟨headRevId, -, hs⟩ := hs
    obtain ⟨⟨ed₁, gr⟩, hcalc, hs⟩ := Option.bind_eq_some_iff.mp hs
    obtain ⟨engine, hedit, hs⟩ := Option.bind_eq_some_iff.mp hs
    obtain rfl := Option.some.inj hs
    obtain ⟨hengine, -, hp⟩ := calculateUndoGroup_engine hcalc
    rw [Engine.editRev, Option.bind_eq_bind, Option.bind_eq_some_iff] at hedit
    obtain ⟨res, hres, hedit⟩ := hedit
    cases res with
    | error err => cases hedit
    | ok e' =>
      obtain rfl := Option.some.inj hedit
      rw [hengine] at hres
      exact ⟨h.edited hop hres rfl rfl, hp⟩
  | doUndo =>
    rw [SaveOp.exec, doUndo] at hs
    split at hs
    · next hcur =>
      obtain ⟨gr, hget, hs⟩ := Option.bind_eq_some_iff.mp hs
      split at hs
      · cases hs
      · exact h.updateUndos hs rfl rfl (hkeeps hcur gr hget)
    · obtain rfl := Option.some.inj hs
      exact ⟨h, rfl⟩
  | doRedo =>
    rw [SaveOp.exec, doRedo] at hs
    split at hs
    · obtain ⟨gr, hget, hs⟩ := Option.bind_eq_some_iff.mp hs
      split at hs
      · cases hs
      · exact h.updateUndos hs rfl rfl (hkeeps gr hget)
    · obtain rfl := Option.some.inj hs
      exact ⟨h, rfl⟩
  | applyPluginEdit edit =>
    rw [SaveOp.exec, Option.map_eq_some_iff] at hs
    obtain ⟨⟨ed₂, ack⟩, hs, rfl⟩ := hs
    rw [Editor.applyPluginEdit, Option.bind_eq_bind, Option.bind_eq_some_iff] at hs
    obtain ⟨⟨ed₁, gr⟩, hcalc, hs⟩ := hs
    have hsame : ed₁.engine = ed.engine ∧ ed₁.text = ed.text ∧
        ed₁.pristineRevId = ed.pristineRevId := by
      split at hcalc
      · obtain ⟨rfl, -⟩ := Prod.mk.inj (Option.some.inj hcalc)
        exact ⟨rfl, rfl, rfl⟩
      · exact calculateUndoGroup_engine hcalc
    obtain ⟨hengine, htext, hp⟩ := hsame
    obtain ⟨res, hres, hs⟩ := Option.bind_eq_some_iff.mp hs
    cases res with
    | error err =>
      obtain ⟨rfl, -⟩ := Prod.mk.inj (Option.some.inj hs)
      exact ⟨⟨by rw [hengine]; exact h.savedAt, by rw [htext, hengine]; exact h.text⟩, hp⟩
    | ok engine =>
      obtain ⟨rfl, -⟩ := Prod.mk.inj (Option.some.inj hs)
      rw [hengine] at hres
      exact ⟨h.edited hop hres rfl rfl, hp⟩
  | commitDelta =>
    rw [SaveOp.exec, Option.map_eq_some_iff] at hs
    obtain ⟨⟨ed₂, delta⟩, hs, rfl⟩ := hs
    rw [Editor.commitDelta, Option.bind_eq_bind, Option.bind_eq_some_iff] at hs
    obtain ⟨headRevId, -, hs⟩ := hs
    split at hs
    · obtain ⟨rfl, -⟩ := Prod.mk.inj (Option.some.inj hs)
      exact ⟨h, rfl⟩
    · obtain ⟨res, -, hs⟩ := Option.bind_eq_some_iff.mp hs
      cases res with
      | error err => cases hs
      | ok delta =>
        obtain ⟨rfl, -⟩ := Prod.mk.inj (Option.some.inj hs)
        exact ⟨⟨h.savedAt, h.text⟩, rfl⟩
  | incrementRevsInFlight =>
    obtain rfl := Option.some.inj hs
    exact ⟨⟨h.savedAt, h.text⟩, rfl⟩
  | decRevsInFlight =>
    rw [SaveOp.exec, decRevsInFlight] at hs
    split at hs
    · cases hs
    · next hflight =>
      rw [runGcUndos] at hs
      split at hs
      · next hcond =>
        have hone : ed.revsInFlight - 1 = 0 := hcond.1
        obtain ⟨g, hg⟩ := h.savedAt
        obtain ⟨hgc, hg'⟩ := hg.collected (hkeeps (by omega) hcond.2)
        dsimp only at hs
        rw [hgc] at hs
        obtain rfl := Option.some.inj hs
        exact ⟨⟨⟨_, hg'⟩, h.text⟩, rfl⟩
      · obtain rfl := Option.some.inj hs
        exact ⟨⟨h.savedAt, h.text⟩, rfl⟩
  | setPristine => exact absurd rfl hne

/-- The text of now is found at the head. -/
theorem SavedFrom.head (h : SavedFrom ed p saved) {headRevId : RevId}
    (hhead : ed.engine.getHeadRevId = some headRevId) : SavedFrom ed headRevId ed.text := by
  obtain ⟨g, hg⟩ := h.savedAt
  exact ⟨⟨g, h.text ▸ hg.exact.savedAt hhead⟩, h.text⟩

/-- Every operation that keeps what the walk needs keeps the saved text. -/
theorem SavedFrom.stepSaved (h : SavedFrom ed ed.pristineRevId saved) {op : SaveOp α}
    (hop : op.WellFormed) (hkeeps : op.KeepsSaved ed) (hs : op.exec token ed = some ed') :
    SavedFrom ed' ed'.pristineRevId (op.savedText ed' saved) := by
  by_cases hne : op = .setPristine
  · subst hne
    rw [SaveOp.exec, setPristine, Option.bind_eq_bind, Option.bind_eq_some_iff] at hs
    obtain ⟨headRevId, hhead, hs⟩ := hs
    obtain rfl := Option.some.inj hs
    have hsaved := h.head hhead
    exact ⟨hsaved.savedAt, hsaved.text⟩
  · obtain ⟨⟨hsavedAt, htext⟩, hp⟩ := h.step hop hne hkeeps hs
    have hsame : op.savedText ed' saved = saved := by
      cases op with
      | setPristine => exact absurd rfl hne
      | _ => rfl
    exact ⟨by rwa [hsame, hp], htext⟩

theorem SaveRun.isSaved (h : SaveRun token (fun ed op ↦ op.KeepsSaved ed) ed saved) :
    SavedFrom ed ed.pristineRevId saved := by
  induction h with
  | start hnew => exact saved_withText hnew
  | step _ op hop hkeeps hs ih => exact ih.stepSaved hop hkeeps hs

/-! ## Pristine buffers -/

/-- **A pristine buffer has the saved text**, in every run whose operations keep what the walk back
to the saved revision needs. -/
theorem SaveRun.text_eq_of_isPristine
    (h : SaveRun token (fun ed op ↦ op.KeepsSaved ed) ed saved) (hp : ed.isPristine = some true) :
    ed.text = saved := by
  obtain ⟨⟨g, hg⟩, htext⟩ := h.isSaved
  rw [isPristine, Option.bind_eq_bind, Option.bind_eq_some_iff] at hp
  obtain ⟨headRevId, hhead, hp⟩ := hp
  rw [htext]
  exact hg.text_eq_of_isEquivalentRevision hhead hp

set_option synthInstance.maxSize 512 in
/-- An edit that is undone and redone after a save. -/
theorem text_eq_of_isPristine_redo : ∃ (ed : Editor ℕ) (saved : List ℕ),
    ed.engine.revs.length = 5 ∧ ed.text = [7, 8] ∧ ed.isPristine = some true ∧
    ed.text = saved := by
  have hwf : (Delta.simpleEdit 1 1 [8] 1).WellFormed := by decide
  obtain ⟨ed₀, h₀, ed₁, h₁, ed₂, h₂, ⟨gr, hgr, hundo⟩, ed₃, h₃, ⟨gr', hgr', hredo⟩, ed₄, h₄, hlen,
      htext, hp⟩ :
      ∃ ed₀ ∈ withText RevId.num [7],
      ∃ ed₁ ∈ (SaveOp.addDelta .other (Delta.simpleEdit 1 1 [8] 1)).exec RevId.num ed₀,
      ∃ ed₂ ∈ SaveOp.setPristine.exec RevId.num ed₁,
      (∃ gr ∈ ed₂.liveUndos[ed₂.curUndo - 1]?,
        ed₂.engine.deletesFromUnionForUndoneGroups (insert gr ed₂.undos)
          ≠ some ed₂.engine.deletesFromUnion) ∧
      ∃ ed₃ ∈ SaveOp.doUndo.exec RevId.num ed₂,
      (∃ gr ∈ ed₃.liveUndos[ed₃.curUndo]?,
        ed₃.engine.deletesFromUnionForUndoneGroups (ed₃.undos.erase gr)
          ≠ some ed₃.engine.deletesFromUnion) ∧
      ∃ ed₄ ∈ SaveOp.doRedo.exec RevId.num ed₃, ed₄.engine.revs.length = 5 ∧ ed₄.text = [7, 8] ∧
        ed₄.isPristine = some true := by decide +kernel
  have hrun : SaveRun RevId.num (fun ed op ↦ op.KeepsSaved ed) ed₄ _ :=
    .step (.step (.step (.step (.start h₀) (.addDelta .other _) hwf trivial h₁)
      .setPristine trivial trivial h₂)
      .doUndo trivial (fun _ gr₁ h ↦ .inl (Option.mem_unique hgr h ▸ hundo)) h₃)
      .doRedo trivial (fun gr₁ h ↦ .inl (Option.mem_unique hgr' h ▸ hredo)) h₄
  exact ⟨ed₄, _, hlen, htext, hp, hrun.text_eq_of_isPristine hp⟩

/-- A character is typed and the buffer is saved. A second edit of the same group deletes the
character. The undo of the group does not change the deletions, and is not recorded. The walk
back to the saved revision takes the deletion for undone, so it finds the character deleted. -/
theorem pristine_after_silent_undo : ¬ ∀ (ed : Editor ℕ) (saved : List ℕ),
    SaveRun RevId.num (fun _ _ ↦ True) ed saved → ed.isPristine = some true → ed.text = saved := by
  have hwf₁ : (Delta.simpleEdit 0 0 [7] 0).WellFormed := by decide
  have hwf₃ : (Delta.simpleEdit 0 1 ([] : List ℕ) 1).WellFormed := by decide
  obtain ⟨ed₀, h₀, ed₁, h₁, ed₂, h₂, htext₂, ed₃, h₃, ed₄, h₄, htext, hp⟩ :
      ∃ ed₀ ∈ withText RevId.num ([] : List ℕ),
      ∃ ed₁ ∈ (SaveOp.addDelta .insertChars (Delta.simpleEdit 0 0 [7] 0)).exec RevId.num ed₀,
      ∃ ed₂ ∈ SaveOp.setPristine.exec RevId.num ed₁, ed₂.text = [7] ∧
      ∃ ed₃ ∈ (SaveOp.addDelta .insertChars (Delta.simpleEdit 0 1 [] 1)).exec RevId.num ed₂,
      ∃ ed₄ ∈ SaveOp.doUndo.exec RevId.num ed₃, ed₄.text = [] ∧
        ed₄.isPristine = some true := by decide +kernel
  intro h
  have hrun : SaveRun RevId.num (fun _ _ ↦ True) ed₄ ed₂.text :=
    .step (.step (.step (.step (.start h₀) (.addDelta .insertChars _) hwf₁ trivial h₁)
      .setPristine trivial trivial h₂) (.addDelta .insertChars _) hwf₃ trivial h₃)
      .doUndo trivial trivial h₄
  have := h ed₄ ed₂.text hrun hp
  rw [htext, htext₂] at this
  cases this

end Editor

end EeEditor
