import EeEditor.Editor.UndoState

/-!
# Edits of the head

An edit that is based on the head revision succeeds when its delta has the length of the text: the
last revision with the token of the head is the head itself, and nothing has to be walked back. So
does an edit of a plugin leave the editor consistent, whatever its group is.
-/

namespace EeEditor

variable {α : Type} {token : RevId → RevToken}

namespace Engine

variable {e : Engine α} {g : Ledger α}

theorem Represents.baseAtoms_head (h : e.Represents g) :
    (baseAtoms e g e.revs []).length = e.text.length := by
  rw [baseAtoms, h.history.unionAt_self, h.text, visible, List.length_map]
  rfl

/-- **Edits of the head succeed** with deltas of the length of the text. -/
theorem Represents.editRev_head (h : e.Represents g) {head : RevId}
    (hhead : e.getHeadRevId = some head) {d : Delta α} (hd : d.WellFormed)
    (hlen : d.baseLen = e.text.length) (priority undoGroup : ℕ) :
    ∃ e', e.editRev token priority undoGroup (token head) d = some e' := by
  obtain ⟨last, hlast, rfl⟩ := Option.map_eq_some_iff.mp hhead
  obtain ⟨init, hinit⟩ := List.getLast?_eq_some_iff.mp hlast
  have hrevs : e.revs = init ++ [last] ++ [] := by rw [hinit, List.append_nil]
  have hfind : e.findRevToken token (token last.revId) = some init.length := by
    rw [findRevToken, hrevs]
    exact rfindIdx_append_cons init (by simp) (by simp)
  have hbase : d.baseLen = (baseAtoms e g (init ++ [last]) []).length := by
    rw [← hinit, h.baseAtoms_head, hlen]
  obtain ⟨u', e', hok, -⟩ := h.tryEditRev_eq hrevs hfind invertibleAll_nil hd hbase priority
    undoGroup
  exact ⟨e', by rw [editRev, hok]; rfl⟩

end Engine

namespace Editor

variable {ed ed' : Editor α} {g : Ledger α} {x : Atom α → ℕ}

/-- The part of a consistent editor that does not depend on the collections of the run. -/
def Sound (ed : Editor α) : Prop := ∃ g x, Consistent False ed g x

theorem sound_withText {text : List α} (h : withText token text = some ed) : Sound ed :=
  consistent_withText h

theorem Sound.step (h : Sound ed) {op : UndoOp α} (hop : op.WellFormed)
    (hs : op.exec token ed = some ed') : Sound ed' := by
  obtain ⟨g, x, h⟩ := h
  exact h.step hop (fun _ _ _ hgood ↦ hgood.elim) hs

theorem Sound.applyDirectDelta (h : Sound ed) (editType : EditType) {d : Delta α}
    (hd : d.WellFormed) (hlen : d.baseLen = ed.text.length) :
    ∃ ed', applyDirectDelta token ed editType d = some ed' := by
  obtain ⟨g, x, h⟩ := h
  have hstate : UndoState { ed with thisEditType := editType } :=
    h.state.congr rfl rfl rfl rfl rfl
  obtain ⟨ed₁, gr, hcalc, hgr⟩ := hstate.calculateUndoGroup
  obtain ⟨r, -, -, hhead⟩ := h.accounted.represents.exists_getLast
  rw [h.text] at hlen
  obtain ⟨engine, hedit⟩ : ∃ engine,
      ed₁.engine.editRev token coreEditPriority gr (token r.revId) d = some engine := by
    rw [hgr.engine]
    exact h.accounted.represents.editRev_head hhead hd hlen coreEditPriority gr
  rw [Editor.applyDirectDelta, addDelta]
  change ∃ ed', (ed.engine.getHeadRevId >>= fun _ ↦ _) = some ed'
  rw [hhead, Option.bind_eq_bind, Option.bind_some, hcalc, Option.bind_eq_bind, Option.bind_some]
  dsimp only
  rw [hedit]
  exact ⟨_, rfl⟩

/-- An edit of the engine leaves the editor sound. -/
theorem Sound.edited (h : Sound ed) (hstate : UndoState ed') {priority gr : ℕ} {base : RevToken}
    {d : Delta α} (hd : d.WellFormed) {engine : Engine α}
    (hok : ed.engine.tryEditRev token priority gr base d = some (.ok engine))
    (hengine : ed'.engine = engine) (htext : ed'.text = engine.getHead)
    (hid : ed.undoGroupId ≤ ed'.undoGroupId) : Sound ed' := by
  obtain ⟨g, x, h⟩ := h
  obtain ⟨pre, r, post, u', -, -, hed⟩ := h.accounted.represents.tryEditRev_ok hd hok
  have hshows : ed'.text = ed'.engine.text := by
    rw [htext, hengine]
    rfl
  obtain rfl | ⟨headMax, he', hacc⟩ := h.accounted.edited hed
  · refine ⟨g, x, hstate, hengine ▸ h.accounted, hshows, ?_, nofun, nofun⟩
    rw [hengine]
    exact fun gr' hin ↦ (h.undone_lt gr' hin).trans_le hid
  · refine ⟨_, _, hstate, hengine ▸ hacc, hshows, ?_, nofun, nofun⟩
    have hundone : engine.undoneGroups = ed.engine.undoneGroups := by
      rw [he']
      rfl
    rw [hengine, hundone]
    exact fun gr' hin ↦ (h.undone_lt gr' hin).trans_le hid

theorem Sound.applyPluginEdit (h : Sound ed) {edit : PluginEdit α} (hd : edit.delta.WellFormed)
    {ack : PluginEditAck} (hs : applyPluginEdit token ed edit = some (ed', ack)) : Sound ed' := by
  obtain ⟨g, x, hcons⟩ := h
  rw [Editor.applyPluginEdit, Option.bind_eq_bind, Option.bind_eq_some_iff] at hs
  obtain ⟨⟨ed₁, gr⟩, hcalc, hs⟩ := hs
  have hsame : UndoState ed₁ ∧ ed₁.engine = ed.engine ∧ ed₁.text = ed.text ∧
      ed.undoGroupId ≤ ed₁.undoGroupId := by
    split at hcalc
    · obtain ⟨rfl, -⟩ := Prod.mk.inj (Option.some.inj hcalc)
      exact ⟨hcons.state, rfl, rfl, Nat.le_refl _⟩
    · obtain ⟨ed₂, gr₂, hcalc₂, hgr⟩ := hcons.state.calculateUndoGroup
      rw [hcalc₂] at hcalc
      obtain ⟨rfl, -⟩ := Prod.mk.inj (Option.some.inj hcalc)
      exact ⟨hgr.state, hgr.engine, hgr.text, hgr.undoGroupId⟩
  obtain ⟨hstate, hengine, htext, hid⟩ := hsame
  obtain ⟨res, hres, hs⟩ := Option.bind_eq_some_iff.mp hs
  cases res with
  | error err =>
    obtain ⟨rfl, -⟩ := Prod.mk.inj (Option.some.inj hs)
    refine ⟨g, x, hstate, hengine ▸ hcons.accounted, ?_, ?_, nofun, nofun⟩
    · rw [htext, hengine, hcons.text]
    · rw [hengine]
      exact fun gr' hin ↦ (hcons.undone_lt gr' hin).trans_le hid
  | ok engine =>
    obtain ⟨rfl, -⟩ := Prod.mk.inj (Option.some.inj hs)
    rw [hengine] at hres
    exact Sound.edited ⟨g, x, hcons⟩ (hstate.congr rfl rfl rfl rfl rfl) hd hres rfl rfl hid

end Editor

end EeEditor
