import EeEditor.Engine.Exact

/-!
# Edits against an old revision

An edit may be based on any revision. Whatever has happened since, its insertions end up where the
delta put them relative to the text it was based on, and it deletes what the delta deleted from
that text.
-/

namespace EeEditor

variable {α : Type}

open Script

/-- Splice a segment of the tombstones into the text wherever the count is not zero. -/
def splice : List ℕ → List α → List α → List α
  | 0 :: counts, a :: text, tombstones => a :: splice counts text tombstones
  | (_ + 1) :: counts, text, a :: tombstones => a :: splice counts text tombstones
  | _, _, _ => []

theorem splice_map (u : List (Atom α)) (c : Atom α → ℕ) :
    splice (u.map c) (visible u c) (hidden u c) = u.map Atom.val := by
  induction u with
  | nil => rfl
  | cons k u ih =>
    rw [visible, hidden] at ih ⊢
    rw [List.filter_cons, List.filter_cons, List.map_cons]
    cases hc : c k with
    | zero => simpa [splice, hc] using ih
    | succ n => simpa [splice, hc] using ih

namespace Engine

/-- All characters ever inserted, in order. -/
def unionString (self : Engine α) : List α :=
  splice self.deletesFromUnion.counts self.text self.tombstones

variable {e e' : Engine α} {g : Ledger α}

theorem Represents.unionString_eq (h : e.Represents g) : e.unionString = g.atoms.map Atom.val := by
  rw [unionString, h.dels, h.text, h.tombstones, Subset.counts_label, splice_map]

theorem map_val_baseAtoms (e : Engine α) (g : Ledger α) (pre post : List Revision) :
    (baseAtoms e g pre post).map Atom.val
      = visible g.atoms (Represents.pastCount e g pre post) := by
  rw [Represents.visible_pastCount]
  rfl

/-- The text of a revision is found by the walk to it. -/
theorem Represents.getRev_eq_some (h : e.Represents g) {token : RevId → RevToken} {rev : RevToken}
    {b : List α} (hb : e.getRev token rev = some (some b)) :
    ∃ pre r post, e.revs = pre ++ [r] ++ post ∧ e.findRevToken token rev = some pre.length ∧
      InvertibleAll g.effect g.atoms true (pre ++ [r]) post (g.count, e.undoneGroups) ∧
      b = (baseAtoms e g (pre ++ [r]) post).map Atom.val := by
  rw [getRev] at hb
  split at hb
  · cases hb
  · next ix hfind =>
    obtain ⟨pre, r, post, hrevs, rfl, -, -⟩ := rfindIdx_eq_some hfind
    obtain ⟨t, ht, hbt⟩ := Option.bind_eq_some_iff.mp hb
    obtain rfl : t = b := by
      cases hbt
      rfl
    obtain ⟨hinv, rfl⟩ := (h.revContentForIndex_eq_some_iff hrevs t).mp ht
    exact ⟨pre, r, post, hrevs, hfind, hinv, (map_val_baseAtoms e g (pre ++ [r]) post).symm⟩

/-- The characters of a text that the delta does not copy. -/
def Deletes (d : Delta α) (base : List (Atom α)) (k : Atom α) : Prop :=
  ∃ i, base[i]? = some k ∧ copies d.els i = false

theorem deletedBy_ne_zero_iff {d : Delta α} {base : List (Atom α)} (hbase : base.Nodup)
    {k : Atom α} : deletedBy d base k ≠ 0 ↔ Deletes d base k := by
  classical
  rw [deletedBy, Deletes]
  constructor
  · intro hne
    have hk : k ∈ base ∧ copies d.els (base.idxOf k) = false := by
      by_contra hnot
      exact hne (if_neg hnot)
    refine ⟨base.idxOf k, ?_, hk.2⟩
    exact List.getElem?_idxOf hk.1
  · rintro ⟨i, hi, hc⟩
    obtain ⟨hlt, rfl⟩ := List.getElem?_eq_some_iff.mp hi
    rw [if_pos ⟨List.getElem_mem hlt, by rwa [hbase.idxOf_getElem]⟩]
    exact Nat.one_ne_zero

/-- What the edit `d` of the text `b` does to the union string: `base` are the characters of `b`,
and `script` is the insert-only part of `d` with the inserted characters. -/
structure KeepsIntent (e : Engine α) (b : List α) (d : Delta α) (e' : Engine α) (g g' : Ledger α)
    (base : List (Atom α)) (script : List (Option (Atom α))) : Prop where
  before : e.Represents g
  after : e'.Represents g'
  union_before : e.unionString = g.atoms.map Atom.val
  union_after : e'.unionString = g'.atoms.map Atom.val
  base_sublist : base.Sublist g.atoms
  base_text : base.map Atom.val = b
  insert_only : ∃ ins dels, d.factor = some (ins, dels) ∧
    itemsOf ins.delta.els = script.map (Option.map Atom.val)
  /-- The previous characters are unchanged in content and order. -/
  unchanged : g.atoms.Sublist g'.atoms
  /-- The inserted characters are new, and appear exactly once. -/
  inserted_new : ∀ k ∈ inserted script, k ∉ g.atoms
  mem_iff : ∀ k, k ∈ g'.atoms ↔ k ∈ g.atoms ∨ k ∈ inserted script
  once : g'.atoms.Nodup
  /-- The characters of `b` and the inserted ones are ordered as in the insert-only part. -/
  placed : (fill script base).Sublist g'.atoms
  mem_placed : ∀ k, k ∈ fill script base ↔ k ∈ base ∨ k ∈ inserted script
  /-- What is visible afterwards. -/
  visible_iff : ∀ k ∈ g'.atoms, g'.count k = 0 ↔
    k ∈ inserted script ∨ k ∈ g.atoms ∧ g.count k = 0 ∧ ¬ Deletes d base k

theorem mem_filter_isOwn_fill {id : RevId} {s : List (Option (Atom α))} {w : List (Atom α)}
    (hkept : kept s = w.length) (hs : ∀ k ∈ inserted s, isOwn id k = true)
    (hw : ∀ k ∈ w, isOwn id k = false) :
    (fill s w).filter (isOwn id) = inserted s ∧ ∀ k, k ∈ fill s w ↔ k ∈ w ∨ k ∈ inserted s := by
  obtain ⟨hlabels, hold⟩ := ofLabels_fill (isOwn id) s w hkept hs hw
  have hnew : (fill s w).filter (isOwn id) = inserted s := by rw [← inserted_ofLabels, hlabels]
  refine ⟨hnew, fun k ↦ ?_⟩
  have hmemw : k ∈ w ↔ k ∈ fill s w ∧ (!isOwn id k) = true := by
    rw [← List.mem_filter (p := fun k ↦ !isOwn id k), hold]
  rw [hmemw, ← hnew, List.mem_filter]
  cases isOwn id k <;> simp

theorem Represents.keepsIntent (h : e.Represents g) {token : RevId → RevToken} {rev : RevToken}
    {b : List α} (hb : e.getRev token rev = some (some b)) {d : Delta α} (hd : d.WellFormed)
    (hlen : d.baseLen = b.length) (priority : ℕ) {undoGroup : ℕ}
    (hg : undoGroup ∉ e.undoneGroups) :
    ∃ e' g' pre q post base script, e.revs = pre ++ [q] ++ post ∧
      e.findRevToken token rev = some pre.length ∧ base = baseAtoms e g (pre ++ [q]) post ∧
      e.tryEditRev token priority undoGroup rev d = some (.ok e') ∧
      KeepsIntent e b d e' g g' base script := by
  obtain ⟨pre, r, post, hrevs, hfind, hinv, rfl⟩ := h.getRev_eq_some hb
  rw [List.length_map] at hlen
  obtain ⟨u', e', hok, hed⟩ := h.tryEditRev_eq hrevs hfind hinv hd hlen priority undoGroup
  obtain ⟨ins, hfactor, hreal, hinsLen⟩ := hd.factor_eq
  have hnotOwn : ∀ k ∈ g.atoms, isOwn e.nextRevId k = false := fun k hk ↦
    h.history.isOwn_eq_false h.nextRevId_not_mem hk
  have hsub : (baseAtoms e g (pre ++ [r]) post).Sublist g.atoms :=
    (List.filter_sublist).trans List.filter_sublist
  have hplaced := hed.placed
  generalize hbase : baseAtoms e g (pre ++ [r]) post = base at *
  generalize hitems : Delta.factorItems d.baseLen 0 (flatten d.els) = items at *
  have hnodup : base.Nodup := hsub.nodup h.history.nodup
  have hown : ∀ k ∈ inserted (atomize e.nextRevId 0 items), isOwn e.nextRevId k = true := fun k hk ↦
    decide_eq_true (mem_inserted_atomize _ items 0 k hk).1
  obtain ⟨hfillOwn, hmemFill⟩ := mem_filter_isOwn_fill
    (by rw [kept_atomize, hreal.kept, hinsLen, hlen]) hown fun k hk ↦ hnotOwn k (hsub.subset hk)
  -- the new atoms of the union string are those of the script
  have hu'own : u'.filter (isOwn e.nextRevId) = inserted (atomize e.nextRevId 0 items) := by
    rw [← hfillOwn, ← hplaced, List.filter_filter]
    exact List.filter_congr fun k _ ↦ by cases isOwn e.nextRevId k <;> simp
  have hmem : ∀ k, k ∈ u' ↔ k ∈ g.atoms ∨ k ∈ inserted (atomize e.nextRevId 0 items) := fun k ↦ by
    rw [← hu'own, ← hed.old]
    simp only [List.mem_filter]
    cases isOwn e.nextRevId k <;> simp
  have hnew : ∀ k ∈ inserted (atomize e.nextRevId 0 items), k ∉ g.atoms := fun k hk hkg ↦ by
    have := hown k hk
    rw [hnotOwn k hkg] at this
    cases this
  have hinsert : ∃ ins dels, d.factor = some (ins, dels) ∧ itemsOf ins.delta.els
      = (atomize e.nextRevId 0 items).map (Option.map Atom.val) :=
    ⟨ins, _, hfactor, by rw [map_atomize, hreal.items]⟩
  have hold : g.atoms.Sublist u' := hed.old ▸ List.filter_sublist
  have hput : (fill (atomize e.nextRevId 0 items) base).Sublist u' := hplaced ▸ List.filter_sublist
  rcases hed.cases h with ⟨rfl, hnoOwn, hnoDel⟩ | ⟨headMax, hmax, rfl, hrep⟩
  · -- nothing inserted and nothing deleted
    have hatoms : u' = g.atoms := by
      rw [← hed.old]
      refine (List.filter_eq_self.mpr fun k hk ↦ ?_).symm
      have := hnoOwn k hk
      rw [own_eq_isOwn] at this
      cases hi : isOwn _ k <;> simp_all
    rw [hatoms] at hmem hput hnoDel
    refine ⟨_, g, pre, r, post, base, _, hrevs, hfind, hbase.symm, hok,
      ⟨h, h, h.unionString_eq, h.unionString_eq,
      hsub, rfl, hinsert, List.Sublist.refl _, hnew, hmem, h.history.nodup, hput, hmemFill,
        fun k hk ↦ ?_⟩⟩
    have hdel : ¬ Deletes d base k := fun hdel ↦
      (deletedBy_ne_zero_iff hnodup).mpr hdel (hbase ▸ hnoDel k hk)
    have hnotNew : k ∉ inserted (atomize e'.nextRevId 0 items) := fun hkn ↦ hnew k hkn hk
    simp [hk, hdel, hnotNew]
  · refine ⟨_, _, pre, r, post, base, _, hrevs, hfind, hbase.symm, hok, ⟨h, hrep,
      h.unionString_eq, hrep.unionString_eq, hsub, rfl, hinsert, hold, hnew, hmem, hed.nodup, hput,
        hmemFill, fun k hk ↦ ?_⟩⟩
    change editCount e g undoGroup (deletedBy d (baseAtoms e g (pre ++ [r]) post)) k = 0 ↔ _
    rw [hbase]
    rcases (hmem k).mp hk with hkg | hkn
    · have hne : k.rev ≠ e.nextRevId := of_decide_eq_false (hnotOwn k hkg)
      have hnotNew : k ∉ inserted (atomize e.nextRevId 0 items) := fun hkn ↦ hnew k hkn hkg
      rw [editCount_old hne, if_neg hg, Nat.add_eq_zero_iff]
      have hdel := (deletedBy_ne_zero_iff (d := d) hnodup (k := k)).not
      rw [not_not] at hdel
      simp [hkg, hnotNew, hdel]
    · have hkid : k.rev = e.nextRevId := of_decide_eq_true (hown k hkn)
      have hnotBase : deletedBy d base k = 0 := hbase ▸ deletedBy_eq_zero_of_own h d _ _ hkid
      simp [editCount, own, hkid, hg, hnotBase, hkn]

/-- **Edits against an old revision keep everyone's intent.** For every revision with contents `b`
and every delta on `b`, of a group that is not undone, the edit succeeds and keeps the intent of
the delta. The characters of `b` are those inserted up to that revision that the walk back to it
leaves visible. -/
theorem Reachable.edit_keeps_intent {token : RevId → RevToken} (h : Reachable token e)
    {r : Revision} (hr : r ∈ e.revs)
    (hinj : ∀ q ∈ e.revs, token q.revId = token r.revId → q.revId = r.revId) {b : List α}
    (hb : e.getRev token (token r.revId) = some (some b)) {d : Delta α} (hd : d.WellFormed)
    (hlen : d.baseLen = b.length) (priority : ℕ) {undoGroup : ℕ}
    (hg : undoGroup ∉ e.undoneGroups) :
    ∃ e' g g' pre post base script, e.revs = pre ++ [r] ++ post ∧
      base = baseAtoms e g (pre ++ [r]) post ∧
      e.tryEditRev token priority undoGroup (token r.revId) d = some (.ok e') ∧
      KeepsIntent e b d e' g g' base script := by
  obtain ⟨g, hex⟩ := h.exact
  obtain ⟨e', g', pre, q, post, base, script, hrevs, hfind, hbase, hok, hkeeps⟩ :=
    hex.represents.keepsIntent hb hd hlen priority hg
  -- the revision that is found is the one that was asked for
  have hq : q ∈ e.revs := by rw [hrevs]; simp
  have htoken : token q.revId = token r.revId := by
    obtain ⟨pre', q', post', hrevs', hlen', hq', -⟩ := rfindIdx_eq_some hfind
    rw [hrevs, List.append_assoc, List.append_assoc] at hrevs'
    obtain ⟨-, htail⟩ := List.append_inj hrevs' hlen'.symm
    obtain rfl := (List.cons.inj htail).1
    exact of_decide_eq_true hq'
  obtain rfl : q = r := List.inj_on_of_nodup_map hex.represents.history.ids hq hr
    (hinj q hq htoken)
  exact ⟨e', g, g', pre, post, base, script, hrevs, hbase, hok, hkeeps⟩

/-- An edit of the initial contents after they have been replaced. -/
theorem edit_keeps_intent_replaced : ∃ e : Engine ℕ, e.getHead = [8] ∧
    ∃ e' g g' pre r post base script, e.revs = pre ++ [r] ++ post ∧
      base = baseAtoms e g (pre ++ [r]) post ∧
      e.tryEditRev RevId.num 0 2 1 (Delta.simpleEdit 1 1 [9] 1) = some (.ok e') ∧
      KeepsIntent e [7] (Delta.simpleEdit 1 1 [9] 1) e' g g' base script := by
  obtain ⟨e₀, e, hnew, hok, htext, hw, hb, r, hr, hid, hinj⟩ := exists_replaced [8]
    (p := fun _ e ↦ e.getHead = [8] ∧ 2 ∉ e.undoneGroups ∧
      e.getRev RevId.num 1 = some (some [7]) ∧ ∃ r ∈ e.revs, r.revId.num = 1 ∧
        ∀ q ∈ e.revs, q.revId.num = r.revId.num → q.revId = r.revId) (by decide +kernel)
  have h : Reachable RevId.num e := ⟨[7], e₀, hnew, .tail .refl (.edit 0 1 1 _ (by decide) hok)⟩
  rw [← hid] at hb
  obtain ⟨e', g, g', pre, post, base, script, hkeeps⟩ := h.edit_keeps_intent hr hinj hb
    (d := Delta.simpleEdit 1 1 [9] 1) (by decide) rfl 0 hw
  rw [hid] at hkeeps
  exact ⟨e, htext, e', g, g', pre, r, post, base, script, hkeeps⟩

end Engine

end EeEditor
