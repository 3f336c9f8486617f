import EeEditor.Engine.Exact

/-!
# Contents of old revisions

The contents of an old revision are recomputed by walking back from the head with the current set
of undone groups. `Engine.undo` changes that set even when it records no revision, and then the
walk inverts the wrong groups. Runs in which this does not happen to a group of a recorded edit
(`Engine.Tracked`) keep the contents of every revision what they were when it became the head.
-/

namespace EeEditor

variable {α : Type}

/-- The groups undone before the revisions `revs`, when `w` are undone after them. -/
def undoneBefore (w : Finset ℕ) (revs : List Revision) : Finset ℕ :=
  revs.foldr (fun r w ↦
    match r.edit with
    | .undo toggledGroups _ => symmDiff w toggledGroups
    | .edit .. => w) w

@[simp] theorem undoneBefore_nil (w : Finset ℕ) : undoneBefore w [] = w := rfl

@[simp] theorem undoneBefore_append (w : Finset ℕ) (revs revs' : List Revision) :
    undoneBefore w (revs ++ revs') = undoneBefore (undoneBefore w revs') revs := List.foldr_append

theorem undoneBefore_edit (w : Finset ℕ) {r : Revision} (h : r.edit.isEdit = true) :
    undoneBefore w [r] = w := by
  cases hr : r.edit with
  | edit p gr i d => simp [undoneBefore, hr]
  | undo t b => rw [hr] at h; cases h

theorem undoneBefore_undo (w : Finset ℕ) {r : Revision} {t : Finset ℕ} {b : Subset}
    (h : r.edit = .undo t b) : undoneBefore w [r] = symmDiff w t := by
  simp [undoneBefore, h]

/-- Going back, the difference of two sets of undone groups stays what it is. -/
theorem symmDiff_undoneBefore (w w' : Finset ℕ) (revs : List Revision) :
    symmDiff (undoneBefore w revs) (undoneBefore w' revs) = symmDiff w w' := by
  induction revs using List.reverseRecOn generalizing w w' with
  | nil => rfl
  | append_singleton revs r ih =>
    rw [undoneBefore_append, undoneBefore_append, ih]
    cases hr : r.edit with
    | edit p gr i d =>
      rw [undoneBefore_edit w (by rw [hr]; rfl), undoneBefore_edit w' (by rw [hr]; rfl)]
    | undo t b =>
      rw [undoneBefore_undo w hr, undoneBefore_undo w' hr, symmDiff_symmDiff_symmDiff_comm,
        symmDiff_self, symmDiff_bot]

/-- The walk backwards restores the replay of every prefix: the recorded undos are the difference
between the replays for the groups undone before and after them. -/
def UndosRecorded (u : List (Atom α)) (effect : RevId → Atom α → ℕ) (w : Finset ℕ)
    (revs : List Revision) : Prop :=
  ∀ pre r post t b, revs = pre ++ r :: post → r.edit = .undo t b → ∀ k ∈ unionAt u pre,
    effect r.revId k = replay effect (undoneBefore w post) pre k
      ^^^ replay effect (undoneBefore w (r :: post)) pre k

namespace History

variable {u : List (Atom α)} {effect : RevId → Atom α → ℕ} {pre : List Revision} {w : Finset ℕ}

theorem undoneBefore_cons (r : Revision) (post : List Revision) :
    undoneBefore w (r :: post) = undoneBefore (undoneBefore w post) [r] :=
  undoneBefore_append w [r] post

/-- Inverting one revision, when it is recorded truly. -/
theorem invert_true {mid post : List Revision} {r : Revision} {c : Atom α → ℕ}
    (h : History u effect (mid ++ r :: post)) (hrec : UndosRecorded u effect w (mid ++ r :: post))
    (hc : ∀ k ∈ unionAt u (mid ++ [r]), c k = replay effect (undoneBefore w post) (mid ++ [r]) k) :
    Invertible effect (unionAt u (mid ++ [r])) r (c, undoneBefore w post) ∧
      (invert effect true r (c, undoneBefore w post)).2 = undoneBefore w (r :: post) ∧
      ∀ k ∈ unionAt u mid, (invert effect true r (c, undoneBefore w post)).1 k
        = replay effect (undoneBefore w (r :: post)) mid k := by
  cases hr : r.edit with
  | undo t b =>
    have hw : undoneBefore w (r :: post) = symmDiff (undoneBefore w post) t := by
      rw [undoneBefore_cons, undoneBefore_undo _ hr]
    refine ⟨by simp [Invertible, hr], by simp [invert, hr, hw], fun k hk ↦ ?_⟩
    have hck := hc k (mem_unionAt_concat r hk)
    rw [replay_append, replay_singleton, contribution, hr, Nat.add_zero] at hck
    have hstate : (invert effect true r (c, undoneBefore w post)).1 k = c k ^^^ effect r.revId
      k := by
      simp [invert, hr]
    rw [hstate, hck, hrec mid r post t b rfl hr k hk, ← Nat.xor_assoc, Nat.xor_self, Nat.zero_xor]
  | edit p gr i d =>
    have hw : undoneBefore w (r :: post) = undoneBefore w post := by
      rw [undoneBefore_cons, undoneBefore_edit _ (by rw [hr]; rfl)]
    rw [hw]
    refine invert_edit h true hr fun k hk ↦ ?_
    rw [hc k hk, replay_append, replay_singleton]

/-- The walk backwards restores the replay of a prefix. -/
theorem invertAll_true : ∀ {mid post : List Revision} {c : Atom α → ℕ}
    (_ : History u effect (pre ++ mid ++ post))
    (_ : UndosRecorded u effect w (pre ++ mid ++ post))
    (_ : ∀ k ∈ unionAt u (pre ++ mid),
      c k = replay effect (undoneBefore w post) (pre ++ mid) k),
    InvertibleAll effect u true pre mid (c, undoneBefore w post) ∧
      (invertAll effect true mid (c, undoneBefore w post)).2 = undoneBefore w (mid ++ post) ∧
      ∀ k ∈ unionAt u pre, (invertAll effect true mid (c, undoneBefore w post)).1 k
        = replay effect (undoneBefore w (mid ++ post)) pre k := by
  intro mid
  induction mid using List.reverseRecOn with
  | nil =>
    intro post c _ _ hc
    rw [List.append_nil] at hc
    exact ⟨invertibleAll_nil, rfl, hc⟩
  | append_singleton mid r ih =>
    intro post c h hrec hc
    have h₁ : History u effect (pre ++ mid ++ r :: post) := by simpa using h
    have hrec₁ : UndosRecorded u effect w (pre ++ mid ++ r :: post) := by simpa using hrec
    rw [← List.append_assoc] at hc
    obtain ⟨hinv, hw, hval⟩ := h₁.invert_true hrec₁ hc
    rw [invertibleAll_append_singleton, invertAll_append, invertAll_singleton]
    have hpair : invert effect true r (c, undoneBefore w post)
        = ((invert effect true r (c, undoneBefore w post)).1, undoneBefore w (r :: post)) :=
      Prod.ext rfl hw
    rw [hpair]
    obtain ⟨h1, h2, h3⟩ := ih h₁ hrec₁ hval
    exact ⟨⟨hinv, h1⟩, by simpa using h2, by simpa using h3⟩

end History

namespace Engine

/-! ## Runs with a log -/

/-- The undo changes the deletions, or it toggles no group of a recorded edit. -/
def Honest (e : Engine α) (groups : Finset ℕ) : Prop :=
  e.deletesFromUnionForUndoneGroups groups ≠ some e.deletesFromUnion ∨
    ∀ r ∈ e.revs, ∀ gr ∈ r.edit.group?, gr ∉ symmDiff e.undoneGroups groups

/-- The log of the text of every revision at the moment it became the head. -/
def logHead (log : RevId → List α) (e e' : Engine α) : RevId → List α :=
  if e'.getHeadRevId = e.getHeadRevId then log
  else fun id ↦ if e'.getHeadRevId = some id then e'.getHead else log id

/-- A run of edits and undos with its log. `start` is the moment after `Engine::new`, when the
empty revision 0 and the first edit have become the head. -/
inductive Logged (token : RevId → RevToken) (allowed : Engine α → Finset ℕ → Prop) :
    Engine α → (RevId → List α) → Prop
  | start {text : List α} {e : Engine α} (h : Engine.new token text = some e) :
      Logged token allowed e (logHead (fun _ ↦ []) empty e)
  | step {e e' : Engine α} {log : RevId → List α} (h : Logged token allowed e log)
      (hs : EditUndo token allowed e e') : Logged token allowed e' (logHead log e e')

/-- The history of an engine whose undos are recorded, with the log of the run. -/
structure Tracked (e : Engine α) (g : Ledger α) (log : RevId → List α) : Prop where
  exact : Exact e g
  undos : UndosRecorded g.atoms g.effect e.undoneGroups e.revs
  log : ∀ pre r post, e.revs = pre ++ r :: post → log r.revId
    = visible (unionAt g.atoms (pre ++ [r]))
        (replay g.effect (undoneBefore e.undoneGroups post) (pre ++ [r]))

variable {e e' : Engine α} {g : Ledger α} {log : RevId → List α}

theorem tracked_empty : Tracked (empty : Engine α) emptyLedger fun _ ↦ [] := by
  refine ⟨exact_empty, ?_, ?_⟩
  · intro pre r post t b _ _ k hk
    cases (mem_unionAt.mp hk).1
  · intro pre r post _
    rfl

/-- In a tracked history the walk backwards to any revision restores its logged text. -/
theorem Tracked.getRev_eq {token : RevId → RevToken} (h : Tracked e g log)
    (hinj : ∀ r ∈ e.revs, ∀ s ∈ e.revs, token r.revId = token s.revId → r.revId = s.revId)
    {r : Revision} (hr : r ∈ e.revs) :
    e.getRev token (token r.revId) = some (some (log r.revId)) := by
  obtain ⟨pre, post, hrevs⟩ := List.append_of_mem hr
  have hh := h.exact.represents.history
  have hself := hh.unionAt_self
  have hrevs' : e.revs = pre ++ [r] ++ post := by simpa using hrevs
  have hfind : e.findRevToken token (token r.revId) = some pre.length := by
    rw [findRevToken, hrevs']
    refine rfindIdx_append_cons pre (by simp) fun q hq ↦ decide_eq_false fun heq ↦ ?_
    have hq' : q ∈ e.revs := by simp [hrevs, hq]
    have hids := hh.ids
    rw [hrevs, List.map_append, List.map_cons, List.nodup_append, List.nodup_cons] at hids
    refine hids.2.1.1 ?_
    rw [← hinj q hq' r hr heq]
    exact List.mem_map.mpr ⟨q, hq, rfl⟩
  have hundos := h.undos
  have hcount := h.exact.count
  rw [hrevs', ← List.append_nil (pre ++ [r] ++ post)] at hh hundos
  rw [hrevs'] at hcount hself
  obtain ⟨hinv, -, hval⟩ := hh.invertAll_true hundos (c := g.count)
    (fun k hk ↦ by rw [hself] at hk; exact hcount k hk)
  have hcontent := (h.exact.represents.revContentForIndex_eq_some_iff hrevs' (log r.revId)).mpr
    ⟨hinv, ?_⟩
  · rw [getRev, hfind]
    simp only [hcontent, Option.bind_eq_bind, Option.bind_some]
    rfl
  · rw [Represents.visible_pastCount, h.log pre r post hrevs]
    rw [List.append_nil] at hval
    exact visible_congr fun k hk ↦ (hval k hk).symm

/-! ## Steps of a tracked run -/

/-- A tracked history with one more revision. -/
theorem Tracked.extend (h : Tracked e g log) {g' : Ledger α} {r : Revision} {c : Atom α → ℕ}
    (hex : Exact e' g') (hrevs : e'.revs = e.revs ++ [r]) (hrid : r.revId = e.nextRevId)
    (heff : g'.effect = extendEffect g.effect e.nextRevId c)
    (hold : (g'.atoms.filter fun k ↦ !isOwn e.nextRevId k) = g.atoms)
    (hw : undoneBefore e'.undoneGroups [r] = e.undoneGroups)
    (hnew : ∀ t b, r.edit = .undo t b → ∀ k ∈ unionAt g'.atoms e.revs, g'.effect r.revId k
      = replay g'.effect e'.undoneGroups e.revs k
        ^^^ replay g'.effect (undoneBefore e'.undoneGroups [r]) e.revs k) :
    Tracked e' g' (logHead log e e') := by
  have hfresh := h.exact.represents.nextRevId_not_mem
  obtain ⟨last, hlast, -, hhead⟩ := h.exact.represents.exists_getLast
  have hhead' : e'.getHeadRevId = some e.nextRevId := by
    rw [getHeadRevId, hrevs, List.getLast?_append]
    simp [hrid]
  have hlog : ∀ id, logHead log e e' id = if id = e.nextRevId then e'.text else log id := by
    intro id
    have hne : e'.getHeadRevId ≠ e.getHeadRevId := by
      rw [hhead', hhead]
      intro heq
      refine hfresh (List.mem_map.mpr ⟨last, List.mem_of_getLast? hlast, ?_⟩)
      exact (Option.some.inj heq).symm
    rw [logHead, if_neg hne, hhead']
    simp only [Option.some.injEq, getHead, eq_comm]
  -- prefixes of the old history look the same
  have hpre : ∀ pre q post, e.revs = pre ++ q :: post →
      unionAt g'.atoms (pre ++ [q]) = unionAt g.atoms (pre ++ [q]) ∧
      unionAt g'.atoms pre = unionAt g.atoms pre ∧
      q.revId ≠ e.nextRevId ∧
      ∀ k ∈ unionAt g.atoms (pre ++ [q]), k.rev ≠ e.nextRevId ∧ ∀ w,
        replay g'.effect w (pre ++ [q]) k = replay g.effect w (pre ++ [q]) k ∧
        replay g'.effect w pre k = replay g.effect w pre k := by
    intro pre q post heq
    have hmem : ∀ s ∈ pre ++ [q], s.revId ≠ e.nextRevId := fun s hs hseq ↦ hfresh (by
      rw [heq]
      refine List.mem_map.mpr ⟨s, ?_, hseq⟩
      simp only [List.mem_append, List.mem_cons] at hs ⊢
      tauto)
    have hid₁ : e.nextRevId ∉ (pre ++ [q]).map Revision.revId := fun hin ↦ by
      obtain ⟨s, hs, hseq⟩ := List.mem_map.mp hin
      exact hmem s hs hseq
    have hid₂ : e.nextRevId ∉ pre.map Revision.revId := fun hin ↦ hid₁ (by simp [hin])
    refine ⟨History.unionAt_extend hold hid₁, History.unionAt_extend hold hid₂, hmem q (by simp),
      fun k hk ↦ ?_⟩
    have hne : k.rev ≠ e.nextRevId := of_decide_eq_false
      (h.exact.represents.history.isOwn_eq_false hfresh (mem_unionAt.mp hk).1)
    exact ⟨hne, fun w ↦ by
      rw [heff]; exact ⟨replay_extendEffect hid₁ w hne, replay_extendEffect hid₂ w hne⟩⟩
  have hback : ∀ post, undoneBefore e'.undoneGroups (post ++ [r]) = undoneBefore e.undoneGroups
    post :=
    fun post ↦ by rw [undoneBefore_append, hw]
  refine ⟨hex, ?_, ?_⟩
  · intro pre q post t b heq hq k hk
    rw [hrevs] at heq
    rcases append_singleton_eq_append_cons heq with ⟨rfl, rfl, rfl⟩ | ⟨post', rfl, heq'⟩
    · exact hnew t b hq k hk
    · obtain ⟨-, hu, hqid, hrep⟩ := hpre pre q post' heq'
      rw [hu] at hk
      have hk' : k ∈ unionAt g.atoms (pre ++ [q]) := by
        obtain ⟨h1, h2⟩ := mem_unionAt.mp hk
        exact mem_unionAt.mpr ⟨h1, by rw [known_append, h2, Bool.true_or]⟩
      obtain ⟨hne, hrep⟩ := hrep k hk'
      rw [(hrep _).2, (hrep _).2, heff, extendEffect_of_ne hne hqid, ← List.cons_append, hback,
        hback]
      exact h.undos pre q post' t b heq' hq k hk
  · intro pre q post heq
    rw [hrevs] at heq
    rcases append_singleton_eq_append_cons heq with ⟨rfl, rfl, rfl⟩ | ⟨post', rfl, heq'⟩
    · rw [hlog, if_pos hrid, hex.represents.text, ← hrevs, hex.represents.history.unionAt_self]
      exact visible_congr fun k hk ↦ hex.count k hk
    · obtain ⟨hu, -, hqid, hrep⟩ := hpre pre q post' heq'
      rw [hlog, if_neg hqid, h.log pre q post' heq', hu, hback]
      exact visible_congr fun k hk ↦ (((hrep k hk).2 _).1).symm

/-- An undo that only changes the set of undone groups. -/
theorem Tracked.withUndone (h : Tracked e g log) {groups : Finset ℕ}
    (hex : Exact { e with undoneGroups := groups } g)
    (hsame : ∀ r ∈ e.revs, ∀ gr ∈ r.edit.group?, gr ∉ symmDiff e.undoneGroups groups) :
    Tracked { e with undoneGroups := groups } g log := by
  have hcongr : ∀ pre revs, (∀ r ∈ pre, r ∈ e.revs) → ∀ k,
      replay g.effect (undoneBefore groups revs) pre k
        = replay g.effect (undoneBefore e.undoneGroups revs) pre k := by
    intro pre revs hpre k
    refine replay_congr (fun r hr gr hgr ↦ ?_) k
    have hnot := hsame r (hpre r hr) gr hgr
    rw [← symmDiff_undoneBefore e.undoneGroups groups revs, Finset.mem_symmDiff] at hnot
    tauto
  refine ⟨hex, ?_, ?_⟩
  · intro pre r post t b heq hr k hk
    have hpre : ∀ q ∈ pre, q ∈ e.revs := fun q hq ↦ by
      rw [show e.revs = pre ++ r :: post from heq]
      simp [hq]
    rw [hcongr pre post hpre, hcongr pre (r :: post) hpre]
    exact h.undos pre r post t b heq hr k hk
  · intro pre r post heq
    rw [h.log pre r post heq]
    refine visible_congr fun k _ ↦ (hcongr (pre ++ [r]) post (fun q hq ↦ ?_) k).symm
    rw [show e.revs = pre ++ r :: post from heq]
    simp only [List.mem_append, List.mem_cons] at hq ⊢
    tauto

theorem logHead_of_revs_eq (h : e'.revs = e.revs) : logHead log e e' = log := by
  rw [logHead, if_pos (by rw [getHeadRevId, getHeadRevId, h])]

theorem Tracked.edited (h : Tracked e g log) {priority undoGroup : ℕ} {d : Delta α}
    {pre post : List Revision} {u' : List (Atom α)}
    (hed : Edited e g priority undoGroup d pre post u' e') :
    ∃ g', Tracked e' g' (logHead log e e') := by
  rcases h.exact.edited hed with rfl | ⟨headMax, rfl, hex⟩
  · exact ⟨g, by rw [logHead_of_revs_eq rfl]; exact h⟩
  · exact ⟨_, h.extend hex rfl rfl rfl hed.old (undoneBefore_edit _ rfl)
      fun t b hedit ↦ by cases hedit⟩

theorem Tracked.undone (h : Tracked e g log) {groups : Finset ℕ} {headMax : ℕ}
    (hex : Exact (undoneEngine e g groups headMax (replay g.effect groups e.revs))
      (undoneLedger e g (replay g.effect groups e.revs))) :
    Tracked (undoneEngine e g groups headMax (replay g.effect groups e.revs))
      (undoneLedger e g (replay g.effect groups e.revs))
      (logHead log e (undoneEngine e g groups headMax (replay g.effect groups e.revs))) := by
  have hfresh := h.exact.represents.nextRevId_not_mem
  have hnot : ∀ k ∈ g.atoms, isOwn e.nextRevId k = false := fun k hk ↦
    h.exact.represents.history.isOwn_eq_false hfresh hk
  have hback : symmDiff groups (symmDiff e.undoneGroups groups) = e.undoneGroups := by
    rw [symmDiff_comm e.undoneGroups, symmDiff_symmDiff_cancel_left]
  refine h.extend hex rfl rfl rfl (List.filter_eq_self.mpr fun k hk ↦ ?_)
    ((undoneBefore_undo groups rfl).trans hback) fun t b _ k hk ↦ ?_
  · rw [show isOwn e.nextRevId k = false from hnot k hk]
    rfl
  · have hk' : k ∈ g.atoms := (mem_unionAt.mp hk).1
    have hne : k.rev ≠ e.nextRevId := of_decide_eq_false (hnot k hk')
    have hself : (undoneLedger e g (replay g.effect groups e.revs)).effect e.nextRevId k
        = g.count k ^^^ replay g.effect groups e.revs k := by
      simp only [undoneLedger, extendEffect_self hne]
    have hrep : ∀ w, replay (undoneLedger e g (replay g.effect groups e.revs)).effect w e.revs k
        = replay g.effect w e.revs k := fun w ↦ replay_extendEffect hfresh w hne
    refine hself.trans ?_
    rw [hrep, hrep, undoneBefore_undo _ rfl, h.exact.count k hk', Nat.xor_comm]
    exact congrArg _ (congrArg (fun w ↦ replay g.effect w e.revs k) hback.symm)

theorem Tracked.step {token : RevId → RevToken} (h : Tracked e g log)
    (hs : EditUndo token Honest e e') : ∃ g', Tracked e' g' (logHead log e e') := by
  cases hs with
  | edit priority undoGroup baseRev d hd hok =>
    obtain ⟨pre, r, post, u', -, -, hed⟩ := h.exact.represents.tryEditRev_ok hd hok
    exact h.edited hed
  | undo groups hhonest hok =>
    rcases h.exact.undo_cases groups with ⟨hsame, hundo, hex⟩ | ⟨-, headMax, -, hundo, hex⟩
    · rw [hok] at hundo
      obtain rfl := Option.some.inj hundo
      refine ⟨g, ?_⟩
      rw [@logHead_of_revs_eq _ e { e with undoneGroups := groups } log rfl]
      refine h.withUndone hex (hhonest.resolve_left fun hne ↦ hne ?_)
      rw [h.exact.represents.deletesFromUnionForUndoneGroups_eq, h.exact.represents.dels]
      exact congrArg some (Subset.label_congr fun k hk ↦ (hsame k hk).symm)
    · rw [hok] at hundo
      obtain rfl := Option.some.inj hundo
      exact ⟨_, h.undone hex⟩

theorem Logged.tracked {token : RevId → RevToken} (h : Logged token Honest e log) :
    ∃ g, Tracked e g log := by
  induction h with
  | start hnew =>
    obtain ⟨e₀, he₀, hcases⟩ := new_eq token _
    rw [hnew] at he₀
    obtain rfl := Option.some.inj he₀
    rcases hcases with rfl | ⟨d, u', hd, hed⟩
    · exact ⟨_, by rw [logHead_of_revs_eq rfl]; exact tracked_empty⟩
    · exact tracked_empty.edited hed
  | step _ hs ih =>
    obtain ⟨g, hg⟩ := ih
    exact hg.step hs

/-! ## The contents of revisions -/

/-- **Revision contents are immutable**, in runs whose undos are honest. -/
theorem Logged.getRev_eq_log {token : RevId → RevToken} (h : Logged token Honest e log)
    (hinj : ∀ r ∈ e.revs, ∀ s ∈ e.revs, token r.revId = token s.revId → r.revId = s.revId) :
    ∀ r ∈ e.revs, e.getRev token (token r.revId) = some (some (log r.revId)) := by
  obtain ⟨g, hg⟩ := h.tracked
  exact fun r hr ↦ hg.getRev_eq hinj hr

/-- A run with an edit, an undo of it and a redo. -/
theorem getRev_eq_log_redo : ∃ (e : Engine ℕ) (log : RevId → List ℕ),
    e.revs.map Revision.revId = [⟨0, 0, 0⟩, ⟨1, 0, 1⟩, ⟨1, 0, 2⟩, ⟨1, 0, 3⟩] ∧
    e.getHead = [7] ∧
    ∀ r ∈ e.revs, e.getRev RevId.num r.revId.num = some (some (log r.revId)) := by
  have h : Logged RevId.num Honest _ _ := .step (.step (@Logged.start _ _ _ [7] _ rfl)
    (.undo {0} (.inl (by decide +kernel)) rfl)) (.undo ∅ (.inl (by decide +kernel)) rfl)
  exact ⟨_, _, by decide +kernel, by decide +kernel,
    h.getRev_eq_log (by decide +kernel)⟩

/-- An edit inserts a character and a second edit of the same group deletes it. Undoing the group
does not change the deletions, so it is not recorded, and the contents after the first edit are
lost. -/
theorem silent_undo_loses_contents :
    ¬ ∀ (e : Engine ℕ) (log : RevId → List ℕ), Logged RevId.num (fun _ _ ↦ True) e log →
      (∀ r ∈ e.revs, ∀ s ∈ e.revs, r.revId.num = s.revId.num → r.revId = s.revId) →
      ∀ r ∈ e.revs, e.getRev RevId.num r.revId.num = some (some (log r.revId)) := by
  intro h
  have hrun : Logged RevId.num (fun _ _ ↦ True) _ _ := .step (.step (.step
    (@Logged.start ℕ _ _ [] _ rfl)
    (.edit 0 1 0 (Delta.simpleEdit 0 0 [7] 0) (by decide) rfl))
    (.edit 0 1 1 (Delta.simpleEdit 0 1 [] 1) (by decide) rfl)) (.undo {1} trivial rfl)
  have := h _ _ hrun (by decide +kernel)
  exact absurd this (by decide +kernel)

end Engine

end EeEditor
