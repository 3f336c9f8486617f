import EeEditor.Engine.Undo
import EeEditor.Rope.Label

/-!
# Inverting and replaying revisions on the ledger

`unapply` and `reapply` change the coordinates of a deletion set with every revision. On the
ledger they do not: inverting subtracts the effect of a revision, replaying adds it
(`replay` is the sum), and the coordinates are those of `unionAt`.

## The ledger of an engine

The engine stores its history as subsets of a union string that nobody writes down. The *ledger*
writes it down: the atoms of the union string, each with the revision that inserted it, the effect
of every revision on every atom, and how often each atom is deleted. `Engine.Represents` says that
the engine is the encoding of a ledger, with every subset in the coordinates of its own revision.

On the ledger a change of coordinates is invisible: the loops of the engine that invert or replay
revisions add and subtract effects.
-/

namespace EeEditor

variable {α : Type}

/-- One character of the union string: the `idx`-th character inserted by the revision `rev`. -/
structure Atom (α : Type) where
  rev : RevId
  idx : ℕ
  val : α
deriving DecidableEq, Repr

/-- The revision of an atom is among `revs`. -/
def known (revs : List Revision) (k : Atom α) : Bool := decide (k.rev ∈ revs.map Revision.revId)

@[simp] theorem known_nil (k : Atom α) : known [] k = false := by simp [known]

@[simp] theorem known_append (revs revs' : List Revision) (k : Atom α) :
    known (revs ++ revs') k = (known revs k || known revs' k) := by
  simp [known, Bool.decide_or]

@[simp] theorem known_singleton (r : Revision) (k : Atom α) :
    known [r] k = decide (k.rev = r.revId) := by simp [known]

/-- The union string at the time of the last revision of `revs`. -/
def unionAt (u : List (Atom α)) (revs : List Revision) : List (Atom α) := u.filter (known revs)

theorem mem_unionAt {u : List (Atom α)} {revs : List Revision} {k : Atom α} :
    k ∈ unionAt u revs ↔ k ∈ u ∧ known revs k = true := List.mem_filter

/-- The atoms of a revision. -/
def own (id : RevId) (k : Atom α) : ℕ := if k.rev = id then 1 else 0

/-- The revision is the encoding of its effect, in the coordinates of the union string `u`. -/
def Revision.Encodes (r : Revision) (u : List (Atom α)) (effect : Atom α → ℕ) : Prop :=
  match r.edit with
  | .edit _ _ inserts deletes =>
    inserts = .label u (own r.revId) ∧ deletes = .label u effect
  | .undo _ deletesBitxor => deletesBitxor = .label u effect

/-- The revisions are the encoding of `effect`. -/
structure History (u : List (Atom α)) (effect : RevId → Atom α → ℕ) (revs : List Revision) :
    Prop where
  nodup : u.Nodup
  ids : (revs.map Revision.revId).Nodup
  inserted : ∀ k ∈ u, ∃ r ∈ revs, r.revId = k.rev ∧ r.edit.isEdit = true
  encodes : ∀ pre r post, revs = pre ++ r :: post →
    r.Encodes (unionAt u (pre ++ [r])) (effect r.revId)
  /-- A revision only affects atoms inserted before it. -/
  earlier : ∀ pre r post, revs = pre ++ r :: post → ∀ k ∈ u, known pre k = false →
    effect r.revId k = 0

namespace History

variable {u : List (Atom α)} {effect : RevId → Atom α → ℕ} {revs pre post : List Revision}
  {r : Revision}

theorem unionAt_self (h : History u effect revs) : unionAt u revs = u := by
  refine List.filter_eq_self.mpr fun k hk ↦ ?_
  obtain ⟨r, hr, hid, -⟩ := h.inserted k hk
  exact decide_eq_true (List.mem_map.mpr ⟨r, hr, hid⟩)

theorem revId_not_mem (h : History u effect (pre ++ r :: post)) :
    r.revId ∉ pre.map Revision.revId := by
  have hids := h.ids
  rw [List.map_append, List.map_cons, List.nodup_append] at hids
  exact fun hmem ↦ hids.2.2 _ hmem _ (by simp) rfl

/-- The atoms of a revision are not known before it. -/
theorem known_pre_eq_false (h : History u effect (pre ++ r :: post)) {k : Atom α}
    (hk : k.rev = r.revId) : known pre k = false := by
  rw [known, hk]
  exact decide_eq_false h.revId_not_mem

/-- Undoing the insertions of a revision. -/
theorem filter_own (h : History u effect (pre ++ r :: post)) :
    ((unionAt u (pre ++ [r])).filter fun k ↦ own r.revId k = 0) = unionAt u pre := by
  rw [unionAt, unionAt, List.filter_filter]
  refine List.filter_congr fun k _ ↦ ?_
  by_cases hk : k.rev = r.revId
  · simp [own, hk, h.known_pre_eq_false hk]
  · simp [own, hk]

/-- An undo inserts no atoms. -/
theorem unionAt_append_undo (h : History u effect (pre ++ r :: post))
    (hr : r.edit.isEdit = false) : unionAt u (pre ++ [r]) = unionAt u pre := by
  refine List.filter_congr fun k hk ↦ ?_
  rw [known_append, known_singleton]
  by_cases hkr : k.rev = r.revId
  · -- the revision of an atom is an edit
    obtain ⟨r', hr', hid, hedit⟩ := h.inserted k hk
    have heq : r' = r := List.inj_on_of_nodup_map h.ids hr' (by simp) (by rw [hid, hkr])
    rw [heq, hr] at hedit
    cases hedit
  · simp [hkr]

end History

end EeEditor

namespace EeEditor

variable {α : Type}

/-! ## Replaying -/

/-- What a revision contributes to the deletions, for a set of undone groups: an edit that is
undone deletes what it inserted, an edit that is done deletes what it deleted. -/
def contribution (effect : RevId → Atom α → ℕ) (groups : Finset ℕ) (r : Revision) (k : Atom α) :
    ℕ :=
  match r.edit with
  | .edit _ undoGroup _ _ => if undoGroup ∈ groups then own r.revId k else effect r.revId k
  | .undo .. => 0

/-- The deletions of a list of revisions, for a set of undone groups. -/
def replay (effect : RevId → Atom α → ℕ) (groups : Finset ℕ) (revs : List Revision)
    (k : Atom α) : ℕ := (revs.map fun r ↦ contribution effect groups r k).sum

section

variable (effect : RevId → Atom α → ℕ) (groups : Finset ℕ)

@[simp] theorem replay_nil (k : Atom α) : replay effect groups [] k = 0 := rfl

@[simp] theorem replay_append (revs revs' : List Revision) (k : Atom α) :
    replay effect groups (revs ++ revs') k
      = replay effect groups revs k + replay effect groups revs' k := by
  simp [replay]

@[simp] theorem replay_singleton (r : Revision) (k : Atom α) :
    replay effect groups [r] k = contribution effect groups r k := by
  simp [replay]

end

namespace History

variable {u : List (Atom α)} {effect : RevId → Atom α → ℕ} {revs pre post : List Revision}
  {r : Revision} {k : Atom α} {groups : Finset ℕ}

/-- Revisions contribute nothing to atoms inserted after them. -/
theorem contribution_eq_zero (h : History u effect (pre ++ r :: post)) (hk : k ∈ u)
    (hnot : known (pre ++ [r]) k = false) : contribution effect groups r k = 0 := by
  rw [known_append, known_singleton, Bool.or_eq_false_iff] at hnot
  have hne : k.rev ≠ r.revId := of_decide_eq_false hnot.2
  rw [contribution]
  split
  · split
    · simp [own, hne]
    · exact h.earlier _ _ _ rfl k hk hnot.1
  · rfl

theorem replay_eq_zero (h : History u effect (pre ++ post)) (hk : k ∈ u)
    (hnot : known pre k = false) : replay effect groups pre k = 0 := by
  refine List.sum_eq_zero fun c hc ↦ ?_
  obtain ⟨r, hr, rfl⟩ := List.mem_map.mp hc
  obtain ⟨pre₁, pre₂, rfl⟩ := List.append_of_mem hr
  have h' : History u effect (pre₁ ++ r :: (pre₂ ++ post)) := by simpa using h
  refine h'.contribution_eq_zero hk ?_
  rw [show pre₁ ++ r :: pre₂ = pre₁ ++ [r] ++ pre₂ by simp, known_append,
    Bool.or_eq_false_iff] at hnot
  exact hnot.1

/-- The atoms of the union string after a revision are old, or inserted by it. -/
theorem own_cases (h : History u effect (pre ++ r :: post)) (hk : k ∈ unionAt u (pre ++ [r])) :
    known pre k = true ∧ own r.revId k = 0 ∨ known pre k = false ∧ own r.revId k = 1 := by
  have hmem := (mem_unionAt.mp hk).2
  by_cases hkr : k.rev = r.revId
  · exact .inr ⟨h.known_pre_eq_false hkr, by simp [own, hkr]⟩
  · simp only [known_append, known_singleton, hkr, decide_false, Bool.or_false] at hmem
    exact .inl ⟨hmem, by simp [own, hkr]⟩

/-- One step of the replay. -/
theorem reapply_eq (h : History u effect (pre ++ r :: post)) (c : Atom α → ℕ) :
    Engine.reapply groups (.label (unionAt u pre) c) r
      = some (.label (unionAt u (pre ++ [r])) fun k ↦
          (if known pre k then c k else 0) + contribution effect groups r k) := by
  have henc := h.encodes _ _ _ rfl
  rw [Engine.reapply]
  rw [Revision.Encodes] at henc
  cases hr : r.edit with
  | undo toggled bitxor =>
    have hu := h.unionAt_append_undo (by rw [hr]; rfl)
    rw [hu]
    refine congrArg some (Subset.label_congr fun k hk ↦ ?_)
    simp [contribution, hr, (mem_unionAt.mp hk).2]
  | edit priority undoGroup inserts deletes =>
    rw [hr] at henc
    obtain ⟨rfl, rfl⟩ := henc
    rw [← h.filter_own]
    dsimp only
    split
    · next hg =>
      rw [Subset.transformUnion_or_skip]
      refine congrArg some (Subset.label_congr fun k hk ↦ ?_)
      rcases h.own_cases hk with ⟨h1, h2⟩ | ⟨h1, h2⟩ <;> simp [contribution, hr, hg, h1, h2]
    · next hg =>
      rw [Subset.transformExpand_or_skip, Option.bind_eq_bind, Option.bind_some,
        Subset.union_or_skip]
      refine congrArg some (Subset.label_congr fun k hk ↦ ?_)
      rcases h.own_cases hk with ⟨h1, h2⟩ | ⟨h1, h2⟩ <;> simp [contribution, hr, hg, h1, h2]

/-- A loop over revisions whose steps only add something to the deletions adds up what they
add. -/
theorem foldlM_add {f : Subset → Revision → Option Subset} {d : Revision → Atom α → ℕ}
    (hstep : ∀ {pre post : List Revision} {r : Revision}, History u effect (pre ++ r :: post) →
      ∀ c, f (.label (unionAt u pre) c) r = some (.label (unionAt u (pre ++ [r])) fun k ↦
        (if known pre k then c k else 0) + d r k))
    (hzero : ∀ {pre post : List Revision} {r : Revision} {k : Atom α},
      History u effect (pre ++ r :: post) → k ∈ u → known (pre ++ [r]) k = false → d r k = 0) :
    ∀ {mid pre : List Revision} (_ : History u effect (pre ++ mid ++ post)) (c : Atom α → ℕ),
      mid.foldlM f (.label (unionAt u pre) c) = some (.label (unionAt u (pre ++ mid)) fun k ↦
        (if known pre k then c k else 0) + (mid.map fun r ↦ d r k).sum) := by
  intro mid
  induction mid with
  | nil =>
    intro pre h c
    rw [List.append_nil]
    refine congrArg some (Subset.label_congr fun k hk ↦ ?_)
    simp [(mem_unionAt.mp hk).2]
  | cons r mid ih =>
    intro pre h c
    have h₁ : History u effect (pre ++ r :: (mid ++ post)) := by simpa using h
    have h₂ : History u effect (pre ++ [r] ++ mid ++ post) := by simpa using h
    rw [List.foldlM_cons, hstep h₁, Option.bind_eq_bind, Option.bind_some, ih h₂,
      show pre ++ [r] ++ mid = pre ++ r :: mid by simp]
    refine congrArg some (Subset.label_congr fun k hk ↦ ?_)
    rw [List.map_cons, List.sum_cons, ← Nat.add_assoc]
    congr 1
    cases hpre : known (pre ++ [r]) k with
    | true => simp
    | false =>
      have hd : d r k = 0 := hzero h₁ (mem_unionAt.mp hk).1 hpre
      rw [known_append, Bool.or_eq_false_iff] at hpre
      simp [hpre.1, hd]

/-- **Replay.** Replaying revisions on top of the deletions `c` of `pre` adds what they
contribute. -/
theorem foldlM_reapply {mid pre : List Revision} (h : History u effect (pre ++ mid ++ post))
    (c : Atom α → ℕ) : mid.foldlM (Engine.reapply groups) (.label (unionAt u pre) c)
      = some (.label (unionAt u (pre ++ mid)) fun k ↦
          (if known pre k then c k else 0) + replay effect groups mid k) :=
  foldlM_add (fun h c ↦ h.reapply_eq c) (fun h hk hnot ↦ h.contribution_eq_zero hk hnot) h c

/-! ## Hiding later insertions -/

theorem hideInserts_eq (h : History u effect (pre ++ r :: post)) (c : Atom α → ℕ) :
    Engine.hideInserts (.label (unionAt u pre) c) r
      = some (.label (unionAt u (pre ++ [r])) fun k ↦ if known pre k then c k else 1) := by
  have henc := h.encodes _ _ _ rfl
  rw [Engine.hideInserts]
  rw [Revision.Encodes] at henc
  cases hr : r.edit with
  | undo toggled bitxor =>
    rw [h.unionAt_append_undo (by rw [hr]; rfl)]
    refine congrArg some (Subset.label_congr fun k hk ↦ ?_)
    simp [(mem_unionAt.mp hk).2]
  | edit priority undoGroup inserts deletes =>
    rw [hr] at henc
    obtain ⟨rfl, rfl⟩ := henc
    rw [← h.filter_own]
    dsimp only
    rw [Subset.transformUnion_or_skip]
    refine congrArg some (Subset.label_congr fun k hk ↦ ?_)
    rcases h.own_cases hk with ⟨h1, h2⟩ | ⟨h1, h2⟩ <;> simp [h1, h2]

theorem foldlM_hideInserts : ∀ {mid pre : List Revision}
    (_ : History u effect (pre ++ mid ++ post)) (c : Atom α → ℕ),
    mid.foldlM Engine.hideInserts (.label (unionAt u pre) c)
      = some (.label (unionAt u (pre ++ mid)) fun k ↦ if known pre k then c k else 1) := by
  intro mid
  induction mid with
  | nil =>
    intro pre h c
    rw [List.append_nil]
    refine congrArg some (Subset.label_congr fun k hk ↦ ?_)
    simp [(mem_unionAt.mp hk).2]
  | cons r mid ih =>
    intro pre h c
    have h₁ : History u effect (pre ++ r :: (mid ++ post)) := by simpa using h
    have h₂ : History u effect (pre ++ [r] ++ mid ++ post) := by simpa using h
    rw [List.foldlM_cons, h₁.hideInserts_eq, Option.bind_eq_bind, Option.bind_some, ih h₂,
      show pre ++ [r] ++ mid = pre ++ r :: mid by simp]
    refine congrArg some (Subset.label_congr fun k _ ↦ ?_)
    cases hpre : known pre k <;> simp [hpre]

end History

/-! ## Inverting -/

/-- Invert a revision in the deletion counts, given the groups undone after it. -/
def invert (effect : RevId → Atom α → ℕ) (invertUndos : Bool) (r : Revision)
    (st : (Atom α → ℕ) × Finset ℕ) : (Atom α → ℕ) × Finset ℕ :=
  match r.edit with
  | .edit _ undoGroup _ _ =>
    if undoGroup ∈ st.2 then st else (fun k ↦ st.1 k - effect r.revId k, st.2)
  | .undo toggledGroups _ =>
    if invertUndos then (fun k ↦ st.1 k ^^^ effect r.revId k, symmDiff st.2 toggledGroups) else st

/-- Invert revisions, the last one first. -/
def invertAll (effect : RevId → Atom α → ℕ) (invertUndos : Bool) (revs : List Revision)
    (st : (Atom α → ℕ) × Finset ℕ) : (Atom α → ℕ) × Finset ℕ :=
  revs.foldr (invert effect invertUndos) st

/-- There is enough to subtract on the atoms `u`. -/
def Invertible (effect : RevId → Atom α → ℕ) (u : List (Atom α)) (r : Revision)
    (st : (Atom α → ℕ) × Finset ℕ) : Prop :=
  match r.edit with
  | .edit _ undoGroup _ _ => undoGroup ∉ st.2 → ∀ k ∈ u, effect r.revId k ≤ st.1 k
  | .undo .. => True

/-- The revisions `mid` after `pre` can be inverted one after the other. -/
def InvertibleAll (effect : RevId → Atom α → ℕ) (u : List (Atom α)) (invertUndos : Bool)
    (pre mid : List Revision) (st : (Atom α → ℕ) × Finset ℕ) : Prop :=
  ∀ p r q, mid = p ++ r :: q →
    Invertible effect (unionAt u (pre ++ p ++ [r])) r (invertAll effect invertUndos q st)

section

variable {effect : RevId → Atom α → ℕ} {u : List (Atom α)} {invertUndos : Bool}
  {pre mid post : List Revision} {r : Revision} {st : (Atom α → ℕ) × Finset ℕ}

@[simp] theorem invertAll_nil : invertAll effect invertUndos [] st = st := rfl

@[simp] theorem invertAll_append (revs revs' : List Revision) :
    invertAll effect invertUndos (revs ++ revs') st
      = invertAll effect invertUndos revs (invertAll effect invertUndos revs' st) :=
  List.foldr_append

@[simp] theorem invertAll_singleton :
    invertAll effect invertUndos [r] st = invert effect invertUndos r st := rfl

theorem invertibleAll_nil : InvertibleAll effect u invertUndos pre [] st := by
  intro p r q h
  simp at h

theorem invertibleAll_append_singleton :
    InvertibleAll effect u invertUndos pre (mid ++ [r]) st ↔
      Invertible effect (unionAt u (pre ++ mid ++ [r])) r st ∧
        InvertibleAll effect u invertUndos pre mid (invert effect invertUndos r st) := by
  constructor
  · intro h
    refine ⟨h mid r [] rfl, fun p s q hq ↦ ?_⟩
    have := h p s (q ++ [r]) (by simp [hq])
    simpa using this
  · rintro ⟨h1, h2⟩ p s q hq
    rcases List.eq_nil_or_concat q with rfl | ⟨q, t, rfl⟩
    · obtain ⟨rfl, hs⟩ := List.append_inj' hq rfl
      cases hs
      exact h1
    · have hq' : mid ++ [r] = (p ++ s :: q) ++ [t] := by simpa using hq
      obtain ⟨rfl, ht⟩ := List.append_inj' hq' rfl
      cases ht
      have := h2 p s q rfl
      simpa using this

end

namespace History

variable {u : List (Atom α)} {effect : RevId → Atom α → ℕ} {pre post : List Revision}
  {r : Revision} {invertUndos : Bool}

/-- Inverting one revision does not panic exactly when there is enough to subtract. -/
theorem unapply_eq_some_iff (h : History u effect (pre ++ r :: post)) (c : Atom α → ℕ)
    (w : Finset ℕ) (st : Subset × Finset ℕ) :
    Engine.unapply invertUndos r (.label (unionAt u (pre ++ [r])) c, w) = some st ↔
      Invertible effect (unionAt u (pre ++ [r])) r (c, w) ∧
        st = (.label (unionAt u pre) (invert effect invertUndos r (c, w)).1,
          (invert effect invertUndos r (c, w)).2) := by
  have henc := h.encodes _ _ _ rfl
  rw [Engine.unapply, Invertible, invert]
  rw [Revision.Encodes] at henc
  cases hr : r.edit with
  | undo toggled bitxor =>
    rw [hr] at henc
    subst henc
    have hu := h.unionAt_append_undo (by rw [hr]; rfl)
    dsimp only
    cases invertUndos with
    | true =>
      rw [if_pos rfl, if_pos rfl, Subset.bitxor_label, hu]
      simp [eq_comm]
    | false =>
      rw [if_neg (by simp), if_neg (by simp), hu]
      simp [eq_comm]
  | edit priority undoGroup inserts deletes =>
    rw [hr] at henc
    obtain ⟨rfl, rfl⟩ := henc
    dsimp only
    by_cases hg : undoGroup ∈ w
    · rw [if_pos hg, if_pos hg, Subset.transformShrink_label, h.filter_own]
      simp [hg, eq_comm]
    · rw [if_neg hg, if_neg hg]
      constructor
      · intro hs
        obtain ⟨t, ht, hs⟩ := Option.bind_eq_some_iff.mp hs
        have hle := Subset.le_of_subtract_label ht
        rw [Subset.subtract_label hle] at ht
        obtain rfl := Option.some.inj ht
        rw [Subset.transformShrink_label, h.filter_own] at hs
        exact ⟨fun _ ↦ hle, (Option.some.inj hs).symm⟩
      · rintro ⟨hle, rfl⟩
        rw [Subset.subtract_label (hle hg), Option.bind_eq_bind, Option.bind_some,
          Subset.transformShrink_label, h.filter_own]
        rfl

/-- **The walk backwards.** Inverting revisions does not panic exactly when there is enough to
subtract on the way. -/
theorem unapplyAll_eq_some_iff (invertUndos : Bool) : ∀ {mid post : List Revision}
    (_ : History u effect (pre ++ mid ++ post)) (c : Atom α → ℕ) (w : Finset ℕ)
    (st : Subset × Finset ℕ),
    Engine.unapplyAll invertUndos mid (.label (unionAt u (pre ++ mid)) c, w) = some st ↔
      InvertibleAll effect u invertUndos pre mid (c, w) ∧
        st = (.label (unionAt u pre) (invertAll effect invertUndos mid (c, w)).1,
          (invertAll effect invertUndos mid (c, w)).2) := by
  intro mid
  induction mid using List.reverseRecOn with
  | nil =>
    intro post h c w st
    simp [Engine.unapplyAll, invertibleAll_nil, eq_comm]
  | append_singleton mid r ih =>
    intro post h c w st
    have h₁ : History u effect (pre ++ mid ++ r :: post) := by simpa using h
    have hstep : Engine.unapplyAll invertUndos (mid ++ [r])
        (.label (unionAt u (pre ++ (mid ++ [r]))) c, w)
        = Engine.unapply invertUndos r (.label (unionAt u (pre ++ mid ++ [r])) c, w) >>=
          Engine.unapplyAll invertUndos mid := by
      rw [Engine.unapplyAll, List.reverse_append, List.reverse_singleton, List.singleton_append,
        List.foldlM_cons, ← List.append_assoc]
      rfl
    rw [hstep, Option.bind_eq_bind, Option.bind_eq_some_iff, invertibleAll_append_singleton,
      invertAll_append, invertAll_singleton]
    constructor
    · rintro ⟨st₁, h1, h2⟩
      obtain ⟨hinv, rfl⟩ := (h₁.unapply_eq_some_iff c w st₁).mp h1
      obtain ⟨hall, rfl⟩ := (ih h₁ _ _ st).mp h2
      exact ⟨⟨hinv, hall⟩, rfl⟩
    · rintro ⟨⟨hinv, hall⟩, rfl⟩
      exact ⟨_, (h₁.unapply_eq_some_iff c w _).mpr ⟨hinv, rfl⟩, (ih h₁ _ _ _).mpr ⟨hall, rfl⟩⟩

end History

end EeEditor
