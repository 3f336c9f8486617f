import EeEditor.Engine.Extend

/-!
# What an edit does to the ledger

`Engine::mk_new_rev` factors a delta, expands it over the deletions of the base revision and over
every later insertion, shrinks it to the visible text and shuffles. On the ledger it inserts new
atoms somewhere among the old ones, in the order of the delta, and deletes the atoms of the base
text that the delta does not copy.
-/

namespace EeEditor

variable {α : Type}

open Script

/-! ## New atoms -/

/-- Give the inserted characters of a script their atoms, numbered from `n`. -/
def atomize (id : RevId) : ℕ → List (Option α) → List (Option (Atom α))
  | _, [] => []
  | n, none :: s => none :: atomize id n s
  | n, some a :: s => some ⟨id, n, a⟩ :: atomize id (n + 1) s

section

variable (id : RevId)

@[simp] theorem kept_atomize (s : List (Option α)) : ∀ n, kept (atomize id n s) = kept s := by
  induction s with
  | nil => intro n; rfl
  | cons o s ih => intro n; cases o <;> simp [atomize, ih]

theorem map_atomize (s : List (Option α)) :
    ∀ n, (atomize id n s).map (Option.map Atom.val) = s := by
  induction s with
  | nil => intro n; rfl
  | cons o s ih => intro n; cases o <;> simp [atomize, ih]

theorem mem_inserted_atomize (s : List (Option α)) : ∀ n, ∀ k ∈ inserted (atomize id n s),
    k.rev = id ∧ n ≤ k.idx := by
  induction s with
  | nil => intro n k hk; cases hk
  | cons o s ih =>
    intro n k hk
    cases o with
    | none => exact ih n k hk
    | some a =>
      rcases List.mem_cons.mp hk with rfl | hk
      · exact ⟨rfl, le_refl n⟩
      · have := ih (n + 1) k hk
        exact ⟨this.1, by omega⟩

theorem nodup_inserted_atomize (s : List (Option α)) : ∀ n, (inserted (atomize id n s)).Nodup := by
  induction s with
  | nil => intro n; exact List.nodup_nil
  | cons o s ih =>
    intro n
    cases o with
    | none => exact ih n
    | some a =>
      refine List.nodup_cons.mpr ⟨fun hmem ↦ ?_, ih (n + 1)⟩
      have := (mem_inserted_atomize id s (n + 1) _ hmem).2
      dsimp only at this
      omega

end

/-- A list without repetitions in two parts has none. -/
theorem nodup_of_filter {κ : Type*} {l : List κ} {p : κ → Bool} (h1 : (l.filter p).Nodup)
    (h2 : (l.filter fun k ↦ !p k).Nodup) : l.Nodup := by
  refine (List.filter_append_perm p l).nodup_iff.mp (List.nodup_append.mpr ⟨h1, h2, ?_⟩)
  intro a ha b hb hab
  have hpa := (List.mem_filter.mp ha).2
  have hpb := (List.mem_filter.mp hb).2
  rw [← hab, hpa] at hpb
  cases hpb

/-! ## Deleted atoms -/

/-- Some `Copy` of the delta covers position `i`. -/
def copies (els : List (DeltaElement α)) (i : ℕ) : Bool :=
  els.any fun el ↦
    match el with
    | .copy b e => decide (b ≤ i) && decide (i < e)
    | .insert _ => false

theorem copies_copy_cons (b e : ℕ) (els : List (DeltaElement α)) (i : ℕ) :
    copies (.copy b e :: els) i = (decide (b ≤ i) && decide (i < e) || copies els i) := rfl

/-- Nothing is copied from before the first position allowed. -/
theorem Ascending.copies_eq_false {els : List (DeltaElement α)} {p q i : ℕ}
    (h : Ascending p els q) (hi : i < p) : copies els i = false := by
  refine List.any_eq_false.mpr fun el hel ↦ ?_
  cases el with
  | insert n => simp
  | copy b e =>
    have := (Ascending.mem_copy h hel).1
    simp only [Bool.and_eq_true, decide_eq_true_eq]
    omega

private theorem range'_split {a b c : ℕ} (h1 : a ≤ b) (h2 : b ≤ c) :
    List.range' a (c - a) = List.range' a (b - a) ++ List.range' b (c - b) := by
  have := List.range'_append_1 (s := a) (m := b - a) (n := c - b)
  rw [Nat.add_sub_cancel' h1] at this
  rw [this]
  congr 1
  omega

theorem factorDels_eq {q : ℕ} : ∀ {els : List (DeltaElement α)} {p : ℕ}, Ascending p els q →
    Delta.factorDels q p (flatten els)
      = (List.range' p (q - p)).map fun i ↦ if copies els i then 0 else 1 := by
  intro els
  induction els with
  | nil => intro p _; simp [Delta.factorDels, copies, List.map_const']
  | cons el els ih =>
    intro p h
    cases el with
    | insert n => rw [flatten_cons, DeltaElement.flat, Delta.factorDels_insert, ih h.2]; rfl
    | copy b e =>
      obtain ⟨hp, hbe, h⟩ := h
      have heq := h.le
      rw [flatten_cons, DeltaElement.flat, Delta.factorDels_copy q _ _ _ _ hp (by omega),
        Nat.add_sub_cancel' hbe.le, ih h, range'_split hp (hbe.le.trans heq),
        range'_split hbe.le heq, List.map_append, List.map_append]
      -- the gap before the copy, the copy, and the rest
      congr 1
      · symm
        rw [List.eq_replicate_iff]
        refine ⟨by simp, fun c hc ↦ ?_⟩
        obtain ⟨i, hi, rfl⟩ := List.mem_map.mp hc
        rw [List.mem_range'_1] at hi
        rw [copies_copy_cons, h.copies_eq_false (by omega), decide_eq_false (by omega)]
        rfl
      · congr 1
        · symm
          rw [List.eq_replicate_iff]
          refine ⟨by simp, fun c hc ↦ ?_⟩
          obtain ⟨i, hi, rfl⟩ := List.mem_map.mp hc
          rw [List.mem_range'_1] at hi
          rw [copies_copy_cons, decide_eq_true (by omega), decide_eq_true (by omega)]
          rfl
        · refine List.map_congr_left fun i hi ↦ ?_
          rw [List.mem_range'_1] at hi
          rw [copies_copy_cons, decide_eq_false (p := i < e) (by omega)]
          simp

open Classical in
/-- The atoms of the text `b` that the delta does not copy. -/
noncomputable def deletedBy (d : Delta α) (b : List (Atom α)) (k : Atom α) : ℕ :=
  if k ∈ b ∧ copies d.els (b.idxOf k) = false then 1 else 0

theorem Delta.WellFormed.factor_label {d : Delta α} (h : d.WellFormed) {b : List (Atom α)}
    (hb : b.Nodup) (hlen : d.baseLen = b.length) :
    ∃ ins, d.factor = some (ins, .label b (deletedBy d b)) ∧
      ins.Realizes (Delta.factorItems d.baseLen 0 (flatten d.els)) ∧
      ins.delta.baseLen = d.baseLen := by
  obtain ⟨ins, hf, hreal, hbase⟩ := h.factor_eq
  refine ⟨ins, ?_, hreal, hbase⟩
  rw [hf, factorDels_eq h, Subset.label]
  congr 3
  classical
  refine List.ext_getElem (by simp [hlen]) fun i h1 h2 ↦ ?_
  rw [List.getElem_map, List.getElem_map, List.getElem_range', deletedBy, hb.idxOf_getElem]
  cases hc : copies d.els i <;> simp [hc]

/-! ## Rebasing to the head -/

/-- The atoms of the revision `id`. -/
def isOwn (id : RevId) (k : Atom α) : Bool := decide (k.rev = id)

theorem own_eq_isOwn (id : RevId) (k : Atom α) : own id k = if isOwn id k then 1 else 0 := by
  simp [own, isOwn]

namespace History

variable {u : List (Atom α)} {effect : RevId → Atom α → ℕ} {revs post : List Revision}
  {id : RevId}

theorem isOwn_eq_false (h : History u effect revs) (hid : id ∉ revs.map Revision.revId)
    {k : Atom α} (hk : k ∈ u) : isOwn id k = false := by
  obtain ⟨r, hr, hrid, -⟩ := h.inserted k hk
  refine decide_eq_false fun heq ↦ hid ?_
  exact List.mem_map.mpr ⟨r, hr, by rw [hrid, heq]⟩

/-- One step: the arrangement among the atoms up to `r`. -/
theorem expandOver_eq (prio : FullPriority) {pre : List Revision} {r : Revision}
    (h : History u effect (pre ++ r :: post)) (hid : id ∉ (pre ++ r :: post).map Revision.revId)
    {ins : InsertDelta α} {v : List (Atom α)} {c : Atom α → ℕ}
    (harr : ins.Arranges (isOwn id) Atom.val v)
    (hv : (v.filter fun k ↦ !isOwn id k) = unionAt u pre)
    (hc : ∀ k ∈ u, known pre k = false → c k = 0) :
    ∃ ins₁ v₁, Engine.expandOver prio (ins, .label (unionAt u pre) c) r
        = some (ins₁, .label (unionAt u (pre ++ [r])) c) ∧
      ins₁.Arranges (isOwn id) Atom.val v₁ ∧
      (v₁.filter fun k ↦ !isOwn id k) = unionAt u (pre ++ [r]) ∧
      (v₁.filter fun k ↦ isOwn id k || own r.revId k == 0) = v ∧
      v₁.filter (isOwn id) = v.filter (isOwn id) := by
  have henc := h.encodes _ _ _ rfl
  rw [Revision.Encodes] at henc
  have hvid : ∀ k ∈ v, isOwn id k = true ∨ own r.revId k = 0 := fun k hk ↦ by
    cases hn : isOwn id k with
    | true => exact .inl rfl
    | false =>
      have hkp : k ∈ unionAt u pre := hv ▸ List.mem_filter.mpr ⟨hk, by simp [hn]⟩
      rw [← h.filter_own] at hkp
      exact .inr (of_decide_eq_true (List.mem_filter.mp hkp).2)
  have hskip : (v.filter fun k ↦ isOwn id k || own r.revId k == 0) = v :=
    List.filter_eq_self.mpr fun k hk ↦ by
      rcases hvid k hk with hn | hn <;> simp [hn]
  cases hr : r.edit with
  | undo toggled bitxor =>
    have hu := h.unionAt_append_undo (by rw [hr]; rfl)
    refine ⟨ins, v, ?_, harr, by rw [hu, hv], hskip, rfl⟩
    rw [Engine.expandOver, hr, hu]
  | edit priority undoGroup inserts deletes =>
    rw [hr] at henc
    obtain ⟨rfl, rfl⟩ := henc
    rw [Engine.expandOver, hr]
    dsimp only
    cases he : (Subset.label (unionAt u (pre ++ [r])) (own r.revId)).isEmpty with
    | true =>
      have hu : unionAt u (pre ++ [r]) = unionAt u pre := by
        rw [← h.filter_own]
        exact (List.filter_eq_self.mpr fun k hk ↦
          decide_eq_true (Subset.isEmpty_label.mp he k hk)).symm
      exact ⟨ins, v, by rw [hu]; rfl, harr, by rw [hu, hv], hskip, rfl⟩
    | false =>
      rw [← h.filter_own] at hv ⊢
      have hnew : ∀ k ∈ unionAt u (pre ++ [r]), isOwn id k = false := fun k hk ↦
        h.isOwn_eq_false hid (mem_unionAt.mp hk).1
      obtain ⟨ins₁, hins₁, harr₁⟩ := harr.transformExpand hv hnew
        (decide (prio ≥ ⟨priority, r.revId.sessionId⟩))
      refine ⟨ins₁, _, ?_, harr₁, filter_old_arrange _ hv hnew, filter_arrange _ hv hnew,
        filter_new_arrange _ hv hnew⟩
      rw [if_pos (by simp), hins₁, Subset.transformExpand_label]
      simp only [Option.bind_eq_bind, Option.bind_some]
      refine congrArg some (Prod.ext rfl (Subset.label_congr fun k hk ↦ ?_))
      rcases h.own_cases hk with ⟨h1, h2⟩ | ⟨h1, h2⟩
      · rw [if_pos h2]
      · rw [if_neg (by omega), hc k (mem_unionAt.mp hk).1 h1]

theorem foldlM_expandOver (prio : FullPriority) : ∀ {mid pre : List Revision}
    (_ : History u effect (pre ++ mid ++ post))
    (_ : id ∉ (pre ++ mid ++ post).map Revision.revId) {ins : InsertDelta α} {v : List (Atom α)}
    {c : Atom α → ℕ} (_ : ins.Arranges (isOwn id) Atom.val v)
    (_ : (v.filter fun k ↦ !isOwn id k) = unionAt u pre)
    (_ : ∀ k ∈ u, known pre k = false → c k = 0),
    ∃ ins' v', mid.foldlM (Engine.expandOver prio) (ins, .label (unionAt u pre) c)
        = some (ins', .label (unionAt u (pre ++ mid)) c) ∧
      ins'.Arranges (isOwn id) Atom.val v' ∧
      (v'.filter fun k ↦ !isOwn id k) = unionAt u (pre ++ mid) ∧
      (v'.filter fun k ↦ isOwn id k || known pre k) = v ∧
      v'.filter (isOwn id) = v.filter (isOwn id) := by
  intro mid
  induction mid with
  | nil =>
    intro pre h hid ins v c harr hv hc
    refine ⟨ins, v, by rw [List.append_nil]; rfl, harr, by rwa [List.append_nil], ?_, rfl⟩
    refine List.filter_eq_self.mpr fun k hk ↦ ?_
    cases hn : isOwn id k with
    | true => rfl
    | false =>
      have : k ∈ unionAt u pre := hv ▸ List.mem_filter.mpr ⟨hk, by simp [hn]⟩
      exact (mem_unionAt.mp this).2
  | cons r mid ih =>
    intro pre h hid ins v c harr hv hc
    have h₁ : History u effect (pre ++ r :: (mid ++ post)) := by simpa using h
    have h₂ : History u effect (pre ++ [r] ++ mid ++ post) := by simpa using h
    have hid₂ : id ∉ (pre ++ [r] ++ mid ++ post).map Revision.revId := by simpa using hid
    have hrid : r.revId ≠ id := fun heq ↦ hid (List.mem_map.mpr ⟨r, by simp, heq⟩)
    have hc₂ : ∀ k ∈ u, known (pre ++ [r]) k = false → c k = 0 := fun k hk hkn ↦ by
      rw [known_append, Bool.or_eq_false_iff] at hkn
      exact hc k hk hkn.1
    obtain ⟨ins₁, v₁, hstep, harr₁, hv₁, hfil₁, hnew₁⟩ :=
      h₁.expandOver_eq prio (by simpa using hid) harr hv hc
    obtain ⟨ins', v', hfold, harr', hv', hfil', hnew'⟩ := ih h₂ hid₂ harr₁ hv₁ hc₂
    refine ⟨ins', v', ?_, harr', by simpa using hv', ?_, by rw [hnew', hnew₁]⟩
    · rw [List.foldlM_cons, hstep, Option.bind_eq_bind, Option.bind_some, hfold]
      simp
    · rw [← hfil₁, ← hfil', List.filter_filter]
      refine List.filter_congr fun k _ ↦ ?_
      rw [known_append, known_singleton]
      by_cases hkr : k.rev = r.revId
      · have hn : isOwn id k = false := decide_eq_false (by rw [hkr]; exact hrid)
        simp [own, hkr, hn, h₁.known_pre_eq_false hkr]
      · simp [own, hkr]

end History

/-! ## The atoms with the new ones -/

/-- Factoring places the new atoms among those of the base text. -/
theorem Delta.WellFormed.factor_arranges {d : Delta α} (h : d.WellFormed) {b : List (Atom α)}
    {id : RevId} (hb : b.Nodup) (hnew : ∀ k ∈ b, isOwn id k = false) (hlen : d.baseLen = b.length)
    {v : List (Atom α)}
    (hv : fill (atomize id 0 (Delta.factorItems d.baseLen 0 (flatten d.els))) b = v) :
    ∃ ins, d.factor = some (ins, .label b (deletedBy d b)) ∧ ins.delta.baseLen = d.baseLen ∧
      ins.Arranges (isOwn id) Atom.val v ∧ (v.filter fun k ↦ !isOwn id k) = b ∧
      (v.filter (isOwn id)).Nodup := by
  obtain ⟨ins, hfactor, hreal, hinsLen⟩ := h.factor_label hb hlen
  generalize Delta.factorItems d.baseLen 0 (flatten d.els) = items at *
  obtain ⟨hlabels, hold⟩ := ofLabels_fill (isOwn id) (atomize id 0 items) b
    (by rw [kept_atomize, hreal.kept, hinsLen, hlen])
    (fun k hk ↦ decide_eq_true (mem_inserted_atomize id items 0 k hk).1) hnew
  rw [hv] at hlabels hold
  refine ⟨ins, hfactor, hinsLen, ?_, hold, ?_⟩
  · rw [InsertDelta.Arranges, ofLabels_eq_map, hlabels, map_atomize]
    exact hreal
  · rw [← inserted_ofLabels, hlabels]
    exact nodup_inserted_atomize id items 0

section

variable {u u' : List (Atom α)} {id : RevId} {c : Atom α → ℕ}

/-- The counts `c`, and none for the new atoms. -/
def oldCount (id : RevId) (c : Atom α → ℕ) (k : Atom α) : ℕ := if own id k = 0 then c k else 0

theorem filter_own_eq_zero (hold : (u'.filter fun k ↦ !isOwn id k) = u) :
    (u'.filter fun k ↦ own id k = 0) = u := by
  rw [← hold]
  refine List.filter_congr fun k _ ↦ ?_
  by_cases hk : k.rev = id <;> simp [own, isOwn, hk]

theorem transformExpand_own (hold : (u'.filter fun k ↦ !isOwn id k) = u) :
    (Subset.label u c).transformExpand (.label u' (own id)) = some (.label u' (oldCount id c)) := by
  rw [← filter_own_eq_zero hold, Subset.transformExpand_label]
  rfl

theorem transformExpand_own_or_skip (hold : (u'.filter fun k ↦ !isOwn id k) = u)
    (hc : ∀ k, own id k ≠ 0 → c k = 0) :
    (if !(Subset.label u' (own id)).isEmpty then
      (Subset.label u c).transformExpand (.label u' (own id))
        else some (.label u c)) = some (.label u' c) := by
  rw [← filter_own_eq_zero hold, Subset.transformExpand_or_skip]
  refine congrArg some (Subset.label_congr fun k _ ↦ ?_)
  split
  · rfl
  · next hne => rw [hc k hne]

theorem visible_oldCount : (u'.filter fun k ↦ isOwn id k || c k == 0).map Atom.val
    = visible u' (oldCount id c) := by
  rw [visible]
  congr 1
  refine List.filter_congr fun k _ ↦ ?_
  by_cases hk : k.rev = id <;> by_cases hzero : c k = 0 <;> simp [oldCount, own, isOwn, hk, hzero]

theorem hidden_oldCount (hold : (u'.filter fun k ↦ !isOwn id k) = u) :
    hidden u c = hidden u' (oldCount id c) := by
  rw [hidden, hidden, ← filter_own_eq_zero hold, List.filter_filter]
  congr 1
  refine List.filter_congr fun k _ ↦ ?_
  by_cases hk : k.rev = id <;> simp [oldCount, own, hk]

end

/-! ## The new revision -/

namespace Engine

variable {e : Engine α} {g : Ledger α} {pre post : List Revision}

theorem Represents.nextRevId_not_mem (h : e.Represents g) :
    e.nextRevId ∉ e.revs.map Revision.revId := by
  intro hmem
  obtain ⟨r, hr, hid⟩ := List.mem_map.mp hmem
  have := h.fresh r hr (by rw [hid]; rfl)
  rw [hid] at this
  exact lt_irrefl _ this

theorem Represents.exists_getLast (h : e.Represents g) :
    ∃ r, e.revs.getLast? = some r ∧ e.maxUndoGroupId = some r.maxUndoSoFar ∧
      e.getHeadRevId = some r.revId := by
  obtain ⟨r, hr⟩ : ∃ r, e.revs.getLast? = some r := by
    cases hl : e.revs.getLast? with
    | none => exact absurd (List.getLast?_eq_none_iff.mp hl) h.nonempty
    | some r => exact ⟨r, rfl⟩
  exact ⟨r, hr, by rw [maxUndoGroupId, hr]; rfl, by rw [getHeadRevId, hr]; rfl⟩

/-- The deletion counts at the end of `pre`. -/
def countAt (e : Engine α) (g : Ledger α) (post : List Revision) : Atom α → ℕ :=
  (invertAll g.effect true post (g.count, e.undoneGroups)).1

/-- The atoms of the text at the end of `pre`. -/
def baseAtoms (e : Engine α) (g : Ledger α) (pre post : List Revision) : List (Atom α) :=
  (unionAt g.atoms pre).filter fun k ↦ countAt e g post k = 0

/-- The deletion counts after an edit of the group `undoGroup` that deletes `c`. -/
def editCount (e : Engine α) (g : Ledger α) (undoGroup : ℕ) (c : Atom α → ℕ) (k : Atom α) : ℕ :=
  (if own e.nextRevId k = 0 then g.count k else 0)
    + (if undoGroup ∈ e.undoneGroups then own e.nextRevId k else c k)

theorem union_editCount {u' : List (Atom α)} (undoGroup : ℕ) (c : Atom α → ℕ) :
    (Subset.label u' (oldCount e.nextRevId g.count)).union
        (if decide (undoGroup ∈ e.undoneGroups) then .label u' (own e.nextRevId) else .label u' c)
      = some (.label u' (editCount e g undoGroup c)) := by
  by_cases hg : undoGroup ∈ e.undoneGroups
  · rw [if_pos (decide_eq_true hg), Subset.union_label]
    exact congrArg some (Subset.label_congr fun k _ ↦ by rw [editCount, if_pos hg]; rfl)
  · rw [if_neg (by simpa using hg), Subset.union_label]
    exact congrArg some (Subset.label_congr fun k _ ↦ by rw [editCount, if_neg hg]; rfl)

/-- **The new revision.** When the walk to the base revision does not panic and the delta has the
length of its text, the edit inserts new atoms and deletes the atoms of the base text that the
delta does not copy. -/
theorem Represents.mkNewRev_eq (h : e.Represents g) {token : RevId → RevToken} {base : RevToken}
    {r : Revision} (hrevs : e.revs = pre ++ [r] ++ post)
    (hfind : e.findRevToken token base = some pre.length)
    (hinv : InvertibleAll g.effect g.atoms true (pre ++ [r]) post (g.count, e.undoneGroups))
    {d : Delta α} (hd : d.WellFormed) {b : List (Atom α)} (hB : baseAtoms e g (pre ++ [r]) post = b)
    (hlen : d.baseLen = b.length) {δ : Atom α → ℕ} (hδ : deletedBy d b = δ)
    (priority undoGroup : ℕ) :
    ∃ u' headMax, u'.Nodup ∧ (u'.filter fun k ↦ !isOwn e.nextRevId k) = g.atoms ∧
      (u'.filter fun k ↦ isOwn e.nextRevId k ||
          (known (pre ++ [r]) k && countAt e g post k == 0))
        = fill (atomize e.nextRevId 0 (Delta.factorItems d.baseLen 0 (flatten d.els))) b ∧
      e.maxUndoGroupId = some headMax ∧
      e.mkNewRev token priority undoGroup base d = some (.ok
        { rev := ⟨e.nextRevId, max undoGroup headMax,
            .edit priority undoGroup (.label u' (own e.nextRevId)) (.label u' δ)⟩
          text := visible u' (editCount e g undoGroup δ)
          tombstones := hidden u' (editCount e g undoGroup δ)
          deletesFromUnion := .label u' (editCount e g undoGroup δ) }) := by
  have hh := h.history
  have hid := h.nextRevId_not_mem
  have hself := hh.unionAt_self
  have hmemB : ∀ k ∈ b, k ∈ unionAt g.atoms (pre ++ [r]) ∧ countAt e g post k = 0 := fun k hk ↦ by
    rw [← hB, baseAtoms, List.mem_filter] at hk
    exact ⟨hk.1, of_decide_eq_true hk.2⟩
  have hbnodup : b.Nodup := by
    rw [← hB]
    exact (hh.nodup.filter _).filter _
  have hunew : ∀ k ∈ unionAt g.atoms (pre ++ [r]), isOwn e.nextRevId k = false := fun k hk ↦
    hh.isOwn_eq_false hid (mem_unionAt.mp hk).1
  have hbnew : ∀ k ∈ b, isOwn e.nextRevId k = false := fun k hk ↦ hunew k (hmemB k hk).1
  have hδzero : ∀ k, k ∉ b → δ k = 0 := fun k hk ↦ by
    rw [← hδ, deletedBy, if_neg fun hc ↦ hk hc.1]
  have hδown : ∀ k, own e.nextRevId k ≠ 0 → δ k = 0 := fun k hne ↦ hδzero k fun hkb ↦ by
    rw [own_eq_isOwn, hbnew k hkb] at hne
    exact hne rfl
  rw [hrevs, ← List.append_nil (pre ++ [r] ++ post)] at hh hid
  -- factoring gives an arrangement of the new atoms among those of the base text
  generalize hv₀ : fill (atomize e.nextRevId 0 _) b = v₀
  obtain ⟨ins, hfactor, hinsLen, harr₀, hv₀old, hv₀new⟩ :=
    hd.factor_arranges hbnodup hbnew hlen hv₀
  rw [hδ] at hfactor
  -- expand over the deletions of the base revision
  rw [← hB, baseAtoms] at hv₀old
  obtain ⟨ins₁, hins₁, harr₁⟩ := harr₀.transformExpand hv₀old hunew true
  have hdels₁ : (Subset.label b δ).transformExpand
      (.label (unionAt g.atoms (pre ++ [r])) (countAt e g post))
      = some (.label (unionAt g.atoms (pre ++ [r])) δ) := by
    rw [← hB, baseAtoms, Subset.transformExpand_label]
    refine congrArg some (Subset.label_congr fun k hk ↦ ?_)
    split
    · rfl
    · next hck => rw [hδzero k fun hkb ↦ hck (hmemB k hkb).2]
  -- expand over the later revisions
  obtain ⟨ins₂, u', hfold, harr₂, hu'old, hu'fil, hu'new⟩ := hh.foldlM_expandOver
    ⟨priority, e.session⟩ hid harr₁ (filter_old_arrange true hv₀old hunew) (c := δ)
    (fun k hk hkn ↦ hδzero k fun hkb ↦ by
      rw [(mem_unionAt.mp (hmemB k hkb).1).2] at hkn
      cases hkn)
  rw [← hrevs, hself] at hu'old hfold
  have hinserted : ins₂.insertedSubset = some (.label u' (own e.nextRevId)) := by
    rw [harr₂.insertedSubset]
    exact congrArg some (Subset.label_congr fun k _ ↦ (own_eq_isOwn _ k).symm)
  -- the text with the insertions
  obtain ⟨ins₃, hins₃, happly⟩ := harr₂.apply_transformShrink (x := g.count) hu'old
  obtain ⟨last, -, hmax, -⟩ := h.exists_getLast
  refine ⟨u', last.maxUndoSoFar, ?_, hu'old, ?_, hmax, ?_⟩
  · refine nodup_of_filter (p := isOwn e.nextRevId) ?_ (hu'old ▸ h.history.nodup)
    rwa [hu'new, filter_new_arrange true hv₀old hunew]
  · -- restricted to the base text, the arrangement is that of the delta
    have hfil := filter_arrange true hv₀old hunew
    rw [← hu'fil, List.filter_filter] at hfil
    rw [← hfil]
    refine List.filter_congr fun k hk ↦ ?_
    cases isOwn e.nextRevId k <;> cases known (pre ++ [r]) k <;> simp
  · have hwalk : e.deletesFromUnionForIndex pre.length
        = some (.label (unionAt g.atoms (pre ++ [r])) (countAt e g post)) := by
      rw [deletesFromUnionForIndex, show pre.length + 1 = (pre ++ [r]).length by simp,
        h.deletesFromUnionBeforeIndex_eq_some_iff hrevs]
      exact ⟨hinv, rfl⟩
    have hslice : sliceFrom e.revs (pre.length + 1) = some post := by
      rw [hrevs, show pre.length + 1 = (pre ++ [r]).length by simp, sliceFrom_append]
    have hcheck : ¬ ins.delta.baseLen ≠ (Subset.label (unionAt g.atoms (pre ++ [r]))
        (countAt e g post)).lenAfterDelete := by
      rw [Subset.lenAfterDelete_label, hinsLen, hlen, ← hB, baseAtoms]
      exact fun hne ↦ hne rfl
    have hold : (g.atoms.filter fun k ↦ g.count k = 0).map Atom.val = e.text := h.text.symm
    rw [hold, visible_oldCount] at happly
    rw [mkNewRev, hfind]
    simp only [hfactor, hwalk, hcheck, if_false, hins₁, hdels₁, hslice, hfold, hinserted,
      transformExpand_own_or_skip hu'old hδown, h.dels, hins₃, happly,
      transformExpand_own (c := g.count) hu'old, union_editCount, h.tombstones,
      hidden_oldCount hu'old, shuffle_eq, hmax, Option.bind_eq_bind, Option.bind_some]
    rfl

/-- The ledger after an edit that inserts the new atoms of `u'` and deletes `c`. -/
def editedLedger (e : Engine α) (g : Ledger α) (undoGroup : ℕ) (u' : List (Atom α))
    (c : Atom α → ℕ) : Ledger α where
  atoms := u'
  effect := extendEffect g.effect e.nextRevId c
  count := editCount e g undoGroup c

/-- The engine after an edit that inserts the new atoms of `u'` and deletes `c`. -/
def editedEngine (e : Engine α) (g : Ledger α) (priority undoGroup headMax : ℕ)
    (u' : List (Atom α)) (c : Atom α → ℕ) : Engine α :=
  { e with
    revIdCounter := e.revIdCounter + 1
    revs := e.revs ++ [⟨e.nextRevId, max undoGroup headMax,
      .edit priority undoGroup (.label u' (own e.nextRevId)) (.label u' c)⟩]
    text := visible u' (editCount e g undoGroup c)
    tombstones := hidden u' (editCount e g undoGroup c)
    deletesFromUnion := .label u' (editCount e g undoGroup c) }

/-- What a successful edit does: `u'` is the new union string, `b` the text of the base revision,
`c` what is deleted of it. -/
structure Edited (e : Engine α) (g : Ledger α) (priority undoGroup : ℕ) (d : Delta α)
    (pre post : List Revision) (u' : List (Atom α)) (e' : Engine α) : Prop where
  revs : e.revs = pre ++ post
  invertible : InvertibleAll g.effect g.atoms true pre post (g.count, e.undoneGroups)
  baseLen : d.baseLen = (baseAtoms e g pre post).length
  nodup : u'.Nodup
  old : (u'.filter fun k ↦ !isOwn e.nextRevId k) = g.atoms
  placed : (u'.filter fun k ↦ isOwn e.nextRevId k || (known pre k && countAt e g post k == 0))
    = fill (atomize e.nextRevId 0 (Delta.factorItems d.baseLen 0 (flatten d.els)))
        (baseAtoms e g pre post)
  /-- An edit without effect is not recorded. -/
  result : (e' = e ∧ (∀ k ∈ u', own e.nextRevId k = 0) ∧
      ∀ k ∈ u', deletedBy d (baseAtoms e g pre post) k = 0) ∨
    ∃ headMax, e.maxUndoGroupId = some headMax ∧ e' = editedEngine e g priority undoGroup headMax u'
      (deletedBy d (baseAtoms e g pre post))

theorem Represents.tryEditRev_eq (h : e.Represents g) {token : RevId → RevToken} {base : RevToken}
    {r : Revision} (hrevs : e.revs = pre ++ [r] ++ post)
    (hfind : e.findRevToken token base = some pre.length)
    (hinv : InvertibleAll g.effect g.atoms true (pre ++ [r]) post (g.count, e.undoneGroups))
    {d : Delta α} (hd : d.WellFormed) (hlen : d.baseLen = (baseAtoms e g (pre ++ [r]) post).length)
    (priority undoGroup : ℕ) :
    ∃ u' e', e.tryEditRev token priority undoGroup base d = some (.ok e') ∧
      Edited e g priority undoGroup d (pre ++ [r]) post u' e' := by
  obtain ⟨u', headMax, hnodup, hold, hplaced, hmax, hmk⟩ :=
    h.mkNewRev_eq hrevs hfind hinv hd rfl hlen rfl priority undoGroup
  have hnoop : (Contents.edit priority undoGroup (.label u' (own e.nextRevId))
      (.label u' (deletedBy d (baseAtoms e g (pre ++ [r]) post)))).isNoop = true ↔
      (∀ k ∈ u', own e.nextRevId k = 0) ∧
        ∀ k ∈ u', deletedBy d (baseAtoms e g (pre ++ [r]) post) k = 0 := by
    rw [Contents.isNoop, Bool.and_eq_true, Subset.isEmpty_label, Subset.isEmpty_label]
  cases hn : (Contents.edit priority undoGroup (.label u' (own e.nextRevId))
      (.label u' (deletedBy d (baseAtoms e g (pre ++ [r]) post)))).isNoop with
  | true =>
    refine ⟨u', e, ?_, hrevs, hinv, hlen, hnodup, hold, hplaced, .inl ⟨rfl, hnoop.mp hn⟩⟩
    rw [tryEditRev, hmk]
    simp only [Option.bind_eq_bind, Option.bind_some, hn, if_true]
    rfl
  | false =>
    refine ⟨u', _, ?_, hrevs, hinv, hlen, hnodup, hold, hplaced, .inr ⟨headMax, hmax, rfl⟩⟩
    rw [tryEditRev, hmk]
    simp only [Option.bind_eq_bind, Option.bind_some, hn, Bool.false_eq_true, if_false]
    rfl

/-- An edit that succeeds found its base revision, could walk back to it, and had the length of
its text. -/
theorem Represents.tryEditRev_ok (h : e.Represents g) {token : RevId → RevToken} {base : RevToken}
    {d : Delta α} (hd : d.WellFormed) {priority undoGroup : ℕ} {e' : Engine α}
    (hok : e.tryEditRev token priority undoGroup base d = some (.ok e')) :
    ∃ pre r post u', token r.revId = base ∧ e.findRevToken token base = some pre.length ∧
      Edited e g priority undoGroup d (pre ++ [r]) post u' e' := by
  have hok' := hok
  rw [tryEditRev, Option.bind_eq_bind, Option.bind_eq_some_iff] at hok
  obtain ⟨res, hmk, hres⟩ := hok
  rw [mkNewRev] at hmk
  split at hmk
  · obtain rfl := Option.some.inj hmk
    cases Option.some.inj hres
  · next ix hfind =>
    obtain ⟨pre, r, post, hrevs, rfl, htok, -⟩ := rfindIdx_eq_some hfind
    obtain ⟨⟨ins, dels⟩, hfactor, hmk⟩ := Option.bind_eq_some_iff.mp hmk
    obtain ⟨s, hs, hmk⟩ := Option.bind_eq_some_iff.mp hmk
    rw [deletesFromUnionForIndex, show pre.length + 1 = (pre ++ [r]).length by simp,
      h.deletesFromUnionBeforeIndex_eq_some_iff hrevs] at hs
    obtain ⟨hinv, rfl⟩ := hs
    obtain ⟨ins', hfactor', -, hinsLen⟩ := hd.factor_eq
    rw [hfactor] at hfactor'
    obtain ⟨rfl, -⟩ := Prod.mk.inj (Option.some.inj hfactor')
    have hlen : d.baseLen = (baseAtoms e g (pre ++ [r]) post).length := by
      by_contra hne
      dsimp only at hmk
      rw [if_pos, Option.pure_def] at hmk
      · obtain rfl := Option.some.inj hmk
        cases Option.some.inj hres
      · rw [Subset.lenAfterDelete_label, hinsLen]
        exact hne
    obtain ⟨u', e'', hok'', hedited⟩ := h.tryEditRev_eq hrevs hfind hinv hd hlen priority undoGroup
    rw [hok'] at hok''
    cases Option.some.inj hok''
    exact ⟨pre, r, post, u', of_decide_eq_true htok, hfind, hedited⟩

/-- The new atoms are not deleted, unless their group is undone. -/
theorem editCount_old {undoGroup : ℕ} {c : Atom α → ℕ} {k : Atom α}
    (hk : k.rev ≠ e.nextRevId) : editCount e g undoGroup c k
      = g.count k + if undoGroup ∈ e.undoneGroups then 0 else c k := by
  simp [editCount, own, hk]

theorem Represents.edited (h : e.Represents g) {u' : List (Atom α)} (hnodup : u'.Nodup)
    (hold : (u'.filter fun k ↦ !isOwn e.nextRevId k) = g.atoms) {c : Atom α → ℕ}
    (hc : ∀ k ∈ u', k.rev = e.nextRevId → c k = 0) (priority undoGroup : ℕ) {headMax : ℕ}
    (hmax : e.maxUndoGroupId = some headMax) :
    (editedEngine e g priority undoGroup headMax u' c).Represents
      (editedLedger e g undoGroup u' c) := by
  obtain ⟨last, hlast, hmax', -⟩ := h.exists_getLast
  rw [hmax'] at hmax
  obtain rfl := Option.some.inj hmax
  refine ⟨?_, h.first_append _, rfl, rfl, rfl, ?_, ?_⟩
  · exact h.history.extend hnodup hold rfl h.nextRevId_not_mem (fun _ _ _ ↦ rfl) hc ⟨rfl, rfl⟩
  · intro r hr hs
    rcases List.mem_append.mp hr with hr | hr
    · have := h.fresh r hr hs
      exact Nat.lt_succ_of_lt this
    · obtain rfl := List.mem_singleton.mp hr
      exact Nat.lt_succ_self _
  · refine h.bounds.append (fun q hq gr hgr ↦ ?_) fun gr hgr ↦ ?_
    · exact (h.bounds.le_getLast hlast q hq gr hgr).trans (le_max_right _ _)
    · obtain rfl := Option.mem_some_iff.mp hgr
      exact le_max_left _ _

theorem deletedBy_eq_zero_of_own (h : e.Represents g) (d : Delta α) (pre post : List Revision)
    {k : Atom α} (hk : k.rev = e.nextRevId) : deletedBy d (baseAtoms e g pre post) k = 0 := by
  rw [deletedBy, if_neg]
  rintro ⟨hkb, -⟩
  have hmem := (mem_unionAt.mp (List.mem_filter.mp hkb).1).1
  have := h.history.isOwn_eq_false h.nextRevId_not_mem hmem
  rw [isOwn, hk, decide_eq_false_iff_not] at this
  exact this rfl

/-- An edit has no effect, or it leads to the encoding of the edited ledger. -/
theorem Edited.cases {priority undoGroup : ℕ} {d : Delta α} {u' : List (Atom α)}
    {e' : Engine α} (h : e.Represents g) (hed : Edited e g priority undoGroup d pre post u' e') :
    (e' = e ∧ (∀ k ∈ u', own e.nextRevId k = 0) ∧
      ∀ k ∈ u', deletedBy d (baseAtoms e g pre post) k = 0) ∨
    ∃ headMax, e.maxUndoGroupId = some headMax ∧
      e' = editedEngine e g priority undoGroup headMax u' (deletedBy d (baseAtoms e g pre post)) ∧
      e'.Represents (editedLedger e g undoGroup u' (deletedBy d (baseAtoms e g pre post))) := by
  rcases hed.result with hnoop | ⟨headMax, hmax, rfl⟩
  · exact .inl hnoop
  · exact .inr ⟨headMax, hmax, rfl, h.edited hed.nodup hed.old
      (fun k _ hk ↦ deletedBy_eq_zero_of_own h d pre post hk) priority undoGroup hmax⟩

/-- What the revisions with the new one replay to. -/
theorem replay_edited (h : e.Represents g) (groups : Finset ℕ) (priority undoGroup headMax : ℕ)
    (u' : List (Atom α)) {c : Atom α → ℕ} (hc : ∀ k, k.rev = e.nextRevId → c k = 0) (k : Atom α) :
    replay (extendEffect g.effect e.nextRevId c) groups
        (editedEngine e g priority undoGroup headMax u' c).revs k
      = (if own e.nextRevId k = 0 then replay g.effect groups e.revs k else 0)
        + if undoGroup ∈ groups then own e.nextRevId k else c k := by
  rw [editedEngine, replay_append, replay_singleton, contribution]
  by_cases hk : k.rev = e.nextRevId
  · have hzero : replay (extendEffect g.effect e.nextRevId c) groups e.revs k = 0 := by
      refine List.sum_eq_zero fun n hn ↦ ?_
      obtain ⟨r, hr, rfl⟩ := List.mem_map.mp hn
      have hne : k.rev ≠ r.revId := fun heq ↦ h.nextRevId_not_mem
        (List.mem_map.mpr ⟨r, hr, by rw [← heq, hk]⟩)
      rw [contribution]
      split
      · rw [extendEffect_own hk]
        simp [own, hne]
      · rfl
    simp [hzero, own, hk, extendEffect_own hk, hc k hk]
  · rw [replay_extendEffect h.nextRevId_not_mem groups hk]
    simp [own, hk, extendEffect_self hk]

end Engine

end EeEditor
