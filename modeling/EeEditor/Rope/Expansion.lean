import EeEditor.Rope.RoundTrips

/-!
# Expansion commutes with deletion

An insert-only delta on a part of a string is expanded to the whole string. Inserting there and
deleting what does not belong to the part is inserting in the part, and what is inserted goes behind
or in front of all that lies at the same place and does not belong to the part.
-/

namespace EeEditor

variable {α : Type}

open Script

/-! ## Re-based scripts -/

namespace Script

variable {β : Type}

/-- Filling in a re-based script and deleting the masked elements is filling in the script. -/
theorem keepZero_fill_expand (after : Bool) (xs : List ℕ) (s : List (Option β)) (u : List β)
    (hs : kept s = zeros xs) (hu : u.length = xs.length) :
    keepZero (fill (expand after xs s) u) (fillZero (fun _ ↦ 0) (mask (expand after xs s)) xs)
      = fill s (keepZero u xs) := by
  -- the inserted elements in front of a position are kept
  have hinserted : ∀ (l : List β) (t : List (Option β)) (v : List β) (ys : List ℕ),
      keepZero (fill (l.map some ++ t) v) (fillZero (fun _ ↦ 0) (mask (l.map some ++ t)) ys)
        = l ++ keepZero (fill t v) (fillZero (fun _ ↦ 0) (mask t) ys) := by
    intro l t v ys
    have hcancel := fillZero_replicate_succ_append (fun _ ↦ 0) (mask t) 0 ys l.length
    rw [Nat.zero_add] at hcancel
    rw [mask_append, mask_map_some, hcancel, fill_map_some_append,
      keepZero_append (by rw [List.length_replicate]), keepZero_replicate, if_pos rfl]
  induction xs generalizing s u with
  | nil =>
    obtain ⟨l, t, rfl, -, -, ht⟩ := exists_eq_map_some_append s
    obtain rfl := List.eq_nil_of_length_eq_zero hu
    rcases ht with rfl | ⟨t, rfl⟩
    · rw [expand, hinserted, fill_map_some_append]
      simp [fill]
    · simp at hs
  | cons x xs ih =>
    obtain ⟨l, t, ht, hexp, hcases⟩ := expand_cons_cases after x xs s hs
    cases u with
    | nil => cases hu
    | cons a u =>
      have hrest := ih t u ht (by simpa using hu)
      have hstep : keepZero (fill (none :: expand after xs t) (a :: u))
          (fillZero (fun _ ↦ 0) (mask (none :: expand after xs t)) (x :: xs))
          = keepZero (a :: fill (expand after xs t) u)
            (x :: fillZero (fun _ ↦ 0) (mask (expand after xs t)) xs) := rfl
      rw [hexp, hinserted, hstep]
      rcases hcases with ⟨rfl, rfl⟩ | ⟨hx, rfl⟩
      · rw [keepZero_cons_zero, keepZero_cons_zero, fill_map_some_append, hrest]
        rfl
      · obtain ⟨c, rfl⟩ := Nat.exists_eq_succ_of_ne_zero hx
        rw [keepZero_cons_succ, keepZero_cons_succ, fill_map_some_append, hrest]

/-- The place in front of position `p` lies behind (`after`) or in front of the whole run of masked
positions around it. -/
def Placed (after : Bool) (xs : List ℕ) (p : ℕ) : Prop :=
  if after then ∀ x ∈ (xs.drop p).head?, x = 0 else ∀ x ∈ (xs.take p).getLast?, x = 0

/-- An inserted element stands in the first stretch of insertions, or behind the first element that
is kept. -/
private theorem split_inserted {l : List β} {t l₁ l₂ : List (Option β)} {a : β}
    (h : l.map some ++ none :: t = l₁ ++ some a :: l₂) :
    (kept l₁ = 0 ∧ l ≠ []) ∨ ∃ l₁', kept l₁ = kept l₁' + 1 ∧ t = l₁' ++ some a :: l₂ := by
  rcases List.append_eq_append_iff.mp h with ⟨as, rfl, heq⟩ | ⟨bs, hl, heq⟩
  · cases as with
    | nil => cases heq
    | cons o as =>
      obtain ⟨rfl, rfl⟩ := List.cons.inj heq
      exact .inr ⟨as, by simp, rfl⟩
  · cases bs with
    | nil => cases heq
    | cons o bs =>
      have hkept : kept l₁ + kept (o :: bs) = 0 := by rw [← kept_append, ← hl, kept_map_some]
      exact .inl ⟨by omega, fun hnil ↦ by simp [hnil] at hl⟩

theorem placed_expand_true (xs : List ℕ) (s : List (Option β)) (hs : kept s = zeros xs)
    {l₁ l₂ : List (Option β)} {a : β} (h : expand true xs s = l₁ ++ some a :: l₂) :
    Placed true xs (kept l₁) := by
  rw [Placed, if_pos rfl]
  induction xs generalizing s l₁ with
  | nil => simp
  | cons x xs ih =>
    rw [expand] at h
    by_cases hx : x = 0
    · subst hx
      obtain ⟨l, t, rfl, htake, hdrop, ht⟩ := exists_eq_map_some_append s
      rw [if_pos rfl, htake, hdrop] at h
      have hkept : kept t.tail = zeros xs := by
        rcases ht with rfl | ⟨t, rfl⟩
        · simp at hs
        · simpa using hs
      rcases split_inserted h with ⟨hzero, -⟩ | ⟨l₁', hkept', hrest⟩
      · simp [hzero]
      · rw [hkept', List.drop_succ_cons]
        exact ih _ hkept hrest
    · rw [if_neg hx, if_pos rfl] at h
      have hkept : kept s = zeros xs := by
        obtain ⟨c, rfl⟩ := Nat.exists_eq_succ_of_ne_zero hx
        simpa using hs
      rcases split_inserted (l := []) h with ⟨-, hnil⟩ | ⟨l₁', hkept', hrest⟩
      · exact absurd rfl hnil
      · rw [hkept', List.drop_succ_cons]
        exact ih _ hkept hrest

theorem placed_expand_false (xs : List ℕ) (s : List (Option β)) (hs : kept s = zeros xs)
    {l₁ l₂ : List (Option β)} {a : β} (h : expand false xs s = l₁ ++ some a :: l₂) :
    (kept l₁ = 0 → s.takeWhile Option.isSome ≠ []) ∧ Placed false xs (kept l₁) := by
  rw [Placed, if_neg Bool.false_ne_true]
  induction xs generalizing s l₁ with
  | nil =>
    obtain ⟨l, t, rfl, htake, -, ht⟩ := exists_eq_map_some_append s
    refine ⟨fun _ hnil ↦ ?_, by simp⟩
    rw [htake, List.map_eq_nil_iff] at hnil
    subst hnil
    rcases ht with rfl | ⟨t, rfl⟩
    · simp [expand] at h
    · simp at hs
  | cons x xs ih =>
    obtain ⟨l, t, rfl, htake, hdrop, ht⟩ := exists_eq_map_some_append s
    -- the rest of the script begins with an insertion only behind a position that is not masked
    obtain ⟨t', hkept, hexp, hfirst⟩ : ∃ t', kept t' = zeros xs ∧
        l.map some ++ none :: expand false xs t' = l₁ ++ some a :: l₂ ∧
        (x ≠ 0 → t'.takeWhile Option.isSome = []) := by
      rw [expand, htake, hdrop] at h
      by_cases hx : x = 0
      · subst hx
        refine ⟨t.tail, ?_, by rwa [if_pos rfl] at h, fun hne ↦ absurd rfl hne⟩
        rcases ht with rfl | ⟨t, rfl⟩
        · simp at hs
        · simpa using hs
      · refine ⟨t, ?_, by rwa [if_neg hx, if_neg Bool.false_ne_true] at h, fun _ ↦ ?_⟩
        · obtain ⟨c, rfl⟩ := Nat.exists_eq_succ_of_ne_zero hx
          simpa using hs
        · rcases ht with rfl | ⟨t, rfl⟩ <;> rfl
    rcases split_inserted hexp with ⟨hzero, hl⟩ | ⟨l₁', hkept', hrest⟩
    · exact ⟨fun _ ↦ by rw [htake]; simpa using hl, by simp [hzero]⟩
    · obtain ⟨hbegin, hplaced⟩ := ih t' hkept hrest
      refine ⟨fun hzero ↦ by omega, ?_⟩
      rw [hkept', List.take_succ_cons]
      cases htk : xs.take (kept l₁') with
      | nil =>
        -- nothing is kept before, so the insertion stands first behind `x`
        have hle := congrArg kept hrest
        rw [kept_expand _ _ _ hkept, kept_append] at hle
        have hlen := congrArg List.length htk
        rw [List.length_take, List.length_nil] at hlen
        have hx : x = 0 := by
          by_contra hne
          exact hbegin (by omega) (hfirst hne)
        simp [hx]
      | cons y ys =>
        rw [htk] at hplaced
        rw [List.getLast?_cons_cons]
        exact hplaced

end Script

/-! ## Expanded deltas -/

/-- The elements copy `p..q` in order and without a gap, between insertions. -/
def CopiesAll : ℕ → List (DeltaElement α) → ℕ → Prop
  | p, [], q => p = q
  | p, .copy b e :: els, q => b = p ∧ b ≤ e ∧ CopiesAll e els q
  | p, .insert _ :: els, q => CopiesAll p els q

theorem Chained.copiesAll {els : List (DeltaElement α)} {p q : ℕ} (h : Chained p els q) :
    CopiesAll p els q := by
  induction els generalizing p with
  | nil => exact h
  | cons el els ih =>
    cases el with
    | copy b e => exact ⟨h.1, h.2.1.le, ih h.2.2⟩
    | insert n => exact ih h.2

theorem Chained.of_append {pre post : List (DeltaElement α)} {p q : ℕ}
    (h : Chained p (pre ++ post) q) : Chained p pre (copiedTo p pre) := by
  induction pre generalizing p with
  | nil => rfl
  | cons el pre ih =>
    cases el with
    | copy b e => exact ⟨h.1, h.2.1, ih h.2.2⟩
    | insert n => exact ⟨h.1, ih h.2⟩

theorem Chained.right_of_append {pre post : List (DeltaElement α)} {p q : ℕ}
    (h : Chained p (pre ++ post) q) : Chained (copiedTo p pre) post q := by
  induction pre generalizing p with
  | nil => exact h
  | cons el pre ih =>
    cases el with
    | copy b e => exact ih h.2.2
    | insert n => exact ih h.2

namespace InsertDelta

/-- The delta is the insertions of some factored delta. -/
def IsFactor (d : InsertDelta α) : Prop :=
  ∃ (whole : Delta α) (del : Subset), whole.CopiesProper ∧ whole.factor = some (d, del)

/-- What expanding a delta over a subset of a string should give. -/
structure ExpandsTo (d : InsertDelta α) (xform : Subset) (u : List α) (after : Bool)
    (d' : InsertDelta α) : Prop where
  baseLen : d'.delta.baseLen = xform.len
  copiesAll : CopiesAll 0 d'.delta.els xform.len
  /-- Inserting in the whole string and deleting the subset is inserting in what it leaves. -/
  deletes : ∃ inserted del union t, d'.insertedSubset = some inserted ∧
    xform.transformExpand inserted = some del ∧ d'.delta.apply u = some union ∧
    del.deleteFrom union = some t ∧ d.delta.apply (outside u xform) = some t
  placed : ∀ pre n post, d'.delta.els = pre ++ .insert n :: post →
    Script.Placed after xform.counts (copiedTo 0 pre)
  shrinks : ∃ d'' t, d'.transformShrink xform = some d'' ∧
    d''.delta.apply (outside u xform) = some t ∧ d.delta.apply (outside u xform) = some t

theorem IsFactor.realizes {d : InsertDelta α} (h : d.IsFactor) (htext : d.delta.InsertsText) :
    ∃ s, d.Realizes s := by
  obtain ⟨whole, del, hproper, hfactor⟩ := h
  have hwf := Delta.wellFormed_iff.mpr ⟨hproper, Delta.insertsText_of_factor hfactor htext⟩
  obtain ⟨ins, hfactor', hreal, -⟩ := hwf.factor_eq
  obtain ⟨rfl, -⟩ := Prod.mk.inj (Option.some.inj (hfactor.symm.trans hfactor'))
  exact ⟨_, hreal⟩

theorem Realizes.expandsTo {d : InsertDelta α} {s : List (Option α)} (h : d.Realizes s)
    {xform : Subset} (hzero : xform.count .zero = d.delta.baseLen) {u : List α}
    (hu : u.length = xform.len) (after : Bool) :
    ∃ d', d.transformExpand xform after = some d' ∧ d.ExpandsTo xform u after d' := by
  have hbase : d.delta.baseLen = zeros xform.counts := by
    rw [← hzero]
    exact xform.count_eq .zero
  have hkept : Script.kept s = zeros xform.counts := h.kept.trans hbase
  have hlen : xform.len = xform.counts.length := xform.len_eq
  obtain ⟨d', hexp, hreal⟩ := h.transformExpand hbase after
  have hbase' : d'.delta.baseLen = xform.len := by
    rw [← hreal.kept, kept_expand _ _ _ hkept, hlen]
  have hout : (outside u xform).length = zeros xform.counts :=
    length_keepZero (hu.trans hlen)
  have happly := h.apply_eq (hout.trans hbase.symm)
  refine ⟨d', hexp, hbase', hbase' ▸ hreal.chained.copiesAll, ?_, ?_, ?_⟩
  · have hmask : xform.counts.length = zeros (mask (expand after xform.counts s)) := by
      rw [zeros_mask, kept_expand _ _ _ hkept]
    have htrans := Subset.transform_eq (s := xform)
      (t := .ofCounts (mask (expand after xform.counts s))) false (by simpa using hmask)
    rw [Subset.counts_ofCounts] at htrans
    have hunion := hreal.apply_eq (hu.trans hbase'.symm)
    have hdelete := keepZero_fill_expand after xform.counts s u hkept (hu.trans hlen)
    refine ⟨_, _, _, _, hreal.insertedSubset_eq, htrans, hunion, ?_, happly⟩
    rw [Subset.deleteFrom_eq, Subset.counts_ofCounts]
    · exact congrArg some hdelete
    · rw [Subset.counts_ofCounts, length_fillZero _ hmask, mask, List.length_map,
        length_fill (by rw [kept_expand _ _ _ hkept, hu, hlen])]
  · intro pre n post hels
    have hchained := hreal.chained
    rw [hels] at hchained
    have hitems := hreal.items
    rw [hels, itemsOf_append] at hitems
    have hkeptPre := hchained.of_append.kept_items
    cases n with
    | nil =>
      have hpost : Chained (copiedTo 0 pre) (.insert [] :: post) d'.delta.baseLen :=
        hchained.right_of_append
      exact absurd rfl hpost.1
    | cons a n =>
      rw [Nat.sub_zero] at hkeptPre
      rw [← hkeptPre]
      cases after with
      | true => exact placed_expand_true _ _ hkept hitems.symm
      | false => exact (placed_expand_false _ _ hkept hitems.symm).2
  · obtain ⟨d'', hshrink, happly''⟩ := hreal.apply_transformShrink (hbase'.trans hlen) hout
    rw [shrink_expand _ _ _ hkept] at happly''
    exact ⟨d'', _, hshrink, happly'', happly⟩

/-! ### Empty insertions -/

/-- The elements emitted and those to come. -/
private def Holds (n : List α) (st : ExpandState α) : Prop :=
  .insert n ∈ st.elements ∨ .insert n ∈ st.currentElements

private theorem expandInner_holds {n : List α} (start : ℕ) (cur : List (DeltaElement α)) :
    ∀ st : ExpandState α, st.currentElements = cur → Holds n st →
      Holds n (expandInner start cur st) := by
  induction cur with
  | nil =>
    intro st hcur h
    rw [expandInner]
    exact h.imp_right fun hn ↦ hcur ▸ hn
  | cons el cur ih =>
    intro st hcur h
    cases el with
    | insert m =>
      rw [expandInner]
      refine ih _ rfl ?_
      rcases h with h | h
      · refine .inl (List.mem_append_left _ ?_)
        split
        · exact List.mem_append_left _ h
        · exact h
      · rw [hcur] at h
        rcases List.mem_cons.mp h with heq | h
        · exact .inl (heq ▸ List.mem_append_right _ (List.mem_singleton_self _))
        · exact .inr h
    | copy b e =>
      have hrest : .insert n ∈ st.elements ∨ .insert n ∈ cur := by
        refine h.imp_right fun hn ↦ ?_
        rw [hcur] at hn
        simpa using hn
      rw [expandInner]
      split
      · refine hrest.imp_right fun hn ↦ ?_
        have hcopy : ∀ (c : Prop) [Decidable c],
            .insert n ∈ if c then cur else .copy b e :: cur := by
          intro c _
          split
          · exact hn
          · exact List.mem_cons_of_mem _ hn
        exact hcopy _
      · exact hrest.imp_right (List.mem_cons_of_mem _)

private theorem expandStep_holds {n : List α} {after : Bool} {len : ℕ} {st : ExpandState α}
    (h : Holds n st) : Holds n (expandStep after len st) := by
  have hjump : ∀ (c : Prop) [Decidable c] (p : ℕ) {st : ExpandState α}, Holds n st →
      Holds n (if c then { st with expandedCoordinate := p } else st) := by
    intro c _ p st h
    split
    · exact h
    · exact h
  exact hjump _ _ (expandInner_holds _ _ _ rfl (hjump _ _ h))

/-- Expanding keeps the insertions. -/
theorem insertsText_of_transformExpand {d d' : InsertDelta α} {xform : Subset} {after : Bool}
    (h : d.transformExpand xform after = some d') (hins : d'.delta.InsertsText) :
    d.delta.InsertsText := by
  obtain ⟨st, hloop, h⟩ := Option.bind_eq_some_iff.mp h
  obtain rfl := Option.some.inj h
  have key : ∀ (k : ℕ) (st₁ : ExpandState α), expandLoop after (xform.count .all) k st₁ = some st →
      ∀ n, Holds n st₁ → .insert n ∈ st.elements := by
    intro k
    induction k with
    | zero => intro st₁ hloop; cases hloop
    | succ k ih =>
      intro st₁ hloop n hn
      rw [expandLoop] at hloop
      split at hloop
      · exact ih _ hloop n (expandStep_holds hn)
      · rename_i hdone
        obtain rfl := Option.some.inj hloop
        rw [not_or, not_not] at hdone
        exact hn.resolve_right (by simp [hdone.2])
  intro n hn
  have hmem := key _ _ hloop n (.inr hn)
  refine hins n ?_
  dsimp only
  split
  · exact List.mem_append_left _ hmem
  · exact hmem

/-- **Expansion commutes with deletion.** Exactly the deltas that insert text at every place are
expanded as they should be. -/
theorem IsFactor.expandsTo_iff {d : InsertDelta α} (h : d.IsFactor) {xform : Subset}
    (hzero : xform.count .zero = d.delta.baseLen) {u : List α} (hu : u.length = xform.len)
    (after : Bool) :
    (∃ d', d.transformExpand xform after = some d' ∧ d.ExpandsTo xform u after d') ↔
      d.delta.InsertsText := by
  constructor
  · rintro ⟨d', hexp, hto⟩
    obtain ⟨inserted, -, -, -, hinserted, -⟩ := hto.deletes
    exact insertsText_of_transformExpand hexp (insertsText_of_insertedSubset hinserted)
  · intro htext
    obtain ⟨s, hreal⟩ := h.realizes htext
    exact hreal.expandsTo hzero hu after

/-- The insertion of a `1` in the middle of two elements. -/
def splitting : InsertDelta ℕ := ⟨⟨[.copy 0 1, .insert [1], .copy 1 2], 2⟩⟩

theorem expandsTo_iff_splitting : (∃ d', splitting.transformExpand (.ofCounts [0, 1, 0]) true
    = some d' ∧ splitting.ExpandsTo (.ofCounts [0, 1, 0]) [7, 8, 9] true d') ↔
      splitting.delta.InsertsText :=
  IsFactor.expandsTo_iff (d := splitting)
    ⟨splitting.delta, _, (Delta.wellFormed_iff.mp (by decide)).1, rfl⟩ (by decide) (by decide) true

/-- A delta that inserts nothing is expanded, but what it inserts is not a subset. -/
theorem not_expandsTo_of_empty_insert :
    ¬ ∀ (d : InsertDelta ℕ) (xform : Subset) (u : List ℕ) (after : Bool), d.IsFactor →
      xform.count .zero = d.delta.baseLen → u.length = xform.len →
      ∃ d', d.transformExpand xform after = some d' ∧ d.ExpandsTo xform u after d' := by
  intro hall
  have hproper : (⟨[.insert [], .copy 0 1], 1⟩ : Delta ℕ).CopiesProper :=
    ⟨by decide, fun b e hmem ↦ by
      simp only [List.mem_cons, reduceCtorEq, DeltaElement.copy.injEq, List.not_mem_nil, or_false,
        false_or] at hmem
      omega⟩
  obtain ⟨d', hexp, hto⟩ := hall ⟨⟨[.insert [], .copy 0 1], 1⟩⟩ (.ofCounts [0]) [7] false
    ⟨_, _, hproper, rfl⟩ (by decide) (by decide)
  obtain ⟨inserted, -, -, -, hinserted, -⟩ := hto.deletes
  obtain rfl : ⟨⟨[.insert [], .copy 0 1], 1⟩⟩ = d' := Option.some.inj hexp
  cases hinserted

end InsertDelta

end EeEditor
