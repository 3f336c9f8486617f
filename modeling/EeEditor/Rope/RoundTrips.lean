import EeEditor.Rope.Factor
import EeEditor.Rope.Regions
import EeEditor.Sequence.Pieces

/-!
# Round trips of factored deltas

A delta is applied in one go, or factored and applied in two steps: insert, then delete. The second
way goes through `InsertDelta.insertedSubset`, which panics on an empty insertion, so the two ways
agree exactly for the deltas that have none.
-/

namespace EeEditor

variable {α : Type}

open Script

/-! ## Union strings -/

/-- The characters of a string outside of a subset. -/
def outside (u : List α) (s : Subset) : List α := keepZero u s.counts

/-- The characters of a string in a subset. -/
def inside (u : List α) (s : Subset) : List α :=
  keepZero u (s.counts.map fun c ↦ if c = 0 then 1 else 0)

/-! ## Applying insert-only deltas -/

theorem Chained.mem_copy {els : List (DeltaElement α)} {p q b e : ℕ} (h : Chained p els q)
    (hmem : .copy b e ∈ els) : p ≤ b ∧ b < e ∧ e ≤ q := by
  induction els generalizing p with
  | nil => exact absurd hmem List.not_mem_nil
  | cons el els ih =>
    cases el with
    | copy b' e' =>
      obtain ⟨rfl, hlt, hrest⟩ := h
      rcases List.mem_cons.mp hmem with heq | hmem
      · cases heq
        exact ⟨le_refl _, hlt, hrest.le⟩
      · obtain ⟨hb, hbe, he⟩ := ih hrest hmem
        exact ⟨hlt.le.trans hb, hbe, he⟩
    | insert n =>
      rcases List.mem_cons.mp hmem with heq | hmem
      · cases heq
      · exact ih h.2 hmem

theorem Chained.resolve_flatten {text : List α} {els : List (DeltaElement α)} {p q : ℕ}
    (h : Chained p els q) (hq : q ≤ text.length) :
    (flatten els).map (resolve text) = (fill (itemsOf els) (text.drop p)).map some := by
  induction els generalizing p with
  | nil => simp [fill]
  | cons el els ih =>
    cases el with
    | copy b e =>
      obtain ⟨rfl, hlt, hrest⟩ := h
      have hle := hrest.le
      have hmap := range'_map_getElem? text b (e - b) (by omega)
      rw [flatten_cons, List.map_append, ih hrest, itemsOf_cons, DeltaElement.flat,
        DeltaElement.items, List.map_map, fill_replicate_none_append, List.map_append, ← hmap,
        List.drop_drop, Nat.add_sub_cancel' hlt.le]
      · rfl
      · rw [List.length_drop]
        omega
    | insert n =>
      rw [flatten_cons, List.map_append, ih h.2, itemsOf_cons, DeltaElement.flat,
        DeltaElement.items, List.map_map, fill_map_some_append, List.map_append]
      rfl

/-- Applying an insert-only delta follows its script. -/
theorem InsertDelta.Realizes.apply_eq {d : InsertDelta α} {s : List (Option α)}
    (h : d.Realizes s) {text : List α} (hlen : text.length = d.delta.baseLen) :
    d.delta.apply text = some (fill s text) := by
  obtain ⟨l, hl, hmap⟩ := Delta.apply_of_bounds hlen fun b e hmem ↦
    ⟨(h.chained.mem_copy hmem).2.1.le, (h.chained.mem_copy hmem).2.2⟩
  rw [h.chained.resolve_flatten hlen.ge, h.items, List.drop_zero] at hmap
  rw [hl]
  exact congrArg some (List.map_injective_iff.mpr (fun _ _ ↦ Option.some.inj) hmap)

/-! ## Inserting and then deleting -/

namespace Delta

theorem length_factorDels {els : List (DeltaElement α)} {p q : ℕ} (h : Ascending p els q) :
    (factorDels q p (flatten els)).length = q - p := by
  induction els generalizing p with
  | nil => simp [factorDels]
  | cons el els ih =>
    cases el with
    | copy b e =>
      obtain ⟨hb, hbe, hrest⟩ := h
      have hle := hrest.le
      rw [flatten_cons, DeltaElement.flat, factorDels_copy q _ _ _ _ hb (Nat.sub_pos_of_lt hbe),
        Nat.add_sub_cancel' hbe.le, List.length_append, List.length_append, ih hrest,
        List.length_replicate, List.length_replicate]
      omega
    | insert n => rw [flatten_cons, DeltaElement.flat, factorDels_insert, ih h.2]

theorem kept_factorItems {els : List (DeltaElement α)} {p q : ℕ} (h : Ascending p els q) :
    kept (factorItems q p (flatten els)) = q - p := by
  induction els generalizing p with
  | nil => simp [factorItems]
  | cons el els ih =>
    cases el with
    | copy b e =>
      obtain ⟨hb, hbe, hrest⟩ := h
      have hle := hrest.le
      rw [flatten_cons, DeltaElement.flat, factorItems_copy q _ _ _ _ hb (Nat.sub_pos_of_lt hbe),
        Nat.add_sub_cancel' hbe.le, kept_append, kept_replicate_none, ih hrest]
      omega
    | insert n =>
      rw [flatten_cons, DeltaElement.flat, factorItems_insert, kept_append, kept_map_some,
        Nat.zero_add, ih h.2]

/-- Deleting what a delta does not copy, from the text with its insertions, leaves what the delta
copies and inserts. -/
theorem keepZero_factored (text : List α) {els : List (DeltaElement α)} {p q : ℕ}
    (h : Ascending p els q) (hq : q ≤ text.length) :
    (keepZero (fill (factorItems q p (flatten els)) (text.drop p))
        (fillZero (fun _ ↦ 0) (mask (factorItems q p (flatten els)))
          (factorDels q p (flatten els)))).map some
      = (flatten els).map (resolve text) := by
  induction els generalizing p with
  | nil =>
    have hle : p ≤ q := h
    have hdel := fillZero_replicate_zero_append (fun _ ↦ 0) [] (q - p) (List.replicate (q - p) 1)
      (by simp)
    have hfill := fill_replicate_none_append [] (q - p) (text.drop p)
      (by rw [List.length_drop]; omega)
    have hkeep := keepZero_replicate ((text.drop p).take (q - p)) 1
    have hlen : ((text.drop p).take (q - p)).length = q - p := by
      rw [List.length_take, List.length_drop]
      omega
    rw [hlen] at hkeep
    simp only [List.append_nil] at hdel hfill
    rw [flatten_nil, factorItems, factorDels, mask_replicate_none, hdel, hfill]
    simp only [fill, fillZero, List.append_nil, List.take_replicate, min_self, hkeep]
    rfl
  | cons el els ih =>
    cases el with
    | copy b e =>
      obtain ⟨hb, hbe, hrest⟩ := h
      have hle := hrest.le
      have hdels : (List.replicate (b - p) 1 ++ List.replicate (e - b) 0).length = e - p := by
        rw [List.length_append, List.length_replicate, List.length_replicate]
        omega
      have hgap : ((text.drop p).take (b - p)).length = b - p := by
        rw [List.length_take, List.length_drop]
        omega
      have hcopy : ((text.drop b).take (e - b)).length = e - b := by
        rw [List.length_take, List.length_drop]
        omega
      have hslice := take_drop_append (l := text) hb hbe.le
      have hdeleted := keepZero_replicate ((text.drop p).take (b - p)) 1
      have hkept := keepZero_replicate ((text.drop b).take (e - b)) 0
      rw [hgap] at hdeleted
      rw [hcopy] at hkept
      rw [flatten_cons, DeltaElement.flat, factorItems_copy q _ _ _ _ hb (Nat.sub_pos_of_lt hbe),
        factorDels_copy q _ _ _ _ hb (Nat.sub_pos_of_lt hbe), Nat.add_sub_cancel' hbe.le,
        ← List.append_assoc, mask_append, mask_replicate_none,
        fillZero_replicate_zero_append _ _ _ _ (by rw [List.length_append, hdels]; omega),
        List.take_left' hdels, List.drop_left' hdels,
        fill_replicate_none_append _ _ _ (by rw [List.length_drop]; omega), List.drop_drop,
        Nat.add_sub_cancel' (hb.trans hbe.le), ← hslice, List.append_assoc, List.append_assoc,
        keepZero_append (by rw [hgap, List.length_replicate]),
        keepZero_append (by rw [hcopy, List.length_replicate]), hdeleted, hkept, if_neg one_ne_zero,
        if_pos rfl, List.nil_append, List.map_append, ih hrest, List.map_append, List.map_map,
        ← range'_map_getElem? text b (e - b) (by omega)]
      rfl
    | insert n =>
      have hkept := keepZero_replicate n 0
      have hcancel := fillZero_replicate_succ_append (fun _ ↦ 0)
        (mask (factorItems q p (flatten els))) 0 (factorDels q p (flatten els)) n.length
      rw [Nat.zero_add] at hcancel
      rw [flatten_cons, DeltaElement.flat, factorItems_insert, factorDels_insert, mask_append,
        mask_map_some, hcancel, fill_map_some_append,
        keepZero_append (by rw [List.length_replicate]), hkept, if_pos rfl, List.map_append,
        ih h.2, List.map_append, List.map_map]
      rfl

/-- Insert what a delta inserts, then delete what it does not copy. -/
def applyFactored (d : Delta α) (base : List α) : Option (List α) := do
  let (ins, del) ← d.factor
  let inserted ← ins.insertedSubset
  let del ← del.transformExpand inserted
  let union ← ins.delta.apply base
  del.deleteFrom union

theorem WellFormed.apply_eq {d : Delta α} (h : d.WellFormed) {base : List α}
    (hlen : base.length = d.baseLen) : ∃ t, d.apply base = some t ∧
      t.map some = (flatten d.els).map (resolve base) :=
  apply_of_bounds hlen fun _ _ hmem ↦ ⟨(h.mem_copy hmem).2.1.le, (h.mem_copy hmem).2.2⟩

theorem WellFormed.applyFactored_eq {d : Delta α} (h : d.WellFormed) {base : List α}
    (hlen : base.length = d.baseLen) : d.applyFactored base = d.apply base := by
  obtain ⟨ins, hfactor, hreal, hbase⟩ := h.factor_eq
  obtain ⟨t, happly, ht⟩ := h.apply_eq hlen
  have hkept : (factorDels d.baseLen 0 (flatten d.els)).length
      = zeros (mask (factorItems d.baseLen 0 (flatten d.els))) := by
    rw [length_factorDels h, zeros_mask, kept_factorItems h]
  have hunion : (fill (factorItems d.baseLen 0 (flatten d.els)) base).length
      = (fillZero (fun _ ↦ 0) (mask (factorItems d.baseLen 0 (flatten d.els)))
        (factorDels d.baseLen 0 (flatten d.els))).length := by
    rw [length_fill (by rw [kept_factorItems h, hlen, Nat.sub_zero]), length_fillZero _ hkept,
      mask, List.length_map]
  have hkeep := keepZero_factored base h hlen.ge
  rw [List.drop_zero, ← ht] at hkeep
  have htrans := Subset.transform_eq (s := .ofCounts (factorDels d.baseLen 0 (flatten d.els)))
    (t := .ofCounts (mask (factorItems d.baseLen 0 (flatten d.els)))) false (by simpa using hkept)
  rw [applyFactored, hfactor, happly]
  simp only [Option.bind_eq_bind, Option.bind_some, hreal.insertedSubset_eq,
    hreal.apply_eq (hlen.trans hbase.symm), Subset.transformExpand, htrans]
  rw [Subset.deleteFrom_eq (by simpa using hunion)]
  exact congrArg some (List.map_injective_iff.mpr (fun _ _ ↦ Option.some.inj)
    (by simpa using hkeep))

end Delta

/-! ## Empty insertions -/

/-- The copies are sorted, disjoint, non-empty and within the base. Insertions may be empty. -/
structure Delta.CopiesProper (d : Delta α) : Prop where
  sorted : d.Sorted
  nonempty : ∀ b e, .copy b e ∈ d.els → b < e

/-- Some text is inserted by every `Insert`. -/
def Delta.InsertsText (d : Delta α) : Prop := ∀ n, .insert n ∈ d.els → n ≠ []

instance (d : Delta α) : Decidable d.InsertsText :=
  decidable_of_iff
    (d.els.all fun el ↦ match el with | .copy _ _ => true | .insert n => !n.isEmpty) <| by
    rw [List.all_eq_true]
    constructor
    · intro h n hn
      simpa using h _ hn
    · rintro h (⟨b, e⟩ | n) hmem
      · rfl
      · simpa using h n hmem

theorem ascending_iff {els : List (DeltaElement α)} {p q : ℕ} : Ascending p els q ↔
    (CopiesSorted p els q ∧ ∀ b e, .copy b e ∈ els → b < e) ∧
      ∀ n, .insert n ∈ els → n ≠ [] := by
  induction els generalizing p with
  | nil => simp [Ascending, CopiesSorted]
  | cons el els ih =>
    cases el with
    | copy b e =>
      simp only [Ascending, CopiesSorted, ih, List.mem_cons, DeltaElement.copy.injEq, reduceCtorEq,
        false_or, or_imp, forall_and, and_imp]
      constructor
      · rintro ⟨hb, hbe, ⟨hsorted, hcopies⟩, hinserts⟩
        exact ⟨⟨⟨hb, hbe.le, hsorted⟩, fun _ _ h1 h2 ↦ h1 ▸ h2 ▸ hbe, hcopies⟩, hinserts⟩
      · rintro ⟨⟨⟨hb, -, hsorted⟩, hbe, hcopies⟩, hinserts⟩
        exact ⟨hb, hbe b e rfl rfl, ⟨hsorted, hcopies⟩, hinserts⟩
    | insert n =>
      simp only [Ascending, CopiesSorted, ih, List.mem_cons, DeltaElement.insert.injEq,
        reduceCtorEq, false_or, or_imp, forall_and, forall_eq]
      exact and_left_comm

theorem Delta.wellFormed_iff {d : Delta α} : d.WellFormed ↔ d.CopiesProper ∧ d.InsertsText :=
  ascending_iff.trans ⟨fun ⟨⟨h1, h2⟩, h3⟩ ↦ ⟨⟨h1, h2⟩, h3⟩, fun ⟨⟨h1, h2⟩, h3⟩ ↦ ⟨⟨h1, h2⟩, h3⟩⟩

/-- The subset of what is inserted is not built when nothing is inserted at some place. -/
theorem InsertDelta.insertsText_of_insertedSubset {d : InsertDelta α} {s : Subset}
    (h : d.insertedSubset = some s) : d.delta.InsertsText := by
  obtain ⟨sb, hfold, -⟩ := Option.bind_eq_some_iff.mp h
  have key : ∀ (els : List (DeltaElement α)) (sb sb' : SubsetBuilder),
      els.foldlM insertedStep sb = some sb' → ∀ n, .insert n ∈ els → n ≠ [] := by
    intro els
    induction els with
    | nil => intro _ _ _ n hn; exact absurd hn List.not_mem_nil
    | cons el els ih =>
      intro sb sb' hfold n hn
      rw [List.foldlM_cons, Option.bind_eq_bind, Option.bind_eq_some_iff] at hfold
      obtain ⟨sb₁, hstep, hrest⟩ := hfold
      rcases List.mem_cons.mp hn with rfl | hn
      · rintro rfl
        rw [insertedStep, SubsetBuilder.pushSegment, dif_neg (by simp)] at hstep
        cases hstep
      · exact ih sb₁ sb' hrest n hn
  exact key _ _ _ hfold

namespace Delta

/-- Factoring keeps the insertions. -/
theorem insertsText_of_factor {d : Delta α} {ins : InsertDelta α} {del : Subset}
    (h : d.factor = some (ins, del)) (hins : ins.delta.InsertsText) : d.InsertsText := by
  obtain ⟨st, hfold, h⟩ := Option.bind_eq_some_iff.mp h
  obtain ⟨sb, -, h⟩ := Option.bind_eq_some_iff.mp h
  obtain ⟨rfl, -⟩ := Prod.mk.inj (Option.some.inj h)
  have key : ∀ (els : List (DeltaElement α)) (st st' : FactorState α),
      els.foldlM factorStep st = some st' → ∀ n, .insert n ∈ els ∨ .insert n ∈ st.ins →
        .insert n ∈ st'.ins := by
    intro els
    induction els with
    | nil =>
      intro st st' hfold n hn
      obtain rfl := Option.some.inj hfold
      exact hn.resolve_left List.not_mem_nil
    | cons el els ih =>
      intro st st' hfold n hn
      rw [List.foldlM_cons, Option.bind_eq_bind, Option.bind_eq_some_iff] at hfold
      obtain ⟨st₁, hstep, hrest⟩ := hfold
      refine ih st₁ st' hrest n ?_
      cases el with
      | copy b e =>
        obtain ⟨sb, -, hst⟩ := Option.bind_eq_some_iff.mp hstep
        obtain rfl := Option.some.inj hst
        simpa using hn
      | insert m =>
        obtain rfl := Option.some.inj hstep
        rcases hn with hn | hn
        · rcases List.mem_cons.mp hn with heq | hn
          · exact .inr (heq ▸ List.mem_append_right _ (List.mem_singleton_self _))
          · exact .inl hn
        · refine .inr (List.mem_append_left _ ?_)
          split
          · exact List.mem_append_left _ hn
          · exact hn
  intro n hn
  refine hins n ?_
  have hmem := key _ _ _ hfold n (.inl hn)
  dsimp only
  split
  · exact List.mem_append_left _ hmem
  · exact hmem

/-- A delta can be factored to the same effect exactly when it inserts text at every place. -/
theorem applyFactored_eq_iff {d : Delta α} (h : d.CopiesProper) {base : List α}
    (hlen : base.length = d.baseLen) :
    (∃ t, d.apply base = some t ∧ d.applyFactored base = some t) ↔ d.InsertsText := by
  constructor
  · rintro ⟨t, -, hfactored⟩
    obtain ⟨⟨ins, del⟩, hfactor, hfactored⟩ := Option.bind_eq_some_iff.mp hfactored
    obtain ⟨inserted, hinserted, -⟩ := Option.bind_eq_some_iff.mp hfactored
    exact insertsText_of_factor hfactor (InsertDelta.insertsText_of_insertedSubset hinserted)
  · intro htext
    have hwf := wellFormed_iff.mpr ⟨h, htext⟩
    obtain ⟨t, happly, -⟩ := hwf.apply_eq hlen
    exact ⟨t, happly, (hwf.applyFactored_eq hlen).trans happly⟩

end Delta

end EeEditor
