import EeEditor.Rope.RoundTrips

/-!
# Transforming coordinates

The model of the `Transformer` of `xi-rope/src/delta/transform.rs`. It remembers the element where
its last query ended and goes on from there, unless the query lies before the last one. It passes
over an element only if every later query would, so the answers are those of a fresh transformer.
-/

namespace EeEditor

variable {α : Type}

structure Transformer (α : Type) where
  delta : Delta α
  elementIndex : ℕ
  transformedOffset : ℕ
  lastQuery : Option (ℕ × Bool)

namespace Transformer

def new (delta : Delta α) : Transformer α := ⟨delta, 0, 0, none⟩

/-- The loop over the elements from `elementIndex` on: the answer, and the index and the offset
where the loop ends. -/
def walk (ix : ℕ) (after : Bool) : List (DeltaElement α) → ℕ → ℕ → ℕ × ℕ × ℕ
  | [], index, offset => (offset, index, offset)
  | .copy beg end_ :: els, index, offset =>
    if ix ≤ beg then (offset, index, offset)
    else if ix < end_ ∨ ix = end_ ∧ after = false then (offset + ix - beg, index, offset)
    else walk ix after els (index + 1) (offset + (end_ - beg))
  | .insert node :: els, index, offset => walk ix after els (index + 1) (offset + node.length)

/-- The query lies before the last one. -/
def mustReset (self : Transformer α) (ix : ℕ) (after : Bool) : Bool :=
  match self.lastQuery with
  | none => false
  | some (lastIx, lastAfter) => ix < lastIx || ix == lastIx && lastAfter && !after

/-- Transform a single coordinate. `after` says whether it lands behind inserted text. -/
def transform (self : Transformer α) (ix : ℕ) (after : Bool) : ℕ × Transformer α :=
  let (elementIndex, transformedOffset) :=
    if self.mustReset ix after then (0, 0) else (self.elementIndex, self.transformedOffset)
  if ix = 0 ∧ after = false then
    (0, ⟨self.delta, elementIndex, transformedOffset, some (ix, after)⟩)
  else
    let (answer, elementIndex, transformedOffset) :=
      walk ix after (self.delta.els.drop elementIndex) elementIndex transformedOffset
    (answer, ⟨self.delta, elementIndex, transformedOffset, some (ix, after)⟩)

/-- The answers of one transformer to a sequence of queries. -/
def answers (self : Transformer α) : List (ℕ × Bool) → List ℕ
  | [] => []
  | (ix, after) :: queries =>
    let (answer, self) := self.transform ix after
    answer :: answers self queries

end Transformer

/-- The answer of a fresh transformer. -/
def Delta.transformFresh (d : Delta α) (ix : ℕ) (after : Bool) : ℕ :=
  ((Transformer.new d).transform ix after).1

/-! ## What is passed over -/

namespace Transformer

open Delta

/-- The loop of a query goes beyond the element. -/
def Passed (query : ℕ × Bool) : DeltaElement α → Prop
  | .copy beg end_ => beg < query.1 ∧ (end_ < query.1 ∨ end_ = query.1 ∧ query.2 = true)
  | .insert _ => True

variable {ix : ℕ} {after : Bool} {pre post els : List (DeltaElement α)} {d : Delta α}

theorem walk_append (h : ∀ el ∈ pre, Passed (ix, after) el) (index offset : ℕ) :
    walk ix after (pre ++ post) index offset
      = walk ix after post (index + pre.length) (offset + totalElementLen pre) := by
  induction pre generalizing index offset with
  | nil => rfl
  | cons el pre ih =>
    have hrest := ih fun el hel ↦ h el (List.mem_cons_of_mem _ hel)
    have hlen : totalElementLen (el :: pre) = el.len + totalElementLen pre := by
      simp [totalElementLen]
    rw [List.length_cons, hlen]
    cases el with
    | copy beg end_ =>
      obtain ⟨hbeg, hend⟩ := h _ List.mem_cons_self
      have hgo : ¬ (ix < end_ ∨ ix = end_ ∧ after = false) := by
        rintro (hlt | ⟨rfl, rfl⟩)
        · rcases hend with hend | ⟨rfl, -⟩
          · exact absurd hlt hend.not_gt
          · exact lt_irrefl _ hlt
        · rcases hend with hend | ⟨-, hafter⟩
          · exact lt_irrefl _ hend
          · cases hafter
      rw [List.cons_append, walk, if_neg hbeg.not_ge, if_neg hgo, hrest, Nat.add_assoc index,
        Nat.add_comm 1, Nat.add_assoc offset]
      rfl
    | insert n =>
      rw [List.cons_append, walk, hrest, Nat.add_assoc index, Nat.add_comm 1,
        Nat.add_assoc offset]
      rfl

/-- The loop ends behind elements that it passes. -/
theorem exists_walk (ix : ℕ) (after : Bool) (els : List (DeltaElement α)) (index offset : ℕ) :
    ∃ pre post, els = pre ++ post ∧ (∀ el ∈ pre, Passed (ix, after) el) ∧
      (walk ix after els index offset).2
        = (index + pre.length, offset + totalElementLen pre) := by
  induction els generalizing index offset with
  | nil => exact ⟨[], [], rfl, by simp, rfl⟩
  | cons el els ih =>
    -- going on behind the first element
    have hnext : ∀ offset', Passed (ix, after) el → offset' = offset + el.len →
        walk ix after (el :: els) index offset = walk ix after els (index + 1) offset' →
        ∃ pre post, el :: els = pre ++ post ∧ (∀ el ∈ pre, Passed (ix, after) el) ∧
          (walk ix after (el :: els) index offset).2
            = (index + pre.length, offset + totalElementLen pre) := by
      intro offset' hel hoffset hwalk
      obtain ⟨pre, post, rfl, hpre, hend⟩ := ih (index + 1) offset'
      refine ⟨el :: pre, post, rfl, fun el' hel' ↦ ?_, ?_⟩
      · rcases List.mem_cons.mp hel' with rfl | hel'
        · exact hel
        · exact hpre el' hel'
      · have hlen : totalElementLen (el :: pre) = el.len + totalElementLen pre := by
          simp [totalElementLen]
        rw [hwalk, hend, hoffset, hlen, List.length_cons]
        exact Prod.ext (by dsimp only; omega) (by dsimp only; omega)
    cases el with
    | copy beg end_ =>
      by_cases hbeg : ix ≤ beg
      · exact ⟨[], .copy beg end_ :: els, rfl, by simp, by rw [walk, if_pos hbeg]; rfl⟩
      · by_cases hend : ix < end_ ∨ ix = end_ ∧ after = false
        · exact ⟨[], .copy beg end_ :: els, rfl, by simp,
            by rw [walk, if_neg hbeg, if_pos hend]; rfl⟩
        · refine hnext _ ⟨not_le.mp hbeg, ?_⟩ rfl (by rw [walk, if_neg hbeg, if_neg hend]; rfl)
          rw [not_or, not_lt, not_and, Bool.not_eq_false] at hend
          exact hend.1.lt_or_eq.imp_right fun heq ↦ ⟨heq, hend.2 heq.symm⟩
    | insert n => exact hnext _ trivial rfl rfl

/-! ## The shared transformer -/

/-- What is cached is the place behind elements that the last query passes. -/
structure Caches (d : Delta α) (t : Transformer α) : Prop where
  delta : t.delta = d
  place : ∃ pre post, d.els = pre ++ post ∧ t.elementIndex = pre.length ∧
    t.transformedOffset = totalElementLen pre ∧
    match t.lastQuery with
    | none => pre = []
    | some query => ∀ el ∈ pre, Passed query el

theorem caches_new (d : Delta α) : Caches d (new d) := ⟨rfl, [], d.els, rfl, rfl, rfl, rfl⟩

/-- Without a reset, the query passes what the last one passed. -/
theorem Passed.of_not_reset {last : ℕ × Bool} {el : DeltaElement α} (h : Passed last el)
    (hreset : ¬ (ix < last.1 || ix == last.1 && last.2 && !after) = true) :
    Passed (ix, after) el := by
  cases el with
  | insert n => trivial
  | copy beg end_ =>
    obtain ⟨lastIx, lastAfter⟩ := last
    simp only [Bool.or_eq_true, Bool.and_eq_true, decide_eq_true_eq, beq_iff_eq,
      Bool.not_eq_true'] at hreset
    obtain ⟨hbeg, hend⟩ := h
    dsimp only at hbeg hend
    refine ⟨by dsimp only; omega, ?_⟩
    dsimp only
    rcases hend with hend | ⟨hend, hlast⟩
    · exact .inl (by omega)
    · cases after with
      | true =>
        have hle : end_ ≤ ix := by omega
        exact hle.lt_or_eq.imp_right fun heq ↦ ⟨heq, rfl⟩
      | false => exact .inl (by simp only [hlast, and_true] at hreset; omega)

theorem Caches.transform {t : Transformer α} (h : Caches d t) (ix : ℕ) (after : Bool) :
    (t.transform ix after).1 = d.transformFresh ix after ∧
      Caches d (t.transform ix after).2 := by
  obtain ⟨hdelta, pre, post, hels, hindex, hoffset, hlast⟩ := h
  -- where the query starts, after a reset or not
  obtain ⟨pre', post', hels', hstart, hpassed⟩ : ∃ pre' post', d.els = pre' ++ post' ∧
      (if t.mustReset ix after then (0, 0) else (t.elementIndex, t.transformedOffset))
        = (pre'.length, totalElementLen pre') ∧ ∀ el ∈ pre', Passed (ix, after) el := by
    by_cases hreset : t.mustReset ix after = true
    · exact ⟨[], d.els, rfl, by rw [if_pos hreset]; rfl, by simp⟩
    · refine ⟨pre, post, hels, by rw [if_neg hreset, hindex, hoffset], ?_⟩
      rw [mustReset] at hreset
      cases hquery : t.lastQuery with
      | none =>
        rw [hquery] at hlast
        simp [show pre = [] from hlast]
      | some query =>
        rw [hquery] at hlast hreset
        exact fun el hel ↦ (hlast el hel).of_not_reset hreset
  have hfresh : d.transformFresh ix after
      = if ix = 0 ∧ after = false then 0 else (walk ix after d.els 0 0).1 := by
    rw [transformFresh, Transformer.transform]
    simp only [new, mustReset, Bool.false_eq_true, if_false, List.drop_zero]
    split <;> rfl
  rw [hfresh, Transformer.transform, hstart, hdelta]
  dsimp only
  by_cases hzero : ix = 0 ∧ after = false
  · rw [if_pos hzero, if_pos hzero]
    exact ⟨rfl, rfl, pre', post', hels', rfl, rfl, hpassed⟩
  · rw [if_neg hzero, if_neg hzero, hels', List.drop_left, walk_append hpassed, Nat.zero_add,
      Nat.zero_add]
    obtain ⟨mid, rest, hmid, hpassed', hend⟩ :=
      exists_walk ix after post' pre'.length (totalElementLen pre')
    refine ⟨rfl, rfl, pre' ++ mid, rest, by rw [hels', hmid, List.append_assoc], ?_, ?_, ?_⟩
    · rw [List.length_append]
      exact congrArg Prod.fst hend
    · rw [totalElementLen_append]
      exact congrArg Prod.snd hend
    · intro el hel
      rcases List.mem_append.mp hel with hel | hel
      · exact hpassed el hel
      · exact hpassed' el hel

/-- One shared transformer answers like fresh ones. -/
theorem Caches.answers {t : Transformer α} (h : Caches d t) (queries : List (ℕ × Bool)) :
    t.answers queries = queries.map fun query ↦ d.transformFresh query.1 query.2 := by
  induction queries generalizing t with
  | nil => rfl
  | cons query queries ih =>
    obtain ⟨hanswer, hcaches⟩ := h.transform query.1 query.2
    rw [List.map_cons, ← hanswer, ← ih hcaches]
    rfl

/-! ## Single queries -/

/-- Where the loop ends, counted from its start. -/
def walkLen (ix : ℕ) (after : Bool) (els : List (DeltaElement α)) : ℕ := (walk ix after els 0 0).1

theorem walk_fst (ix : ℕ) (after : Bool) (els : List (DeltaElement α)) (index offset : ℕ) :
    (walk ix after els index offset).1 = offset + walkLen ix after els := by
  induction els generalizing index offset with
  | nil => rfl
  | cons el els ih =>
    cases el with
    | copy beg end_ =>
      rw [walkLen, walk, walk]
      by_cases hbeg : ix ≤ beg
      · rw [if_pos hbeg, if_pos hbeg]
        rfl
      · rw [if_neg hbeg, if_neg hbeg]
        split
        · dsimp only
          omega
        · rw [ih, ih, Nat.zero_add, Nat.add_assoc]
    | insert n => rw [walkLen, walk, walk, ih, ih, Nat.zero_add, Nat.add_assoc]

theorem walkLen_copy (ix : ℕ) (after : Bool) (beg end_ : ℕ) (els : List (DeltaElement α)) :
    walkLen ix after (.copy beg end_ :: els)
      = if ix ≤ beg then 0
        else if ix < end_ ∨ ix = end_ ∧ after = false then ix - beg
        else end_ - beg + walkLen ix after els := by
  rw [walkLen, walk]
  split
  · rfl
  · split
    · exact congrArg (· - beg) (Nat.zero_add ix)
    · rw [walk_fst, Nat.zero_add]

theorem walkLen_insert (ix : ℕ) (after : Bool) (n : List α) (els : List (DeltaElement α)) :
    walkLen ix after (.insert n :: els) = n.length + walkLen ix after els := by
  rw [walkLen, walk, walk_fst, Nat.zero_add]

/-- A later query ends later. -/
theorem walkLen_mono {ix' : ℕ} {after' : Bool} (h : ix < ix' ∨ ix = ix' ∧ after ≤ after')
    (els : List (DeltaElement α)) : walkLen ix after els ≤ walkLen ix' after' els := by
  induction els with
  | nil => exact le_rfl
  | cons el els ih =>
    cases el with
    | insert n =>
      rw [walkLen_insert, walkLen_insert]
      exact Nat.add_le_add_left ih _
    | copy beg end_ =>
      rw [walkLen_copy, walkLen_copy]
      by_cases hbeg : ix ≤ beg
      · rw [if_pos hbeg]
        exact Nat.zero_le _
      · have hbeg' : ¬ ix' ≤ beg := by omega
        rw [if_neg hbeg, if_neg hbeg']
        by_cases hend : ix < end_ ∨ ix = end_ ∧ after = false
        · rw [if_pos hend]
          split <;> omega
        · -- the earlier query passes the copy, and so does the later one
          have hend' : ¬ (ix' < end_ ∨ ix' = end_ ∧ after' = false) := by
            rw [not_or, not_and] at hend
            rintro (hlt | ⟨heq, rfl⟩)
            · omega
            · rcases h with h | ⟨h, hafter⟩
              · omega
              · exact hend.2 (h.trans heq) (Bool.eq_false_of_le_false hafter)
          rw [if_neg hend, if_neg hend']
          exact Nat.add_le_add_left ih _

theorem transformFresh_eq (d : Delta α) (ix : ℕ) (after : Bool) : d.transformFresh ix after
    = if ix = 0 ∧ after = false then 0 else walkLen ix after d.els := by
  rw [transformFresh, Transformer.transform]
  simp only [new, mustReset, Bool.false_eq_true, if_false, List.drop_zero]
  split <;> rfl

theorem transformFresh_mono {ix' : ℕ} {after' : Bool} (h : ix < ix' ∨ ix = ix' ∧ after ≤ after') :
    d.transformFresh ix after ≤ d.transformFresh ix' after' := by
  rw [transformFresh_eq, transformFresh_eq]
  by_cases hzero : ix = 0 ∧ after = false
  · rw [if_pos hzero]
    exact Nat.zero_le _
  · have hzero' : ¬ (ix' = 0 ∧ after' = false) := by
      rintro ⟨rfl, rfl⟩
      rcases h with h | ⟨rfl, hafter⟩
      · omega
      · exact hzero ⟨rfl, Bool.eq_false_of_le_false hafter⟩
    rw [if_neg hzero, if_neg hzero']
    exact walkLen_mono h d.els

/-! ### Copied characters -/

variable {p q k j : ℕ}

/-- A copied position is looked up in the copy or behind it. -/
theorem flatten_copy_getElem? {beg end_ : ℕ} :
    (flatten (.copy beg end_ :: els))[k]?
      = if k < end_ - beg then some (.inl (beg + k)) else (flatten els)[k - (end_ - beg)]? := by
  rw [flatten_cons, DeltaElement.flat]
  split
  · rename_i hlt
    rw [List.getElem?_append_left (by simpa using hlt), List.getElem?_map,
      List.getElem?_range' hlt]
    simp
  · rename_i hge
    rw [List.getElem?_append_right (by simpa using hge), List.length_map, List.length_range']

theorem flatten_insert_getElem? {n : List α} {i : ℕ}
    (h : (flatten (.insert n :: els))[k]? = some (.inl i)) :
    n.length ≤ k ∧ (flatten els)[k - n.length]? = some (.inl i) := by
  rw [flatten_cons, DeltaElement.flat] at h
  by_cases hlt : k < n.length
  · rw [List.getElem?_append_left (by simpa using hlt), List.getElem?_map,
      Option.map_eq_some_iff] at h
    obtain ⟨a, -, heq⟩ := h
    cases heq
  · rw [List.getElem?_append_right (by simpa using hlt), List.length_map] at h
    exact ⟨not_lt.mp hlt, h⟩

end Transformer

/-- A position that sorted elements copy from `p` on is not before `p`. -/
theorem CopiesSorted.le_of_getElem? {els : List (DeltaElement α)} {p q k i : ℕ}
    (h : CopiesSorted p els q) (hk : (flatten els)[k]? = some (.inl i)) : p ≤ i := by
  obtain ⟨b, e, hmem, hb, -⟩ := Delta.mem_flatten_inl (List.mem_of_getElem? hk)
  exact (h.le_copyStart.trans (h.of_mem hmem).1).trans hb

namespace Transformer

open Delta

variable {ix p q k j : ℕ} {els : List (DeltaElement α)} {d : Delta α}

/-- Behind inserted text lies the character itself. -/
theorem walkLen_true (h : CopiesSorted p els q) (hne : ∀ b e, .copy b e ∈ els → b < e)
    (hk : (flatten els)[k]? = some (.inl ix)) : walkLen ix true els = k := by
  induction els generalizing p k with
  | nil => cases hk
  | cons el els ih =>
    have hne' : ∀ b e, .copy b e ∈ els → b < e := fun b e hmem ↦
      hne b e (List.mem_cons_of_mem _ hmem)
    cases el with
    | insert n =>
      obtain ⟨hle, hrest⟩ := flatten_insert_getElem? hk
      rw [walkLen_insert, ih h hne' hrest, Nat.add_sub_cancel' hle]
    | copy beg end_ =>
      have hlt := hne beg end_ List.mem_cons_self
      rw [flatten_copy_getElem?] at hk
      rw [walkLen_copy]
      split at hk
      · obtain rfl := Sum.inl.inj (Option.some.inj hk)
        split
        · omega
        · rw [if_pos (by omega)]
          omega
      · have hix := h.2.2.le_of_getElem? hk
        rw [if_neg (by omega), if_neg (by simp; omega), ih h.2.2 hne' hk]
        omega

/-- In front of inserted text lies what follows the character before. -/
theorem walkLen_false_of_prev (h : CopiesSorted p els q) (hne : ∀ b e, .copy b e ∈ els → b < e)
    (hj : (flatten els)[j]? = some (.inl ix)) : walkLen (ix + 1) false els = j + 1 := by
  induction els generalizing p j with
  | nil => cases hj
  | cons el els ih =>
    have hne' : ∀ b e, .copy b e ∈ els → b < e := fun b e hmem ↦
      hne b e (List.mem_cons_of_mem _ hmem)
    cases el with
    | insert n =>
      obtain ⟨hle, hrest⟩ := flatten_insert_getElem? hj
      rw [walkLen_insert, ih h hne' hrest]
      omega
    | copy beg end_ =>
      rw [flatten_copy_getElem?] at hj
      rw [walkLen_copy]
      split at hj
      · obtain rfl := Sum.inl.inj (Option.some.inj hj)
        rw [if_neg (by omega), if_pos (by simp; omega)]
        omega
      · have hix := h.2.2.le_of_getElem? hj
        have hlt := hne beg end_ List.mem_cons_self
        rw [if_neg (by omega), if_neg (by simp; omega), ih h.2.2 hne' hj]
        omega

/-- Without the character before, it is the character itself. -/
theorem walkLen_false_of_gap (h : CopiesSorted p els q) (hne : ∀ b e, .copy b e ∈ els → b < e)
    (hk : (flatten els)[k]? = some (.inl (ix + 1))) (hgap : .inl ix ∉ flatten els) :
    walkLen (ix + 1) false els = k := by
  induction els generalizing p k with
  | nil => cases hk
  | cons el els ih =>
    have hne' : ∀ b e, .copy b e ∈ els → b < e := fun b e hmem ↦
      hne b e (List.mem_cons_of_mem _ hmem)
    have hgap' : .inl ix ∉ flatten els := fun hmem ↦
      hgap (by rw [flatten_cons]; exact List.mem_append_right _ hmem)
    cases el with
    | insert n =>
      obtain ⟨hle, hrest⟩ := flatten_insert_getElem? hk
      rw [walkLen_insert, ih h hne' hrest hgap', Nat.add_sub_cancel' hle]
    | copy beg end_ =>
      have hlt := hne beg end_ List.mem_cons_self
      have hnot : ¬ (beg ≤ ix ∧ ix < end_) := fun hin ↦ hgap <| by
        rw [flatten_cons, DeltaElement.flat]
        exact List.mem_append_left _ (List.mem_map_of_mem (List.mem_range'_1.mpr (by omega)))
      rw [flatten_copy_getElem?] at hk
      rw [walkLen_copy]
      split at hk
      · have heq := Sum.inl.inj (Option.some.inj hk)
        rw [if_pos (by omega)]
        omega
      · have hix := h.2.2.le_of_getElem? hk
        rw [if_neg (by omega), if_neg (by simp; omega), ih h.2.2 hne' hk hgap']
        omega

/-- Inside a copy nothing is inserted. -/
theorem walkLen_inside (h : CopiesSorted p els q) {b e : ℕ} (hmem : .copy b e ∈ els) (hb : b < ix)
    (he : ix < e) : walkLen ix false els = walkLen ix true els := by
  induction els generalizing p with
  | nil => exact absurd hmem List.not_mem_nil
  | cons el els ih =>
    cases el with
    | insert n =>
      rw [walkLen_insert, walkLen_insert, ih h (by simpa using hmem)]
    | copy beg end_ =>
      rw [walkLen_copy, walkLen_copy]
      rcases List.mem_cons.mp hmem with heq | hmem
      · cases heq
        rw [if_neg hb.not_ge, if_neg hb.not_ge, if_pos (.inl he), if_pos (.inl he)]
      · have hle := h.2.2.le_copyStart.trans (h.2.2.of_mem hmem).1
        have hbeg := h.2.1
        rw [if_neg (by omega), if_neg (by omega), if_neg (by simp; omega),
          if_neg (by simp; omega), ih h.2.2 hmem]

end Transformer

theorem mem_flatten_of_mem {els : List (DeltaElement α)} {b e i : ℕ} (hmem : .copy b e ∈ els)
    (hb : b ≤ i) (he : i < e) : .inl i ∈ flatten els :=
  List.mem_flatMap.mpr ⟨_, hmem, List.mem_map_of_mem (List.mem_range'_1.mpr (by omega))⟩

namespace Delta

/-- What the transformers of a delta should answer. -/
structure TransformsExactly (d : Delta α) : Prop where
  shared : ∀ queries : List (ℕ × Bool), (Transformer.new d).answers queries
    = queries.map fun query ↦ d.transformFresh query.1 query.2
  mono : ∀ ix ix' after, ix ≤ ix' → d.transformFresh ix after ≤ d.transformFresh ix' after
  before_le_after : ∀ ix, d.transformFresh ix false ≤ d.transformFresh ix true
  copied : ∀ b e ix, .copy b e ∈ d.els → b ≤ ix → ix < e →
    (flatten d.els)[d.transformFresh ix true]? = some (.inl ix)
  inside : ∀ b e ix, .copy b e ∈ d.els → b < ix → ix < e →
    (flatten d.els)[d.transformFresh ix false]? = some (.inl ix)
  start : d.transformFresh 0 false = 0
  /-- Behind a character that is copied nothing that is inserted there is passed. -/
  behind : ∀ ix j, (flatten d.els)[j]? = some (.inl ix) → d.transformFresh (ix + 1) false = j + 1
  /-- Behind a character that is not copied all that is inserted is passed. -/
  gap : ∀ b e, .copy (b + 1) e ∈ d.els → ¬ d.Covers b →
    (flatten d.els)[d.transformFresh (b + 1) false]? = some (.inl (b + 1))

/-- **Transforming coordinates.** One transformer answers like fresh ones, later coordinates land
later, and the characters of a copy land where they are copied to, unless the answer goes in front
of text that is inserted before the first one. -/
theorem CopiesProper.transformsExactly {d : Delta α} (h : d.CopiesProper) :
    d.TransformsExactly where
  shared := (Transformer.caches_new d).answers
  mono := by
    intro ix ix' after hle
    exact Transformer.transformFresh_mono (hle.lt_or_eq.imp_right fun heq ↦ ⟨heq, le_rfl⟩)
  before_le_after := fun ix ↦ Transformer.transformFresh_mono (.inr ⟨rfl, Bool.false_le true⟩)
  copied := by
    intro b e ix hmem hb he
    obtain ⟨k, hk⟩ := List.getElem?_of_mem (mem_flatten_of_mem hmem hb he)
    rw [Transformer.transformFresh_eq, if_neg (by simp),
      Transformer.walkLen_true h.sorted h.nonempty hk]
    exact hk
  inside := by
    intro b e ix hmem hb he
    obtain ⟨k, hk⟩ := List.getElem?_of_mem (mem_flatten_of_mem hmem hb.le he)
    rw [Transformer.transformFresh_eq, if_neg (by omega),
      Transformer.walkLen_inside h.sorted hmem hb he,
      Transformer.walkLen_true h.sorted h.nonempty hk]
    exact hk
  start := by rw [Transformer.transformFresh_eq, if_pos ⟨rfl, rfl⟩]
  behind := by
    intro ix j hj
    rw [Transformer.transformFresh_eq, if_neg (by simp),
      Transformer.walkLen_false_of_prev h.sorted h.nonempty hj]
  gap := by
    intro b e hmem hgap
    obtain ⟨k, hk⟩ := List.getElem?_of_mem
      (mem_flatten_of_mem hmem le_rfl (h.nonempty _ _ hmem))
    have hnot : .inl b ∉ flatten d.els := by
      intro hin
      obtain ⟨b', e', hmem', hb', he'⟩ := mem_flatten_inl hin
      exact hgap ⟨_, hmem', hb', he'⟩
    rw [Transformer.transformFresh_eq, if_neg (by simp),
      Transformer.walkLen_false_of_gap h.sorted h.nonempty hk hnot]
    exact hk

theorem transformsExactly_replacing : replacing.TransformsExactly :=
  CopiesProper.transformsExactly (wellFormed_iff.mp (by decide)).1

/-- The first character of a copy, transformed not to land behind what is inserted before it. -/
theorem not_transformFresh_of_copied : ¬ ∀ d : Delta ℕ, d.CopiesProper → ∀ b e ix after,
    .copy b e ∈ d.els → b ≤ ix → ix < e →
      (flatten d.els)[d.transformFresh ix after]? = some (.inl ix) := by
  intro hall
  have h := hall ⟨[.insert [5], .copy 0 1], 1⟩ (wellFormed_iff.mp (by decide)).1 0 1 0 false
    (by simp) le_rfl Nat.one_pos
  exact absurd h (by decide)

end Delta

end EeEditor
