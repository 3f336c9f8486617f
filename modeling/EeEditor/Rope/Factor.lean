import EeEditor.Rope.InsertDelta

/-!
# Factored and shrunk deltas

What `InsertDelta::transform_shrink`, `Delta::factor` and `Subset::delete_from` compute. A shrunk
delta may have empty copies, so its specification is that of its application; a factored delta is
a script with the subset of the base that the delta does not copy.
-/

namespace EeEditor

variable {α : Type}

open Script

/-! ## Shrinking -/

namespace InsertDelta

theorem shrinkElements_spec {xs : List ℕ} {text : List α} (htext : text.length = zeros xs) :
    ∀ {els : List (DeltaElement α)} {p q : ℕ} {m : Mapper}, Chained p els q → q ≤ xs.length →
      m.Follows (rank (· == 0) xs) → m.lastI ≤ p →
      ∃ els', shrinkElements els m = some els' ∧
        (∀ b e, .copy b e ∈ els' → b ≤ e ∧ e ≤ zeros xs) ∧
        (flatten els').map (resolve text)
          = (fill (shrink (xs.drop p) (itemsOf els)) (text.drop (rank (· == 0) xs p))).map
            some := by
  intro els
  induction els with
  | nil => intro p q m _ _ _ _; exact ⟨[], rfl, by simp, by simp [shrink, fill]⟩
  | cons el els ih =>
    intro p q m h hq hm hlast
    cases el with
    | copy b e =>
      obtain ⟨rfl, hlt, h⟩ := h
      have heq := h.le
      obtain ⟨m₁, hq₁, hm₁, hl₁⟩ := Mapper.docIndexToSubset_spec hm hlast
      obtain ⟨m₂, hq₂, hm₂, hl₂⟩ := Mapper.docIndexToSubset_spec hm₁ (i := e) (by omega)
      obtain ⟨els', he, hb, hf⟩ := ih h hq hm₂ (by omega)
      -- the rank grows by the number of zeros in between
      have hrank : rank (· == 0) xs e = rank (· == 0) xs b + zeros ((xs.drop b).take (e - b)) := by
        have hadd := rank_add (· == 0) xs b (e - b)
        rw [Nat.add_sub_cancel' hlt.le] at hadd
        exact hadd
      have hle : rank (· == 0) xs e ≤ zeros xs := rank_le_countP _ _ _
      have hdrop : xs.drop b = (xs.drop b).take (e - b) ++ xs.drop e := by
        conv_lhs => rw [← List.take_append_drop (e - b) (xs.drop b)]
        rw [List.drop_drop, Nat.add_sub_cancel' hlt.le]
      have hlen : ((xs.drop b).take (e - b)).length = e - b := by
        rw [List.length_take, List.length_drop]
        omega
      have hshrink : shrink (xs.drop b) (List.replicate (e - b) none ++ itemsOf els)
          = List.replicate (rank (· == 0) xs e - rank (· == 0) xs b) none
            ++ shrink (xs.drop e) (itemsOf els) := by
        have := shrink_replicate_none_append (xs.drop e) (itemsOf els) ((xs.drop b).take (e - b))
        rw [hlen, ← hdrop] at this
        rw [this, hrank, Nat.add_sub_cancel_left]
      refine ⟨.copy (rank (· == 0) xs b) (rank (· == 0) xs e) :: els', ?_, ?_, ?_⟩
      · rw [shrinkElements, hq₁]
        simp only [Option.bind_eq_bind, Option.bind_some, hq₂, he]
        rfl
      · intro b' e' hmem
        rcases List.mem_cons.mp hmem with hmem | hmem
        · cases hmem
          omega
        · exact hb b' e' hmem
      · rw [flatten_cons, List.map_append, hf, itemsOf_cons, DeltaElement.items, DeltaElement.flat,
          List.map_map]
        rw [hshrink, fill_replicate_none_append, List.map_append, List.drop_drop]
        · congr 1
          · exact range'_map_getElem? text _ _ (by omega)
          · rw [Nat.add_sub_cancel' (by omega)]
        · rw [List.length_drop]
          omega
    | insert n =>
      obtain ⟨els', he, hb, hf⟩ := ih h.2 hq hm hlast
      refine ⟨.insert n :: els', ?_, ?_, ?_⟩
      · rw [shrinkElements, he]
        rfl
      · intro b' e' hmem
        rcases List.mem_cons.mp hmem with hmem | hmem
        · cases hmem
        · exact hb b' e' hmem
      · rw [flatten_cons, List.map_append, hf, itemsOf_cons, DeltaElement.items, DeltaElement.flat,
          shrink_map_some_append, fill_map_some_append, List.map_append, List.map_map]
        rfl

/-- Shrinking a delta to the text and applying it inserts its script into the text. -/
theorem Realizes.apply_transformShrink {d : InsertDelta α} {s : List (Option α)}
    (h : d.Realizes s) {xform : Subset} (hlen : d.delta.baseLen = xform.counts.length)
    {text : List α} (htext : text.length = zeros xform.counts) :
    ∃ d', d.transformShrink xform = some d' ∧
      d'.delta.apply text = some (fill (shrink xform.counts s) text) := by
  obtain ⟨els, he, hb, hf⟩ := shrinkElements_spec htext h.chained hlen.le
    (xform.follows_mapper .zero) (le_refl 0)
  refine ⟨⟨els, xform.lenAfterDelete⟩, by rw [transformShrink, he]; rfl, ?_⟩
  have hbase : text.length = (⟨els, xform.lenAfterDelete⟩ : Delta α).baseLen := by
    rw [htext, Subset.lenAfterDelete_eq]
  obtain ⟨l, hl, hmap⟩ := Delta.apply_of_bounds hbase
    (by rw [Subset.lenAfterDelete_eq]; exact hb)
  rw [hl]
  congr 1
  rw [hf, rank_zero, List.drop_zero, List.drop_zero, h.items] at hmap
  exact List.map_injective_iff.mpr (fun _ _ ↦ Option.some.inj) hmap

end InsertDelta

/-! ## Factoring -/

namespace Delta

/-- The script of the insertions of a flattened delta, from position `p` of its base on: elements
that are not copied are kept behind the insertions before them. -/
def factorItems (q : ℕ) : ℕ → List (ℕ ⊕ α) → List (Option α)
  | p, [] => List.replicate (q - p) none
  | p, .inl i :: l => List.replicate (i + 1 - p) none ++ factorItems q (i + 1) l
  | p, .inr a :: l => some a :: factorItems q p l

/-- The elements of the base from position `p` on that a flattened delta does not copy. -/
def factorDels (q : ℕ) : ℕ → List (ℕ ⊕ α) → List ℕ
  | p, [] => List.replicate (q - p) 1
  | p, .inl i :: l => List.replicate (i - p) 1 ++ 0 :: factorDels q (i + 1) l
  | p, .inr _ :: l => factorDels q p l

theorem factorItems_insert (q p : ℕ) (l : List (ℕ ⊕ α)) (n : List α) :
    factorItems q p (n.map .inr ++ l) = n.map some ++ factorItems q p l := by
  induction n with
  | nil => rfl
  | cons a n ih => rw [List.map_cons, List.cons_append, factorItems, ih]; rfl

theorem factorDels_insert (q p : ℕ) (l : List (ℕ ⊕ α)) (n : List α) :
    factorDels q p (n.map .inr ++ l) = factorDels q p l := by
  induction n with
  | nil => rfl
  | cons a n ih => rw [List.map_cons, List.cons_append, factorDels, ih]

theorem factorItems_copy (q : ℕ) (l : List (ℕ ⊕ α)) : ∀ (n p b : ℕ), p ≤ b → 0 < n →
    factorItems q p ((List.range' b n).map .inl ++ l)
      = List.replicate (b + n - p) none ++ factorItems q (b + n) l := by
  intro n
  induction n with
  | zero => intro p b _ h; exact absurd h (Nat.lt_irrefl 0)
  | succ n ih =>
    intro p b hp _
    rw [List.range'_succ, List.map_cons, List.cons_append, factorItems]
    rcases Nat.eq_zero_or_pos n with rfl | hn
    · rfl
    · rw [ih (b + 1) (b + 1) (le_refl _) hn, ← List.append_assoc, List.replicate_append_replicate]
      congr 2 <;> omega

theorem factorDels_copy (q : ℕ) (l : List (ℕ ⊕ α)) : ∀ (n p b : ℕ), p ≤ b → 0 < n →
    factorDels q p ((List.range' b n).map .inl ++ l)
      = List.replicate (b - p) 1 ++ (List.replicate n 0 ++ factorDels q (b + n) l) := by
  intro n
  induction n with
  | zero => intro p b _ h; exact absurd h (Nat.lt_irrefl 0)
  | succ n ih =>
    intro p b hp _
    rw [List.range'_succ, List.map_cons, List.cons_append, factorDels]
    rcases Nat.eq_zero_or_pos n with rfl | hn
    · rfl
    · rw [ih (b + 1) (b + 1) (le_refl _) hn, Nat.sub_self, List.replicate_zero, List.nil_append,
        List.replicate_succ, List.cons_append]
      congr 4
      omega

end Delta

namespace SubsetBuilder

/-- `add_range` behind everything covered so far. -/
theorem addRange_spec {sb : SubsetBuilder} {b e : ℕ} (hb : sb.counts.length ≤ b) (hbe : b ≤ e)
    (count : ℕ) : ∃ sb', sb.addRange b e count = some sb' ∧ sb'.counts.length ≤ e ∧
      sb'.counts ++ List.replicate (e - sb'.counts.length) 0
        = sb.counts ++ List.replicate (b - sb.counts.length) 0 ++ List.replicate (e - b) count := by
  rw [← totalLen_eq] at hb
  rw [addRange, if_pos hb]
  rcases hbe.eq_or_lt with rfl | hlt
  · rw [if_pos (le_refl b)]
    exact ⟨sb, rfl, by rwa [← totalLen_eq], by simp⟩
  · have hpos : 0 < e - b := Nat.sub_pos_of_lt hlt
    rw [if_neg (not_le.mpr hlt)]
    by_cases hgap : b > sb.totalLen
    · have hgap' : 0 < b - sb.totalLen := Nat.sub_pos_of_lt hgap
      rw [if_pos hgap, pushSegment_of_pos sb hgap']
      refine ⟨_, by simp only [Option.bind_eq_bind, Option.bind_some, pushSegment_of_pos _ hpos];
                    rfl, ?_, ?_⟩
      · simp only [counts_pushPos, List.length_append, List.length_replicate, ← totalLen_eq]
        omega
      · rw [counts_pushPos, counts_pushPos, totalLen_eq]
        have hz : e - ((sb.counts ++ List.replicate (b - sb.counts.length) 0)
            ++ List.replicate (e - b) count).length = 0 := by
          rw [totalLen_eq] at hgap
          simp only [List.length_append, List.length_replicate]
          omega
        rw [hz, List.replicate_zero, List.append_nil]
    · rw [if_neg hgap]
      have heq : sb.counts.length = b := by rw [← totalLen_eq]; omega
      refine ⟨_, by simp only [Option.bind_eq_bind, Option.bind_some, pushSegment_of_pos _ hpos];
                    rfl, ?_, ?_⟩
      · simp only [counts_pushPos, List.length_append, List.length_replicate, heq]
        omega
      · rw [counts_pushPos]
        have hz : e - (sb.counts ++ List.replicate (e - b) count).length = 0 := by
          simp only [List.length_append, List.length_replicate]
          omega
        rw [hz, heq]
        simp

end SubsetBuilder

namespace Delta

/-- The invariant of the loop of `factor`: what has been emitted, followed by the pending copy and
by what is to come, is the whole. -/
structure FactorInv (q : ℕ) (items : List (Option α)) (dels : List ℕ) (l : List (ℕ ⊕ α))
    (st : FactorState α) : Prop where
  chained : Chained 0 st.ins st.b1
  le : st.b1 ≤ st.e1
  covered : st.sb.counts.length ≤ st.e1
  items_eq : itemsOf st.ins ++ (List.replicate (st.e1 - st.b1) none ++ factorItems q st.e1 l)
    = items
  dels_eq : st.sb.counts ++ List.replicate (st.e1 - st.sb.counts.length) 0
    ++ factorDels q st.e1 l = dels

theorem factorStep_spec {q : ℕ} {items : List (Option α)} {dels : List ℕ} :
    ∀ (els : List (DeltaElement α)) (st : FactorState α),
      FactorInv q items dels (flatten els) st → Ascending st.e1 els q →
      ∃ st', els.foldlM factorStep st = some st' ∧ FactorInv q items dels [] st' ∧ st'.e1 ≤ q := by
  intro els
  induction els with
  | nil => intro st h hasc; exact ⟨st, rfl, h, hasc⟩
  | cons el els ih =>
    intro st h hasc
    have hitems := h.items_eq
    have hdels := h.dels_eq
    rw [flatten_cons] at hitems hdels
    cases el with
    | copy b e =>
      obtain ⟨hb, hbe, hasc⟩ := hasc
      obtain ⟨sb, hsb, hlen, hcounts⟩ := SubsetBuilder.addRange_spec h.covered hb 1
      have hpos : 0 < e - b := Nat.sub_pos_of_lt hbe
      rw [DeltaElement.flat, factorItems_copy q _ _ _ _ hb hpos,
        Nat.add_sub_cancel' hbe.le] at hitems
      rw [DeltaElement.flat, factorDels_copy q _ _ _ _ hb hpos,
        Nat.add_sub_cancel' hbe.le] at hdels
      have hinv : FactorInv q items dels (flatten els) { st with sb := sb, e1 := e } := by
        refine ⟨h.chained, (h.le.trans hb).trans hbe.le, hlen.trans hbe.le, ?_, ?_⟩
        · rw [← hitems, ← List.append_assoc (List.replicate _ none),
            List.replicate_append_replicate]
          have := h.le
          congr 3
          dsimp only
          omega
        · rw [← hdels, ← List.append_assoc _ (List.replicate _ 1), ← hcounts, ← List.append_assoc,
            List.append_assoc sb.counts _ (List.replicate (e - b) 0),
            List.replicate_append_replicate]
          congr 3
          dsimp only
          omega
      obtain ⟨st', hst', hinv', hq⟩ := ih _ hinv hasc
      refine ⟨st', ?_, hinv', hq⟩
      rw [List.foldlM_cons, factorStep, hsb]
      exact hst'
    | insert n =>
      obtain ⟨hch, hit⟩ := h.chained.close h.le
      rw [DeltaElement.flat, factorItems_insert] at hitems
      rw [DeltaElement.flat, factorDels_insert] at hdels
      have hinv : FactorInv q items dels (flatten els) { st with
          ins := (if st.e1 > st.b1 then st.ins ++ [.copy st.b1 st.e1] else st.ins) ++ [.insert n]
          b1 := st.e1 } := by
        refine ⟨hch.append_insert hasc.1, le_refl _, h.covered, ?_, hdels⟩
        rw [← hitems, itemsOf_append, hit]
        simp [DeltaElement.items]
      obtain ⟨st', hst', hinv', hq⟩ := ih _ hinv hasc.2
      exact ⟨st', by rw [List.foldlM_cons, factorStep]; exact hst', hinv', hq⟩

/-- **Factoring.** A well-formed delta factors into the script of its insertions and the subset
of its base that it does not copy. -/
theorem WellFormed.factor_eq {d : Delta α} (h : d.WellFormed) :
    ∃ ins, d.factor = some (ins, Subset.ofCounts (factorDels d.baseLen 0 (flatten d.els))) ∧
      ins.Realizes (factorItems d.baseLen 0 (flatten d.els)) ∧ ins.delta.baseLen = d.baseLen := by
  have hinit : FactorInv d.baseLen (factorItems d.baseLen 0 (flatten d.els))
      (factorDels d.baseLen 0 (flatten d.els)) (flatten d.els) ⟨[], SubsetBuilder.new, 0, 0⟩ :=
    ⟨rfl, le_refl 0, by simp, by simp, by simp⟩
  obtain ⟨st, hst, hinv, hq⟩ := factorStep_spec d.els _ hinit h
  obtain ⟨sb, hsb, hlen, hcounts⟩ := SubsetBuilder.addRange_spec hinv.covered hq 1
  obtain ⟨hch, hit⟩ := hinv.chained.close (hinv.le.trans hq)
  have hdels := hinv.dels_eq
  rw [factorDels, ← hcounts] at hdels
  have hbuild : (sb.padToLen d.baseLen).build
      = Subset.ofCounts (factorDels d.baseLen 0 (flatten d.els)) := by
    rw [SubsetBuilder.build_eq, SubsetBuilder.counts_padToLen, hdels]
  refine ⟨⟨if st.b1 < d.baseLen then st.ins ++ [.copy st.b1 d.baseLen] else st.ins, d.baseLen⟩,
    by simp only [factor, hst, hsb, Option.bind_eq_bind, Option.bind_some, hbuild]; rfl,
    ⟨hch, ?_⟩, rfl⟩
  have hitems := hinv.items_eq
  rw [factorItems, List.replicate_append_replicate] at hitems
  rw [← hitems]
  dsimp only
  rw [show st.e1 - st.b1 + (d.baseLen - st.e1) = d.baseLen - st.b1 by have := hinv.le; omega]
  exact hit

end Delta

/-! ## Deleting -/

namespace Subset

theorem deleteFrom_eq {s : Subset} {text : List α} (h : text.length = s.counts.length) :
    s.deleteFrom text = some (keepZero text s.counts) := by
  have key : ∀ (segs : List Segment) (c : ℕ) (acc : List α),
      c + (Run.expand segs).length ≤ text.length →
      (rangesFrom .zero c segs).foldlM (fun b range ↦ do
        let slice ← subseq text range.1 range.2
        return b ++ slice) acc = some (acc ++ keepZero (text.drop c) (Run.expand segs)) := by
    intro segs
    induction segs with
    | nil => intro c acc _; simp [rangesFrom]
    | cons seg segs ih =>
      intro c acc hc
      rw [Run.expand_cons, List.length_append, List.length_replicate] at hc
      have hlen : ((text.drop c).take seg.len).length = seg.len := by
        rw [List.length_take, List.length_drop]
        omega
      have hkeep : keepZero (text.drop c) (Run.expand (seg :: segs))
          = (if seg.val = 0 then (text.drop c).take seg.len else [])
            ++ keepZero (text.drop (c + seg.len)) (Run.expand segs) := by
        have := keepZero_replicate ((text.drop c).take seg.len) seg.val
        rw [hlen] at this
        rw [← this, Run.expand_cons, ← keepZero_append (by rw [hlen, List.length_replicate]),
          ← List.drop_drop, List.take_append_drop]
      rw [rangesFrom, hkeep]
      by_cases hz : seg.val = 0
      · rw [if_pos (by simp [CountMatcher.matches, Segment.count, hz]), if_pos hz,
          List.foldlM_cons, subseq_eq (by omega) (by omega), Nat.add_sub_cancel_left]
        exact (ih _ _ (by omega)).trans (by rw [List.append_assoc])
      · rw [if_neg (by simp [CountMatcher.matches, Segment.count, hz]), if_neg hz,
          List.nil_append]
        exact ih _ _ (by omega)
  have := key s.segments 0 [] (by simp [h, counts])
  simpa [deleteFrom, rangeIter, counts] using this

end Subset

end EeEditor
