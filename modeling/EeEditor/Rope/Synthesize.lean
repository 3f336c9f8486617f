import EeEditor.Rope.RangeScan

/-!
# Synthesized deltas

A delta is read through `Delta.flat`, the sequence of the elements of the new document, each either
the index of a copied element or an inserted one. `Delta.synthesize` then has a description by
recursion over the two deletion sets, `synthFlat`: go along the union string, emit what the new
deletions leave, as a copy when the old text has it and out of the tombstones when it has not.
-/

namespace EeEditor

variable {α : Type}

/-! ## Flattened deltas -/

/-- The elements of the new document that a section describes. -/
def DeltaElement.flat : DeltaElement α → List (ℕ ⊕ α)
  | .copy b e => (List.range' b (e - b)).map Sum.inl
  | .insert n => n.map Sum.inr

/-- The elements of the new document, copied indices and inserted elements. -/
def flatten (els : List (DeltaElement α)) : List (ℕ ⊕ α) := els.flatMap DeltaElement.flat

@[simp] theorem flatten_nil : flatten ([] : List (DeltaElement α)) = [] := rfl

@[simp] theorem flatten_cons (el : DeltaElement α) (els : List (DeltaElement α)) :
    flatten (el :: els) = el.flat ++ flatten els := by
  rw [flatten, flatten, List.flatMap_cons]

@[simp] theorem flatten_append (els els' : List (DeltaElement α)) :
    flatten (els ++ els') = flatten els ++ flatten els' := by
  rw [flatten, flatten, flatten, List.flatMap_append]

/-! ## Well-formed deltas -/

/-- The copied ranges are non-empty and in order, start at `p` or later and end by `q`, and no
inserted text is empty. -/
def Ascending : ℕ → List (DeltaElement α) → ℕ → Prop
  | p, [], q => p ≤ q
  | p, .copy b e :: els, q => p ≤ b ∧ b < e ∧ Ascending e els q
  | p, .insert n :: els, q => n ≠ [] ∧ Ascending p els q

instance decidableAscending : ∀ (p : ℕ) (els : List (DeltaElement α)) (q : ℕ),
    Decidable (Ascending p els q)
  | p, [], q => inferInstanceAs (Decidable (p ≤ q))
  | p, .copy b e :: els, q =>
    have := decidableAscending e els q
    inferInstanceAs (Decidable (p ≤ b ∧ b < e ∧ Ascending e els q))
  | p, .insert n :: els, q =>
    have := decidableAscending p els q
    match n with
    | [] => isFalse fun h ↦ h.1 rfl
    | a :: n => decidable_of_iff (Ascending p els q)
        ⟨fun h ↦ ⟨List.cons_ne_nil a n, h⟩, fun h ↦ h.2⟩

/-- A delta as `Builder` makes them: sorted non-empty copies within the base, and non-empty
insertions. -/
def Delta.WellFormed (d : Delta α) : Prop := Ascending 0 d.els d.baseLen

instance (d : Delta α) : Decidable d.WellFormed := decidableAscending 0 d.els d.baseLen

namespace Ascending

theorem le : ∀ {els : List (DeltaElement α)} {p q : ℕ}, Ascending p els q → p ≤ q := by
  intro els
  induction els with
  | nil => intro p q h; exact h
  | cons el els ih =>
    intro p q h
    cases el with
    | copy b e => exact (h.1.trans h.2.1.le).trans (ih h.2.2)
    | insert n => exact ih h.2

theorem mono : ∀ {els : List (DeltaElement α)} {p q q' : ℕ}, Ascending p els q → q ≤ q' →
    Ascending p els q' := by
  intro els
  induction els with
  | nil => intro p q q' h hq; exact le_trans h hq
  | cons el els ih =>
    intro p q q' h hq
    cases el with
    | copy b e => exact ⟨h.1, h.2.1, ih h.2.2 hq⟩
    | insert n => exact ⟨h.1, ih h.2 hq⟩

theorem mem_copy : ∀ {els : List (DeltaElement α)} {p q b e : ℕ}, Ascending p els q →
    .copy b e ∈ els → p ≤ b ∧ b < e ∧ e ≤ q := by
  intro els
  induction els with
  | nil => intro p q b e _ h; exact absurd h List.not_mem_nil
  | cons el els ih =>
    intro p q b e h hmem
    cases el with
    | copy b' e' =>
      rcases List.mem_cons.mp hmem with heq | hmem
      · cases heq
        exact ⟨h.1, h.2.1, h.2.2.le⟩
      · obtain ⟨h1, h2, h3⟩ := ih h.2.2 hmem
        exact ⟨(h.1.trans h.2.1.le).trans h1, h2, h3⟩
    | insert n =>
      rcases List.mem_cons.mp hmem with heq | hmem
      · cases heq
      · exact ih h.2 hmem

end Ascending

/-! ## Application -/

/-- Look up an element of the new document. -/
def resolve (base : List α) : ℕ ⊕ α → Option α
  | .inl i => base[i]?
  | .inr a => some a

theorem range'_map_getElem? (base : List α) :
    ∀ (b n : ℕ), b + n ≤ base.length →
      ((List.range' b n).map fun i ↦ base[i]?) = ((base.drop b).take n).map some := by
  intro b n
  induction n generalizing b with
  | zero => intro _; simp
  | succ n ih =>
    intro h
    have hb : b < base.length := by omega
    rw [List.range'_succ, List.map_cons, ih (b + 1) (by omega), List.drop_eq_getElem_cons hb,
      List.take_succ_cons, List.map_cons, List.getElem?_eq_getElem hb]

theorem subseq_eq {base : List α} {b e : ℕ} (h1 : b ≤ e) (h2 : e ≤ base.length) :
    subseq base b e = some ((base.drop b).take (e - b)) := if_pos ⟨h1, h2⟩

/-- A delta whose copies lie in the base can be applied, and the result is the flattened delta
with its copies looked up. -/
theorem Delta.apply_of_bounds {d : Delta α} {base : List α} (hlen : base.length = d.baseLen)
    (hb : ∀ b e, .copy b e ∈ d.els → b ≤ e ∧ e ≤ d.baseLen) :
    ∃ l, d.apply base = some l ∧ l.map some = (flatten d.els).map (resolve base) := by
  rw [apply, if_pos hlen]
  have key : ∀ (els : List (DeltaElement α)) (acc : List α),
      (∀ b e, .copy b e ∈ els → b ≤ e ∧ e ≤ d.baseLen) →
      ∃ l, els.foldlM (fun b elem ↦ match elem with
          | .copy beg end_ => do
            let slice ← subseq base beg end_
            return b ++ slice
          | .insert n => some (b ++ n)) acc = some l ∧
        l.map some = acc.map some ++ (flatten els).map (resolve base) := by
    intro els
    induction els with
    | nil => intro acc _; exact ⟨acc, rfl, by simp⟩
    | cons el els ih =>
      intro acc hb
      have hb' : ∀ b e, .copy b e ∈ els → b ≤ e ∧ e ≤ d.baseLen := fun b e h ↦ hb b e (by simp [h])
      cases el with
      | copy b e =>
        obtain ⟨h1, h2⟩ := hb b e (by simp)
        obtain ⟨l, hl, hmap⟩ := ih (acc ++ (base.drop b).take (e - b)) hb'
        refine ⟨l, ?_, ?_⟩
        · rw [List.foldlM_cons]
          simp only [subseq_eq h1 (hlen ▸ h2)]
          exact hl
        · rw [hmap, flatten_cons, DeltaElement.flat, List.map_append, List.map_append,
            ← range'_map_getElem? base b (e - b) (by omega), List.map_map, List.append_assoc]
          rfl
      | insert n =>
        obtain ⟨l, hl, hmap⟩ := ih (acc ++ n) hb'
        refine ⟨l, by rw [List.foldlM_cons]; exact hl, ?_⟩
        rw [hmap, flatten_cons, DeltaElement.flat, List.map_append, List.map_append, List.map_map,
          List.append_assoc]
        rfl
  obtain ⟨l, hl, hmap⟩ := key d.els [] hb
  exact ⟨l, hl, by simpa using hmap⟩

/-! ## The description -/

/-- The elements of the text without `ts`, relative to the text without `fs`: `r` counts the
elements of the old text passed, `tb` are the tombstones not passed yet. -/
@[grind =] def synthFlat : List ℕ → List ℕ → ℕ → List α → List (ℕ ⊕ α)
  | 0 :: fs, 0 :: ts, r, tb => .inl r :: synthFlat fs ts (r + 1) tb
  | 0 :: fs, (_ + 1) :: ts, r, tb => synthFlat fs ts (r + 1) tb
  | (_ + 1) :: fs, 0 :: ts, r, a :: tb => .inr a :: synthFlat fs ts r tb
  | (_ + 1) :: fs, (_ + 1) :: ts, r, _ :: tb => synthFlat fs ts r tb
  | _, _, _, _ => []

theorem synthFlat_append (f₂ t₂ : List ℕ) : ∀ (f₁ t₁ : List ℕ) (r : ℕ) (tb : List α),
    f₁.length = t₁.length → nonzeros f₁ ≤ tb.length →
    synthFlat (f₁ ++ f₂) (t₁ ++ t₂) r tb
      = synthFlat f₁ t₁ r tb ++ synthFlat f₂ t₂ (r + zeros f₁) (tb.drop (nonzeros f₁)) := by
  intro f₁
  induction f₁ with
  | nil =>
    intro t₁ r tb hlen _
    rw [List.length_nil, eq_comm, List.length_eq_zero_iff] at hlen
    simp [hlen, synthFlat]
  | cons f f₁ ih =>
    intro t₁ r tb hlen hnz
    cases t₁ with
    | nil => simp at hlen
    | cons t t₁ =>
      have hlen' : f₁.length = t₁.length := by simpa using hlen
      cases f with
      | zero =>
        have hnz' : nonzeros f₁ ≤ tb.length := by simpa using hnz
        have hr : r + (zeros f₁ + 1) = r + 1 + zeros f₁ := by omega
        cases t <;> simp [synthFlat, ih t₁ (r + 1) tb hlen' hnz', hr]
      | succ f =>
        cases tb with
        | nil => simp at hnz
        | cons a tb =>
          have hnz' : nonzeros f₁ ≤ tb.length := by simpa using hnz
          cases t <;> simp [synthFlat, ih t₁ r tb hlen' hnz']

theorem synthFlat_zero_zero (n r : ℕ) (tb : List α) :
    synthFlat (List.replicate n 0) (List.replicate n 0) r tb
      = (List.range' r n).map Sum.inl := by
  induction n generalizing r with
  | zero => rfl
  | succ n ih => rw [List.replicate_succ, synthFlat, ih, List.range'_succ, List.map_cons]

theorem synthFlat_pos_zero : ∀ (f : List ℕ) (r : ℕ) (tb : List α), (∀ c ∈ f, c ≠ 0) →
    f.length ≤ tb.length →
    synthFlat f (List.replicate f.length 0) r tb = (tb.take f.length).map Sum.inr := by
  intro f
  induction f with
  | nil => intro r tb _ _; simp [synthFlat]
  | cons c f ih =>
    intro r tb hne hlen
    cases tb with
    | nil => simp at hlen
    | cons a tb =>
      obtain ⟨c, rfl⟩ := Nat.exists_eq_succ_of_ne_zero (hne c (by simp))
      rw [List.length_cons, List.replicate_succ, synthFlat,
        ih r tb (fun d hd ↦ hne d (by simp [hd])) (by simpa using hlen)]
      simp

theorem synthFlat_pos : ∀ (f t : List ℕ) (r : ℕ) (tb : List α), (∀ c ∈ t, c ≠ 0) →
    synthFlat f t r tb = [] := by
  intro f
  induction f with
  | nil => intro t r tb _; simp [synthFlat]
  | cons c f ih =>
    intro t r tb hne
    cases t with
    | nil => cases c <;> simp [synthFlat]
    | cons d t =>
      obtain ⟨d, rfl⟩ := Nat.exists_eq_succ_of_ne_zero (hne d (by simp))
      have hne' : ∀ c ∈ t, c ≠ 0 := fun c hc ↦ hne c (by simp [hc])
      cases c with
      | zero => rw [synthFlat, ih t _ _ hne']
      | succ c =>
        cases tb with
        | nil => simp [synthFlat]
        | cons a tb => rw [synthFlat, ih t _ _ hne']

/-! ## The loop -/

namespace Delta

section

variable (f : List ℕ) (tombstones : List α)

/-- What the union positions `b..e` contribute when the new text has them all. -/
@[grind =] def outOf (b e : ℕ) : List (ℕ ⊕ α) :=
  synthFlat ((f.drop b).take (e - b)) (List.replicate (e - b) 0) (rank (· == 0) f b)
    (tombstones.drop (rank (· != 0) f b))

/-- The loop state has passed no more than the first `c` positions of the union string. -/
structure SynthInv (c : ℕ) (st : SynthState α) : Prop where
  old : RankInv (rank (· == 0) f) c st.x st.oldRanges
  mapper : st.m.Follows (rank (· != 0) f)
  last : st.m.lastI ≤ c

end

variable {f : List ℕ} {tombstones : List α}

theorem rank_zero_add_nonZero (f : List ℕ) (i : ℕ) (h : i ≤ f.length) :
    rank (· == 0) f i + rank (· != 0) f i = i := by
  have hlen : (f.take i).length = i := by simp; omega
  rw [← hlen]
  exact (congrArg₂ (· + ·) (by rw [hlen]; rfl) (by rw [hlen]; rfl)).trans
    (zeros_add_nonzeros (f.take i))

theorem SynthInv.mono {c c' : ℕ} {st : SynthState α} (h : SynthInv f c st) (hc : c ≤ c') :
    SynthInv f c' st := ⟨h.old.mono hc, h.mapper, h.last.trans hc⟩

theorem outOf_append (hT : tombstones.length = nonzeros f) {b m e : ℕ} (h1 : b ≤ m) (h2 : m ≤ e)
    (h3 : e ≤ f.length) :
    outOf f tombstones b e = outOf f tombstones b m ++ outOf f tombstones m e := by
  have hsplit : (f.drop b).take (e - b) = (f.drop b).take (m - b) ++ (f.drop m).take (e - m) := by
    have : e - b = (m - b) + (e - m) := by omega
    rw [this, List.take_add, List.drop_drop, show b + (m - b) = m by omega]
  have hrep : List.replicate (e - b) 0 = List.replicate (m - b) 0 ++ List.replicate (e - m) 0 := by
    rw [List.replicate_append_replicate]
    congr 1
    omega
  have hz : rank (· == 0) f m = rank (· == 0) f b + zeros ((f.drop b).take (m - b)) := by
    have := rank_add (· == 0) f b (m - b)
    rw [show b + (m - b) = m by omega] at this
    exact this
  have hn : rank (· != 0) f m = rank (· != 0) f b + nonzeros ((f.drop b).take (m - b)) := by
    have := rank_add (· != 0) f b (m - b)
    rw [show b + (m - b) = m by omega] at this
    exact this
  have hle : rank (· != 0) f m ≤ nonzeros f := rank_le_countP _ f m
  rw [outOf, hsplit, hrep, synthFlat_append _ _ _ _ _ _ (by simp; omega)
    (by rw [List.length_drop]; omega), List.drop_drop, ← hz, ← hn]
  rfl

/-- A stretch the old text has: the ranks grow with the position, so it is one copy. -/
theorem outOf_old {b e : ℕ} (h1 : b ≤ e) (h2 : e ≤ f.length)
    (hr : rank (· == 0) f e = rank (· == 0) f b + (e - b)) :
    outOf f tombstones b e
      = (List.range' (rank (· == 0) f b) (e - b)).map Sum.inl := by
  have hlen : ((f.drop b).take (e - b)).length = e - b := by simp; omega
  have hall := all_of_rank_add (p := (· == 0)) (l := f) (i := b) (n := e - b) (by omega)
    (by rw [show b + (e - b) = e by omega]; exact hr)
  have hrep : (f.drop b).take (e - b) = List.replicate (e - b) 0 :=
    List.eq_replicate_iff.mpr ⟨hlen, fun a ha ↦ by simpa using hall a ha⟩
  rw [outOf, hrep, synthFlat_zero_zero]

/-- A stretch the old text lacks: it is inserted from the tombstones. -/
theorem outOf_deleted (hT : tombstones.length = nonzeros f) {b e : ℕ} (h1 : b ≤ e)
    (h2 : e ≤ f.length) (hr : rank (· == 0) f e = rank (· == 0) f b) :
    rank (· != 0) f e = rank (· != 0) f b + (e - b) ∧
      outOf f tombstones b e
        = ((tombstones.drop (rank (· != 0) f b)).take (e - b)).map Sum.inr := by
  have hlen : ((f.drop b).take (e - b)).length = e - b := by simp; omega
  have hnone := none_of_rank_eq (p := (· == 0)) (l := f) (i := b) (n := e - b)
    (by rw [show b + (e - b) = e by omega]; exact hr)
  have hb := rank_zero_add_nonZero f b (by omega)
  have he := rank_zero_add_nonZero f e h2
  have hrank : rank (· != 0) f e = rank (· != 0) f b + (e - b) := by omega
  refine ⟨hrank, ?_⟩
  have hle : rank (· != 0) f e ≤ nonzeros f := rank_le_countP _ f e
  have hne : ∀ c ∈ (f.drop b).take (e - b), c ≠ 0 := fun c hc ↦ by simpa using hnone c hc
  have hp := synthFlat_pos_zero ((f.drop b).take (e - b)) (rank (· == 0) f b)
    (tombstones.drop (rank (· != 0) f b)) hne
    (by rw [hlen, List.length_drop]; omega)
  rw [hlen] at hp
  exact hp

theorem skipOld_spec {R : ℕ → ℕ} {beg : ℕ} (ranges : List (ℕ × ℕ)) :
    ∀ x, RankInv R beg x ranges →
      RankInv R beg (skipOld beg x ranges).1 (skipOld beg x ranges).2 ∧
        ∀ r ∈ (skipOld beg x ranges).2.head?, beg < r.2 := by
  induction ranges with
  | nil => intro x h; exact ⟨h, by simp [skipOld]⟩
  | cons r ranges ih =>
    intro x h
    obtain ⟨ib, ie⟩ := r
    rw [skipOld]
    split
    · next hgt => exact ⟨h, by simpa using hgt⟩
    · next hle => exact ih _ (h.skip (le_refl beg) (not_lt.mp hle))

theorem flatten_pushCopy {b e : ℕ} (h : b ≤ e) : ∀ els : List (DeltaElement α),
    (∀ x y, .copy x y ∈ els → x ≤ y) →
    flatten (pushCopy b e els) = flatten els ++ (List.range' b (e - b)).map Sum.inl := by
  intro els
  induction els using pushCopy.induct b with
  | case1 => intro _; simp [pushCopy, DeltaElement.flat]
  | case2 x =>
    intro hle
    have hx : x ≤ b := hle x b (by simp)
    rw [pushCopy, if_pos rfl]
    simp only [flatten_cons, flatten_nil, List.append_nil, DeltaElement.flat]
    rw [← List.map_append]
    congr 1
    rw [show e - x = (b - x) + (e - b) by omega, ← List.range'_append_1,
      show x + (b - x) = b by omega]
  | case3 x y hy =>
    intro _
    rw [pushCopy, if_neg hy]
    simp [DeltaElement.flat]
  | case4 el els hne ih =>
    intro hle
    rw [pushCopy]
    · rw [flatten_cons, flatten_cons, ih fun x y hxy ↦ hle x y (by simp [hxy]), List.append_assoc]
    · exact hne

end Delta

theorem Ascending.pushCopy {q b e : ℕ} (hqb : q ≤ b) (hbe : b < e) :
    ∀ {els : List (DeltaElement α)} {p : ℕ}, Ascending p els q →
      Ascending p (Delta.pushCopy b e els) e := by
  intro els
  induction els using Delta.pushCopy.induct b with
  | case1 => intro p h; exact ⟨le_trans h hqb, hbe, le_refl e⟩
  | case2 x =>
    intro p h
    rw [Delta.pushCopy, if_pos rfl]
    exact ⟨h.1, h.2.1.trans hbe, le_refl e⟩
  | case3 x y hy =>
    intro p h
    rw [Delta.pushCopy, if_neg hy]
    exact ⟨h.1, h.2.1, le_trans h.2.2 hqb, hbe, le_refl e⟩
  | case4 el els hne ih =>
    intro p h
    rw [Delta.pushCopy]
    · cases el with
      | copy x y => exact ⟨h.1, h.2.1, ih h.2.2⟩
      | insert n => exact ⟨h.1, ih h.2⟩
    · exact hne

theorem Ascending.append_insert {n : List α} (hn : n ≠ []) : ∀ {els : List (DeltaElement α)}
    {p q : ℕ}, Ascending p els q → Ascending p (els ++ [.insert n]) q := by
  intro els
  induction els with
  | nil => intro p q h; exact ⟨hn, h⟩
  | cons el els ih =>
    intro p q h
    cases el with
    | copy x y => exact ⟨h.1, h.2.1, ih h.2.2⟩
    | insert n => exact ⟨h.1, ih h.2⟩

namespace Delta

variable {f : List ℕ} {tombstones : List α}

/-- One turn of the loop emits what some positions `beg..end_` of the union string contribute. -/
theorem synthStep_spec (hT : tombstones.length = nonzeros f) {e beg : ℕ} {st : SynthState α}
    (h : SynthInv f beg st) (hb : beg < e) (he : e ≤ f.length)
    (hasc : Ascending 0 st.els (rank (· == 0) f beg)) :
    ∃ end_ st', synthStep tombstones e beg st = some (end_, st') ∧ beg < end_ ∧ end_ ≤ e ∧
      SynthInv f end_ st' ∧ Ascending 0 st'.els (rank (· == 0) f end_) ∧
      flatten st'.els = flatten st.els ++ outOf f tombstones beg end_ := by
  obtain ⟨hinv, hhead⟩ := skipOld_spec st.oldRanges st.x h.old
  rw [synthStep]
  generalize skipOld beg st.x st.oldRanges = sk at hinv hhead ⊢
  obtain ⟨x, oldRanges⟩ := sk
  dsimp only at hinv hhead ⊢
  -- the turn that inserts `beg..end_` from the tombstones
  have hins : ∀ end_, beg < end_ → end_ ≤ e → rank (· == 0) f end_ = rank (· == 0) f beg →
      ∃ st', ((st.m.docIndexToSubset beg).bind fun i ↦ (i.2.docIndexToSubset end_).bind fun j ↦
        (subseq tombstones i.1 j.1).bind fun n ↦
          some (end_, (⟨x, oldRanges, j.2, st.els ++ [.insert n]⟩ : SynthState α)))
          = some (end_, st') ∧
        SynthInv f end_ st' ∧ Ascending 0 st'.els (rank (· == 0) f end_) ∧
        flatten st'.els = flatten st.els ++ outOf f tombstones beg end_ := by
    intro end_ hlt hle hr
    obtain ⟨hrank, hout⟩ := outOf_deleted hT hlt.le (hle.trans he) hr
    obtain ⟨m₁, hm₁, hf₁, hl₁⟩ := Mapper.docIndexToSubset_spec h.mapper h.last
    obtain ⟨m₂, hm₂, hf₂, hl₂⟩ := Mapper.docIndexToSubset_spec hf₁ (hl₁ ▸ hlt.le)
    have hbound : rank (· != 0) f end_ ≤ nonzeros f := rank_le_countP _ f end_
    have hsub : subseq tombstones (rank (· != 0) f beg) (rank (· != 0) f end_) = _ :=
      subseq_eq (by omega) (by omega)
    refine ⟨⟨x, oldRanges, m₂, st.els ++ [.insert ((tombstones.drop (rank (· != 0) f beg)).take
      (rank (· != 0) f end_ - rank (· != 0) f beg))]⟩, ?_, ?_, ?_, ?_⟩
    · simp only [hm₁, hm₂, hsub, Option.bind_some]
    · exact ⟨hinv.mono hlt.le, hf₂, hl₂.le⟩
    · rw [hr]
      refine hasc.append_insert fun hnil ↦ ?_
      have hlen := congrArg List.length hnil
      simp at hlen
      omega
    · rw [hout, flatten_append, flatten_cons, DeltaElement.flat,
        show rank (· != 0) f end_ - rank (· != 0) f beg = end_ - beg by omega]
      simp
  cases oldRanges with
  | nil =>
    obtain ⟨st', hst, h1, h2, h3⟩ := hins e hb (le_refl e)
      (by rw [hinv.eq_nil hb.le, hinv.eq_nil (le_refl beg)])
    exact ⟨e, st', hst, hb, le_refl e, h1, h2, h3⟩
  | cons r oldRanges =>
    obtain ⟨ib, ie⟩ := r
    have hie : beg < ie := hhead (ib, ie) (by simp)
    dsimp only
    split
    · next hib =>
      -- the old text has `beg`: copy up to the end of its range
      have hend : beg < min e ie := lt_min hb hie
      have hrb : rank (· == 0) f beg = beg + x - ib := by
        rw [hinv.eq_inside (le_refl beg) hib hie.le]; dsimp only; omega
      have hre : rank (· == 0) f (min e ie) = min e ie + x - ib := by
        rw [hinv.eq_inside hend.le (by dsimp only; omega) (min_le_right _ _)]; dsimp only; omega
      have hmin : min e ie ≤ e := min_le_left _ _
      have hout : outOf f tombstones beg (min e ie) = _ :=
        outOf_old hend.le (hmin.trans he) (by omega)
      refine ⟨min e ie, _, rfl, hend, hmin, ⟨hinv.mono hend.le, h.mapper, h.last.trans hend.le⟩,
        ?_, ?_⟩
      · rw [← hrb, ← hre]
        exact hasc.pushCopy (le_refl _) (by omega)
      · rw [flatten_pushCopy (by omega), hout, ← hrb]
        · congr 3; omega
        · intro x' y' hxy
          exact (hasc.mem_copy hxy).2.1.le
    · next hib =>
      -- the old text continues at `ib`: insert what lies before it
      have hend : beg < min e ib := lt_min hb (not_le.mp hib)
      obtain ⟨st', hst, h1, h2, h3⟩ := hins (min e ib) hend (min_le_left _ _)
        (by rw [hinv.eq_before hend.le (min_le_right _ _),
          hinv.eq_before (le_refl beg) (not_le.mp hib).le])
      exact ⟨min e ib, st', hst, hend, min_le_left _ _, h1, h2, h3⟩

theorem synthFill_spec (hT : tombstones.length = nonzeros f) {e : ℕ} (he : e ≤ f.length) :
    ∀ (n beg : ℕ) (st : SynthState α), e - beg ≤ n → beg ≤ e → SynthInv f beg st →
      Ascending 0 st.els (rank (· == 0) f beg) →
      ∃ st', synthFill tombstones e n beg st = some st' ∧ SynthInv f e st' ∧
        Ascending 0 st'.els (rank (· == 0) f e) ∧
        flatten st'.els = flatten st.els ++ outOf f tombstones beg e := by
  intro n
  induction n with
  | zero =>
    intro beg st hn hbe h hasc
    have hb : beg = e := by omega
    subst hb
    exact ⟨st, by rw [synthFill, if_neg (lt_irrefl beg)], h, hasc, by simp [outOf, synthFlat]⟩
  | succ n ih =>
    intro beg st hn hbe h hasc
    rw [synthFill]
    rcases lt_or_eq_of_le hbe with hb | rfl
    · obtain ⟨end_, st₁, hst₁, hlt, hle, h₁, hasc₁, hflat₁⟩ := synthStep_spec hT h hb he hasc
      obtain ⟨st', hst', h', hasc', hflat'⟩ := ih end_ st₁ (by omega) hle h₁ hasc₁
      refine ⟨st', ?_, h', hasc', ?_⟩
      · rw [if_pos hb, hst₁]
        exact hst'
      · rw [hflat', hflat₁, outOf_append hT hlt.le hle he, List.append_assoc]
    · exact ⟨st, by rw [if_neg (lt_irrefl beg)], h, hasc, by simp [outOf, synthFlat]⟩

/-- The loop over the ranges the new deletions leave, from position `c` of the union string. -/
theorem synthRanges_spec (hT : tombstones.length = nonzeros f) (segs : List Segment)
    (hpos : ∀ seg ∈ segs, 0 < seg.len) : ∀ (c : ℕ) (st : SynthState α),
      c + (Run.expand segs).length = f.length → SynthInv f c st →
      Ascending 0 st.els (rank (· == 0) f c) →
      ∃ st', (Subset.rangesFrom .zero c segs).foldlM
          (fun st range ↦ synthFill tombstones range.2 (range.2 - range.1) range.1 st) st
            = some st' ∧
        Ascending 0 st'.els (rank (· == 0) f f.length) ∧
        flatten st'.els = flatten st.els ++ synthFlat (f.drop c) (Run.expand segs)
          (rank (· == 0) f c) (tombstones.drop (rank (· != 0) f c)) := by
  induction segs with
  | nil =>
    intro c st hc h hasc
    have hc' : c = f.length := by simpa using hc
    exact ⟨st, rfl, hc' ▸ hasc, by simp [hc', synthFlat]⟩
  | cons seg segs ih =>
    intro c st hc h hasc
    have hseg : 0 < seg.len := hpos seg (by simp)
    have hpos' : ∀ s ∈ segs, 0 < s.len := fun s hs ↦ hpos s (by simp [hs])
    rw [Run.expand_cons, List.length_append, List.length_replicate] at hc
    have hlen : ((f.drop c).take seg.len).length = seg.len := by simp; omega
    have hz : rank (· == 0) f (c + seg.len)
        = rank (· == 0) f c + zeros ((f.drop c).take seg.len) := rank_add _ f c seg.len
    have hn : rank (· != 0) f (c + seg.len)
        = rank (· != 0) f c + nonzeros ((f.drop c).take seg.len) := rank_add _ f c seg.len
    have hle : rank (· != 0) f (c + seg.len) ≤ nonzeros f := rank_le_countP _ f _
    have hsplit : synthFlat (f.drop c) (Run.expand (seg :: segs)) (rank (· == 0) f c)
          (tombstones.drop (rank (· != 0) f c))
        = synthFlat ((f.drop c).take seg.len) (List.replicate seg.len seg.val)
            (rank (· == 0) f c) (tombstones.drop (rank (· != 0) f c))
          ++ synthFlat (f.drop (c + seg.len)) (Run.expand segs) (rank (· == 0) f (c + seg.len))
            (tombstones.drop (rank (· != 0) f (c + seg.len))) := by
      conv_lhs => rw [← List.take_append_drop seg.len (f.drop c)]
      rw [Run.expand_cons, synthFlat_append _ _ _ _ _ _ (by simp; omega)
        (by rw [List.length_drop]; omega), List.drop_drop, List.drop_drop, ← hz, ← hn]
    rw [Subset.rangesFrom, hsplit]
    cases hv : seg.val with
    | zero =>
      rw [if_pos (by simp [CountMatcher.matches, Segment.count, hv]), List.foldlM_cons]
      obtain ⟨st₁, hst₁, h₁, hasc₁, hflat₁⟩ := synthFill_spec hT (e := c + seg.len) (by omega)
        (c + seg.len - c) c st (le_refl _) (by omega) h hasc
      obtain ⟨st', hst', hasc', hflat'⟩ := ih hpos' (c + seg.len) st₁ (by omega) h₁ hasc₁
      refine ⟨st', ?_, hasc', ?_⟩
      · rw [hst₁]
        exact hst'
      · rw [hflat', hflat₁, outOf, show c + seg.len - c = seg.len by omega, List.append_assoc]
    | succ v =>
      rw [if_neg (by simp [CountMatcher.matches, Segment.count, hv])]
      have hmono : rank (· == 0) f c ≤ rank (· == 0) f (c + seg.len) := by omega
      obtain ⟨st', hst', hasc', hflat'⟩ := ih hpos' (c + seg.len) st (by omega)
        (h.mono (by omega)) (hasc.mono hmono)
      refine ⟨st', hst', hasc', ?_⟩
      rw [hflat', synthFlat_pos _ (List.replicate seg.len (v + 1)) _ _
        (fun d hd ↦ by rw [(List.mem_replicate.mp hd).2]; omega), List.nil_append]

/-- **Synthesis.** The synthesized delta is well formed and has the described elements. -/
theorem synthesize_spec {old new : Subset} (hT : tombstones.length = nonzeros old.counts)
    (hlen : new.counts.length = old.counts.length) :
    ∃ d, synthesize tombstones old new = some d ∧ d.baseLen = zeros old.counts ∧
      d.WellFormed ∧ flatten d.els = synthFlat old.counts new.counts 0 tombstones := by
  have hinv : SynthInv old.counts 0
      (⟨0, old.complementIter, old.mapper .nonZero, []⟩ : SynthState α) :=
    ⟨old.rankInv_rangeIter .zero, old.follows_mapper .nonZero, le_refl 0⟩
  obtain ⟨st, hst, hasc, hflat⟩ := synthRanges_spec hT new.segments new.canonical.pos 0
    ⟨0, old.complementIter, old.mapper .nonZero, []⟩
    (by rw [Nat.zero_add]; exact hlen) hinv (Nat.zero_le _)
  refine ⟨⟨st.els, old.lenAfterDelete⟩, ?_, Subset.lenAfterDelete_eq _, ?_, ?_⟩
  · have hranges : new.complementIter = Subset.rangesFrom .zero 0 new.segments := rfl
    rw [synthesize, hranges, hst]
    rfl
  · have hz : rank (· == 0) old.counts old.counts.length = zeros old.counts :=
      rank_of_length_le (le_refl _)
    rw [hz] at hasc
    rw [WellFormed, Subset.lenAfterDelete_eq]
    exact hasc
  · rw [hflat]
    simp [Subset.counts]

end Delta

end EeEditor
