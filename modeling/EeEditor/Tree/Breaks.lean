import EeEditor.Tree.Boundaries

/-!
# Breaks

The model of `xi-rope/src/breaks.rs`: a tree whose leaves hold positions, counted from the beginning
of the leaf. `push_maybe_split` takes the positions after the beginning of a slice up to its end, so
that those of a leaf increase and none is at its beginning.
-/

namespace EeEditor.BTree

structure BreaksLeaf where
  len : ℕ
  data : List ℕ
  sorted : data.Pairwise (· < ·)
  pos : ∀ v ∈ data, 0 < v
  le : ∀ v ∈ data, v ≤ len

namespace BreaksLeaf

/-- Two leaves in one: the positions of the second count from the end of the first. -/
def append (a b : BreaksLeaf) : BreaksLeaf where
  len := a.len + b.len
  data := a.data ++ b.data.map (a.len + ·)
  sorted := by
    refine List.pairwise_append.mpr ⟨a.sorted, List.pairwise_map.mpr ?_, ?_⟩
    · exact b.sorted.imp fun h ↦ Nat.add_lt_add_left h _
    · intro v hv w hw
      obtain ⟨u, hu, rfl⟩ := List.mem_map.mp hw
      have := a.le v hv
      have := b.pos u hu
      omega
  pos := by
    intro v hv
    rcases List.mem_append.mp hv with hv | hv
    · exact a.pos v hv
    · obtain ⟨w, hw, rfl⟩ := List.mem_map.mp hv
      have := b.pos w hw
      omega
  le := by
    intro v hv
    rcases List.mem_append.mp hv with hv | hv
    · exact (a.le v hv).trans (Nat.le_add_right _ _)
    · obtain ⟨w, hw, rfl⟩ := List.mem_map.mp hv
      exact Nat.add_le_add_left (b.le w hw) _

end BreaksLeaf

instance : Leaf BreaksLeaf where
  len := BreaksLeaf.len
  empty := ⟨0, [], .nil, by simp, by simp⟩
  append := BreaksLeaf.append
  len_empty := rfl
  len_append _ _ := rfl

/-- `binary_search`: the position of an element, or else where it would be inserted. -/
def binarySearch (data : List ℕ) (x : ℕ) : Except ℕ ℕ :=
  if x ∈ data then .ok (data.countP (· < x)) else .error (data.countP (· < x))

/-- The positions up to an offset. -/
def breaksUpTo (data : List ℕ) (offset : ℕ) : ℕ :=
  match binarySearch data offset with
  | .ok n => n + 1
  | .error n => n

/-- The loop of `prev` up to the first position that is not before the offset. -/
def prevBreak (offset : ℕ) : Option ℕ → List ℕ → Option ℕ
  | last, [] => last
  | last, v :: data => if offset ≤ v then last else prevBreak offset (some v) data

def breaksMetric : Metric BreaksLeaf where
  measure l := l.data.length
  toBaseUnits l inMeasuredUnits :=
    if l.data.length < inMeasuredUnits then some (l.len + 1)
    else if inMeasuredUnits = 0 then some 0
    else l.data[inMeasuredUnits - 1]?
  fromBaseUnits l inBaseUnits := some (breaksUpTo l.data inBaseUnits)
  isBoundary l offset := (binarySearch l.data offset).isOk
  prev l offset := prevBreak offset none l.data
  next l offset := l.data[breaksUpTo l.data offset]?
  canFragment := true

/-! ## The metric is lawful -/

variable {data : List ℕ} {x : ℕ} {l : BreaksLeaf}

theorem breaksMetric_isBoundary : breaksMetric.isBoundary l x = true ↔ x ∈ l.data := by
  change (binarySearch l.data x).isOk = true ↔ _
  rw [binarySearch]
  split
  · rename_i h
    exact iff_of_true rfl h
  · rename_i h
    exact iff_of_false Bool.false_ne_true h

theorem breaksUpTo_eq (hsorted : data.Pairwise (· < ·)) :
    breaksUpTo data x = data.countP (· ≤ x) := by
  have hrest : ∀ data : List ℕ, x ∉ data → data.countP (· < x) = data.countP (· ≤ x) := by
    intro data hx
    refine List.countP_congr fun v hv ↦ ?_
    have hne : v ≠ x := fun h ↦ hx (h ▸ hv)
    simp only [decide_eq_true_iff]
    omega
  rw [breaksUpTo, binarySearch]
  split
  · rename_i n hn
    split at hn
    · rename_i hx
      obtain rfl := Except.ok.inj hn
      obtain ⟨as, bs, rfl⟩ := List.append_of_mem hx
      obtain ⟨-, hbs, has⟩ := List.pairwise_append.mp hsorted
      have has' : x ∉ as := fun h ↦ absurd (has x h x List.mem_cons_self) (Nat.lt_irrefl x)
      have hbs' : x ∉ bs := fun h ↦
        absurd ((List.pairwise_cons.mp hbs).1 x h) (Nat.lt_irrefl x)
      rw [List.countP_append, List.countP_append, hrest as has', List.countP_cons_of_neg (by simp),
        List.countP_cons_of_pos (by simp), hrest bs hbs', Nat.add_assoc]
    · cases hn
  · rename_i n hn
    split at hn
    · cases hn
    · rename_i hx
      obtain rfl := Except.error.inj hn
      exact hrest data hx

/-- The first position after an offset. -/
theorem breaks_next (hsorted : data.Pairwise (· < ·)) :
    IsNext {v | v ∈ data} x data[data.countP (· ≤ x)]? := by
  induction data with
  | nil => exact fun q hq ↦ absurd hq List.not_mem_nil
  | cons v data ih =>
    obtain ⟨hv, hdata⟩ := List.pairwise_cons.mp hsorted
    rcases Nat.lt_or_ge x v with hlt | hge
    · have hzero : (v :: data).countP (· ≤ x) = 0 := by
        rw [List.countP_eq_zero]
        intro w hw
        rw [decide_eq_true_iff]
        rcases List.mem_cons.mp hw with rfl | hw
        · omega
        · have := hv w hw
          omega
      rw [hzero]
      refine ⟨⟨List.mem_cons_self, hlt⟩, ?_⟩
      rintro w ⟨hw, -⟩
      rcases List.mem_cons.mp hw with rfl | hw
      · exact Nat.le_refl w
      · exact (hv w hw).le
    · rw [List.countP_cons_of_pos (by simpa using hge), List.getElem?_cons_succ]
      have hrest := ih hdata
      cases hq : data[data.countP (· ≤ x)]? with
      | none =>
        rw [hq] at hrest
        intro w hw
        rcases List.mem_cons.mp hw with rfl | hw
        · exact hge
        · exact hrest w hw
      | some q =>
        rw [hq] at hrest
        refine ⟨⟨List.mem_cons_of_mem v hrest.1.1, hrest.1.2⟩, ?_⟩
        rintro w ⟨hw, hlt⟩
        rcases List.mem_cons.mp hw with rfl | hw
        · omega
        · exact hrest.2 ⟨hw, hlt⟩

/-- The loop of `prev`, with the last position that it has passed. -/
theorem prevBreak_spec (hsorted : data.Pairwise (· < ·)) (last : Option ℕ)
    (hlast : ∀ u ∈ last, u < x ∧ ∀ v ∈ data, u < v) :
    IsPrev {v | v ∈ last ∨ v ∈ data} x (prevBreak x last data) := by
  induction data generalizing last with
  | nil =>
    cases last with
    | none =>
      rintro q (hq | hq)
      · cases hq
      · cases hq
    | some u =>
      refine ⟨⟨.inl rfl, (hlast u rfl).1⟩, ?_⟩
      rintro q ⟨hq | hq, -⟩
      · exact (Option.some_inj.mp hq).ge
      · cases hq
  | cons v data ih =>
    obtain ⟨hv, hdata⟩ := List.pairwise_cons.mp hsorted
    rw [prevBreak]
    split
    · rename_i hle
      have hge : ∀ w ∈ v :: data, x ≤ w := by
        intro w hw
        rcases List.mem_cons.mp hw with rfl | hw
        · exact hle
        · exact hle.trans (hv w hw).le
      cases last with
      | none =>
        rintro q (hq | hq)
        · cases hq
        · exact hge q hq
      | some u =>
        refine ⟨⟨.inl rfl, (hlast u rfl).1⟩, ?_⟩
        rintro q ⟨hq | hq, hlt⟩
        · exact (Option.some_inj.mp hq).ge
        · have := hge q hq
          omega
    · rename_i hlt
      have hrest := ih hdata (some v) fun u hu ↦ by
        obtain rfl := Option.some_inj.mp hu
        exact ⟨by omega, hv⟩
      have hle : ∀ u ∈ last, u ≤ v := fun u hu ↦ ((hlast u hu).2 v List.mem_cons_self).le
      cases hq : prevBreak x (some v) data with
      | none =>
        rw [hq] at hrest
        have := hrest v (.inl rfl)
        omega
      | some q =>
        rw [hq] at hrest
        refine ⟨⟨?_, hrest.1.2⟩, ?_⟩
        · rcases hrest.1.1 with hq' | hq'
          · exact .inr (Option.some_inj.mp hq' ▸ List.mem_cons_self)
          · exact .inr (List.mem_cons_of_mem v hq')
        · have hvq : v ≤ q := hrest.2 ⟨.inl rfl, by omega⟩
          rintro w ⟨hw | hw, hwx⟩
          · exact (hle w hw).trans hvq
          · rcases List.mem_cons.mp hw with rfl | hw
            · exact hvq
            · exact hrest.2 ⟨.inr hw, hwx⟩

theorem breaksMetric_boundaries (l : BreaksLeaf) :
    breaksMetric.boundaries l = {v | v ∈ l.data} := by
  ext x
  exact breaksMetric_isBoundary

theorem breaksMetric_next (l : BreaksLeaf) (o : ℕ) :
    IsNext (breaksMetric.boundaries l) o (breaksMetric.next l o) := by
  rw [breaksMetric_boundaries]
  change IsNext _ o l.data[breaksUpTo l.data o]?
  rw [breaksUpTo_eq l.sorted]
  exact breaks_next l.sorted

theorem breaksMetric_lawful : breaksMetric.Lawful where
  isBoundary_append := by
    intro a b o
    rw [Bool.eq_iff_iff, breaksMetric_isBoundary]
    change o ∈ a.data ++ b.data.map (a.len + ·) ↔ _
    rw [List.mem_append, List.mem_map]
    split
    · rename_i hle
      change o ≤ a.len at hle
      rw [breaksMetric_isBoundary, or_iff_left]
      rintro ⟨w, hw, rfl⟩
      have := b.pos w hw
      omega
    · rename_i hlt
      change ¬ o ≤ a.len at hlt
      rw [breaksMetric_isBoundary, or_iff_right fun h ↦ hlt (a.le o h)]
      change _ ↔ o - a.len ∈ b.data
      constructor
      · rintro ⟨w, hw, rfl⟩
        rwa [Nat.add_sub_cancel_left]
      · exact fun h ↦ ⟨o - a.len, h, by omega⟩
  isBoundary_empty := by
    intro o
    rw [Bool.eq_iff_iff, breaksMetric_isBoundary]
    exact iff_of_false List.not_mem_nil (by simp [breaksMetric])
  isBoundary_zero := by
    intro l
    rw [Bool.eq_iff_iff, breaksMetric_isBoundary]
    exact iff_of_false (fun h ↦ Nat.lt_irrefl 0 (l.pos 0 h)) Bool.false_ne_true
  isBoundary_len h := absurd h.symm Bool.false_ne_true
  le_len h := BreaksLeaf.le _ _ (breaksMetric_isBoundary.mp h)
  prev := by
    intro l o _ _
    rw [breaksMetric_boundaries]
    have hspec := prevBreak_spec (x := o) l.sorted none (fun u hu ↦ by cases hu)
    simp only [Option.mem_def, reduceCtorEq, false_or] at hspec
    exact hspec
  next_zero := breaksMetric_next _ 0
  next_none := by
    intro l o _ hnone
    exact hnone ▸ breaksMetric_next l o
  next_some := by
    intro l o q _ hq
    exact iff_of_true (hq ▸ breaksMetric_next l o) (.inl rfl)
  measure_eq_zero := by
    intro _ l
    rw [breaksMetric_boundaries, Set.eq_empty_iff_forall_notMem]
    exact List.length_eq_zero_iff.trans List.eq_nil_iff_forall_not_mem

end EeEditor.BTree
