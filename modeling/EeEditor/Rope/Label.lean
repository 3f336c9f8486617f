import EeEditor.Rope.Factor

/-!
# Labelled subsets, texts and deltas

The elements of a union string are given labels, and every subset of it is a function on labels:
`Subset.label u f` counts `f k` for the label `k`. Read this way the operations on subsets become
operations on functions, a change of coordinate space is a filter of the list `u`, and a rope is
the image of the labels it holds.
-/

namespace EeEditor

variable {α : Type} {κ : Type*}

open Script

/-! ## Subsets -/

namespace Subset

/-- The subset of the labels `u` with the counts `f`. -/
def label (u : List κ) (f : κ → ℕ) : Subset := ofCounts (u.map f)

@[simp] theorem counts_label (u : List κ) (f : κ → ℕ) : (label u f).counts = u.map f :=
  counts_ofCounts _

theorem label_inj {u : List κ} {f g : κ → ℕ} : label u f = label u g ↔ ∀ k ∈ u, f k = g k := by
  rw [label, label, ofCounts_inj, List.map_inj_left]

theorem label_congr {u : List κ} {f g : κ → ℕ} (h : ∀ k ∈ u, f k = g k) : label u f = label u g :=
  label_inj.mpr h

@[simp] theorem len_label (u : List κ) (f : κ → ℕ) : (label u f).len = u.length := by
  rw [len_eq, counts_label, List.length_map]

theorem lenAfterDelete_label (u : List κ) (f : κ → ℕ) :
    (label u f).lenAfterDelete = (u.filter fun k ↦ f k = 0).length := by
  rw [lenAfterDelete_eq, counts_label, zeros_map]

theorem isEmpty_label {u : List κ} {f : κ → ℕ} :
    (label u f).isEmpty = true ↔ ∀ k ∈ u, f k = 0 := by
  rw [isEmpty_iff, counts_label]
  simp

private theorem zip_map {γ δ ε : Type*} (g : γ → δ → ε) (u : List κ) (a : κ → γ) (b : κ → δ) :
    List.zipWith g (u.map a) (u.map b) = u.map fun k ↦ g (a k) (b k) := by
  rw [List.zipWith_map, List.zipWith_self]

theorem union_label (u : List κ) (a b : κ → ℕ) :
    (label u a).union (label u b) = some (label u fun k ↦ a k + b k) := by
  rw [union_eq (by simp), counts_label, counts_label, zip_map]
  rfl

theorem bitxor_label (u : List κ) (a b : κ → ℕ) :
    (label u a).bitxor (label u b) = some (label u fun k ↦ a k ^^^ b k) := by
  rw [bitxor_eq (by simp), counts_label, counts_label, zip_map]
  rfl

theorem subtract_label {u : List κ} {a b : κ → ℕ} (h : ∀ k ∈ u, b k ≤ a k) :
    (label u a).subtract (label u b) = some (label u fun k ↦ a k - b k) := by
  rw [subtract_eq (by simp), counts_label, counts_label, zip_map]
  · rfl
  · intro p hp
    rw [counts_label, counts_label, List.zip, zip_map] at hp
    obtain ⟨k, hk, rfl⟩ := List.mem_map.mp hp
    exact h k hk

theorem le_of_subtract_label {u : List κ} {a b : κ → ℕ} {t : Subset}
    (h : (label u a).subtract (label u b) = some t) : ∀ k ∈ u, b k ≤ a k := by
  have hle := le_of_subtract (by simp) h
  rw [counts_label, counts_label, List.zip, zip_map] at hle
  exact fun k hk ↦ hle (a k, b k) (List.mem_map.mpr ⟨k, hk, rfl⟩)

theorem transformShrink_label (u : List κ) (a b : κ → ℕ) :
    (label u a).transformShrink (label u b) = some (label (u.filter fun k ↦ b k = 0) a) := by
  rw [transformShrink_eq (by simp), counts_label, counts_label, keepZero_map]
  rfl

theorem complement_label (u : List κ) (a : κ → ℕ) :
    (label u a).complement = some (label u fun k ↦ if a k = 0 then 1 else 0) := by
  rw [complement_eq, counts_label, List.map_map]
  rfl

theorem transform_label (un : Bool) (u : List κ) (a b : κ → ℕ) :
    (label (u.filter fun k ↦ b k = 0) a).transform (label u b) un
      = some (label u fun k ↦ if b k = 0 then a k else if un then b k else 0) := by
  rw [transform_eq un (by simp [zeros_map]), counts_label, counts_label, fillZero_map]
  rfl

theorem transformExpand_label (u : List κ) (a b : κ → ℕ) :
    (label (u.filter fun k ↦ b k = 0) a).transformExpand (label u b)
      = some (label u fun k ↦ if b k = 0 then a k else 0) := transform_label false u a b

/-- Skipping an empty transform changes nothing. -/
theorem transform_or_skip (un : Bool) (u : List κ) (a b : κ → ℕ) :
    (if !(label u b).isEmpty then (label (u.filter fun k ↦ b k = 0) a).transform (label u b) un
      else some (label (u.filter fun k ↦ b k = 0) a))
      = some (label u fun k ↦ if b k = 0 then a k else if un then b k else 0) := by
  cases he : (label u b).isEmpty with
  | false => exact transform_label un u a b
  | true =>
    have hb := isEmpty_label.mp he
    rw [List.filter_eq_self.mpr fun k hk ↦ decide_eq_true (hb k hk)]
    exact congrArg some (label_congr fun k hk ↦ by rw [if_pos (hb k hk)])

theorem transformExpand_or_skip (u : List κ) (a b : κ → ℕ) :
    (if !(label u b).isEmpty then (label (u.filter fun k ↦ b k = 0) a).transformExpand (label u b)
      else some (label (u.filter fun k ↦ b k = 0) a))
      = some (label u fun k ↦ if b k = 0 then a k else 0) := transform_or_skip false u a b

theorem transformUnion_or_skip (u : List κ) (a b : κ → ℕ) :
    (if !(label u b).isEmpty then (label (u.filter fun k ↦ b k = 0) a).transformUnion (label u b)
      else some (label (u.filter fun k ↦ b k = 0) a))
      = some (label u fun k ↦ if b k = 0 then a k else b k) := transform_or_skip true u a b

/-- Skipping an empty union changes nothing. -/
theorem union_or_skip (u : List κ) (a b : κ → ℕ) :
    (if !(label u b).isEmpty then (label u a).union (label u b) else some (label u a))
      = some (label u fun k ↦ a k + b k) := by
  cases he : (label u b).isEmpty with
  | false => exact union_label u a b
  | true =>
    exact congrArg some (label_congr fun k hk ↦ by rw [isEmpty_label.mp he k hk, Nat.add_zero])

/-- Skipping an empty shrink changes nothing. -/
theorem transformShrink_or_skip (u : List κ) (a b : κ → ℕ) :
    (if (label u b).isEmpty then some (label u a) else (label u a).transformShrink (label u b))
      = some (label (u.filter fun k ↦ b k = 0) a) := by
  cases he : (label u b).isEmpty with
  | false => exact transformShrink_label u a b
  | true =>
    have hb := isEmpty_label.mp he
    rw [List.filter_eq_self.mpr fun k hk ↦ decide_eq_true (hb k hk)]
    rfl

theorem deleteFrom_label (u : List κ) (v : κ → α) (b : κ → ℕ) :
    (label u b).deleteFrom (u.map v) = some ((u.filter fun k ↦ b k = 0).map v) := by
  rw [deleteFrom_eq (by simp), counts_label, keepZero_map]

/-- Any subset of the right length labels the elements. -/
theorem exists_label [DecidableEq κ] {u : List κ} (hu : u.Nodup) {s : Subset}
    (h : s.counts.length = u.length) : ∃ f, s = label u f := by
  refine ⟨fun k ↦ s.counts.getD (u.idxOf k) 0, ext_counts ?_⟩
  rw [counts_label]
  refine List.ext_getElem (by simp [h]) fun i h1 h2 ↦ ?_
  rw [List.getElem_map, hu.idxOf_getElem]
  simp [List.getD, h1]

end Subset

/-! ## Texts -/

section

variable (u : List κ) (v : κ → α) (a b : κ → ℕ)

private theorem resolve_synthFlat (base : List α) : ∀ (u : List κ) (r : ℕ),
    base.drop r = (u.filter fun k ↦ a k = 0).map v →
    (synthFlat (u.map a) (u.map b) r ((u.filter fun k ↦ a k ≠ 0).map v)).map (resolve base)
      = ((u.filter fun k ↦ b k = 0).map v).map some := by
  intro u
  induction u with
  | nil => intro r _; simp [synthFlat]
  | cons k u ih =>
    intro r hbase
    rw [List.map_cons, List.map_cons, List.filter_cons, List.filter_cons]
    cases ha : a k with
    | zero =>
      have hdrop : base.drop r = v k :: (u.filter fun k ↦ a k = 0).map v := by
        rw [hbase]
        simp [ha]
      have hget : base[r]? = some (v k) := by
        have := congrArg List.head? hdrop
        simpa using this
      have hrest : base.drop (r + 1) = (u.filter fun k ↦ a k = 0).map v := by
        rw [← List.drop_drop, hdrop, List.drop_one, List.tail_cons]
      cases hb : b k with
      | zero => simpa [synthFlat, resolve, hget] using ih (r + 1) hrest
      | succ c => simpa [synthFlat] using ih (r + 1) hrest
    | succ c =>
      have hrest : base.drop r = (u.filter fun k ↦ a k = 0).map v := by
        rw [hbase]
        simp [ha]
      cases hb : b k with
      | zero => simpa [synthFlat, resolve] using ih r hrest
      | succ c => simpa [synthFlat] using ih r hrest

/-- Synthesizing a delta between two deletion sets and applying it turns one text of the union
string into the other. -/
theorem Delta.synthesize_label :
    ∃ d, Delta.synthesize ((u.filter fun k ↦ a k ≠ 0).map v) (.label u a) (.label u b) = some d ∧
      d.WellFormed ∧ flatten d.els
        = synthFlat (u.map a) (u.map b) 0 ((u.filter fun k ↦ a k ≠ 0).map v) ∧
      d.baseLen = (u.filter fun k ↦ a k = 0).length ∧
      d.apply ((u.filter fun k ↦ a k = 0).map v) = some ((u.filter fun k ↦ b k = 0).map v) := by
  have hT : ((u.filter fun k ↦ a k ≠ 0).map v).length = nonzeros (Subset.label u a).counts := by
    rw [List.length_map, Subset.counts_label, nonzeros_map]
  have hlen : (Subset.label u b).counts.length = (Subset.label u a).counts.length := by simp
  obtain ⟨d, hd, hbase, hwf, hflat⟩ := Delta.synthesize_spec hT hlen
  rw [Subset.counts_label] at hbase
  rw [Subset.counts_label, Subset.counts_label] at hflat
  rw [zeros_map] at hbase
  refine ⟨d, hd, hwf, hflat, hbase, ?_⟩
  have htext : ((u.filter fun k ↦ a k = 0).map v).length = d.baseLen := by
    rw [List.length_map, hbase]
  obtain ⟨l, hl, hmap⟩ := Delta.apply_of_bounds htext fun b e hmem ↦ by
      obtain ⟨-, h1, h2⟩ := Ascending.mem_copy hwf hmem
      exact ⟨h1.le, h2⟩
  rw [hl]
  congr 1
  rw [hflat, resolve_synthFlat v a b _ u 0 (by simp)] at hmap
  exact List.map_injective_iff.mpr (fun _ _ ↦ Option.some.inj) hmap

end

/-! ## Insert-only deltas -/

namespace InsertDelta

/-- The delta inserts the new labels of the arrangement `w` into the others. -/
def Arranges (d : InsertDelta α) (new : κ → Bool) (v : κ → α) (w : List κ) : Prop :=
  d.Realizes (ofLabels new v w)

namespace Arranges

variable {d : InsertDelta α} {new : κ → Bool} {v : κ → α} {w u : List κ} {x : κ → ℕ}

theorem baseLen (h : d.Arranges new v w) :
    d.delta.baseLen = (w.filter fun k ↦ !new k).length := by
  rw [← h.kept, kept_ofLabels]

theorem transformExpand (h : d.Arranges new v w)
    (hw : (w.filter fun k ↦ !new k) = u.filter fun k ↦ x k = 0) (hu : ∀ k ∈ u, new k = false)
    (after : Bool) : ∃ d', d.transformExpand (.label u x) after = some d' ∧
      d'.Arranges new v (arrange new after x u w) := by
  have hlen : d.delta.baseLen = zeros (Subset.label u x).counts := by
    rw [h.baseLen, hw, Subset.counts_label, zeros_map]
  obtain ⟨d', hd', hr⟩ := Realizes.transformExpand h hlen after
  refine ⟨d', hd', ?_⟩
  rw [Subset.counts_label] at hr
  rwa [Arranges, ofLabels_arrange v after hw hu]

theorem insertedSubset (h : d.Arranges new v w) :
    d.insertedSubset = some (.label w fun k ↦ if new k then 1 else 0) := by
  rw [Realizes.insertedSubset_eq h, mask_ofLabels]
  rfl

theorem apply_transformShrink (h : d.Arranges new v w) (hw : (w.filter fun k ↦ !new k) = u) :
    ∃ d', d.transformShrink (.label u x) = some d' ∧
      d'.delta.apply ((u.filter fun k ↦ x k = 0).map v)
        = some ((w.filter fun k ↦ new k || x k == 0).map v) := by
  have hlen : d.delta.baseLen = (Subset.label u x).counts.length := by
    rw [h.baseLen, hw]
    simp
  have htext : ((u.filter fun k ↦ x k = 0).map v).length = zeros (Subset.label u x).counts := by
    rw [Subset.counts_label, zeros_map, List.length_map]
  obtain ⟨d', hd', ha⟩ := Realizes.apply_transformShrink h hlen htext
  refine ⟨d', hd', ?_⟩
  rw [ha, Subset.counts_label, ← hw, shrink_ofLabels]
  have hfilter : ((w.filter fun k ↦ !new k).filter fun k ↦ x k = 0)
      = (w.filter fun k ↦ new k || x k == 0).filter fun k ↦ !new k := by
    rw [List.filter_filter, List.filter_filter]
    refine List.filter_congr fun k _ ↦ ?_
    by_cases hk : new k <;> by_cases hx : x k = 0 <;> simp [hk, hx]
  rw [hfilter, fill_ofLabels]

end Arranges

end InsertDelta

end EeEditor
