import EeEditor.Tree.CursorAt
import Mathlib.Data.Set.Basic

/-!
# The boundaries of a metric

What the cursor relies on of a metric (`Metric.Lawful`), and where the boundaries of a sequence of
leaves lie: those of a leaf are boundaries of the whole content, except that a boundary between two
leaves belongs to the first of them.
-/

namespace EeEditor.BTree

variable {L : Type} [Leaf L] {M : Metric L}

/-- The boundaries of a metric in a leaf. -/
def Metric.boundaries (M : Metric L) (l : L) : Set ℕ := {q | M.isBoundary l q = true}

/-- A position from which a metric tells the next boundary. A metric that does not fragment takes
the unit at the position for the first of a character, and one within a character for the first of
two. -/
def Metric.Clear (M : Metric L) (l : L) (o : ℕ) : Prop :=
  M.canFragment = true ∨ o ∈ M.boundaries l ∨ IsNext (M.boundaries l) o (some (o + 2))

/-- A metric with the same boundaries whether the content is in one leaf or in two. A metric that
can fragment has no boundary at the beginning, one that cannot has them at both ends of each
leaf. -/
structure Metric.Lawful (M : Metric L) : Prop where
  isBoundary_append : ∀ {a b : L} {o : ℕ}, M.isBoundary (Leaf.append a b) o
    = if o ≤ Leaf.len a then M.isBoundary a o else M.isBoundary b (o - Leaf.len a)
  isBoundary_empty : ∀ {o : ℕ}, M.isBoundary Leaf.empty o = (o == 0 && !M.canFragment)
  isBoundary_zero : ∀ {l : L}, M.isBoundary l 0 = !M.canFragment
  isBoundary_len : M.canFragment = false → ∀ {l : L}, M.isBoundary l (Leaf.len l) = true
  le_len : ∀ {l : L} {o : ℕ}, M.isBoundary l o = true → o ≤ Leaf.len l
  prev : ∀ {l : L} {o : ℕ}, 0 < o → o ≤ Leaf.len l → IsPrev (M.boundaries l) o (M.prev l o)
  next_zero : ∀ {l : L}, IsNext (M.boundaries l) 0 (M.next l 0)
  next_none : ∀ {l : L} {o : ℕ}, o ≤ Leaf.len l → M.next l o = none → IsNext (M.boundaries l) o none
  next_some : ∀ {l : L} {o q : ℕ}, o < Leaf.len l → M.next l o = some q →
    (IsNext (M.boundaries l) o (some q) ↔ M.Clear l o)
  measure_eq_zero : M.canFragment = true → ∀ {l : L}, M.measure l = 0 ↔ M.boundaries l = ∅

/-- The boundaries of a sequence of leaves. -/
def boundariesOf (M : Metric L) (ls : List L) : Set ℕ := M.boundaries (concat ls)

variable {pre post ls : List L} {l : L} {o q : ℕ}

omit [Leaf L] in
theorem mem_boundaries : q ∈ M.boundaries l ↔ M.isBoundary l q = true := Iff.rfl

theorem mem_boundariesOf : q ∈ boundariesOf M ls ↔ M.isBoundary (concat ls) q = true := Iff.rfl

/-- The boundaries after a piece are those of the rest. -/
theorem mem_boundariesOf_append_of_lt (hM : M.Lawful) (hq : lenOf pre < q) :
    q ∈ boundariesOf M (pre ++ post) ↔ q - lenOf pre ∈ boundariesOf M post := by
  induction pre generalizing q with
  | nil => rfl
  | cons l pre ih =>
    rw [lenOf_cons] at hq
    have hrest := ih (q := q - Leaf.len l) (by omega)
    rw [List.cons_append, mem_boundariesOf, concat_cons, hM.isBoundary_append, if_neg (by omega),
      lenOf_cons, ← Nat.sub_sub]
    exact hrest

/-- The boundaries up to the end of a piece are its own. -/
theorem mem_boundariesOf_append_of_le (hM : M.Lawful) (hq : q ≤ lenOf pre) :
    q ∈ boundariesOf M (pre ++ post) ↔ q ∈ boundariesOf M pre := by
  induction pre generalizing q with
  | nil =>
    obtain rfl := Nat.le_zero.mp hq
    rw [List.nil_append, mem_boundariesOf, mem_boundariesOf, hM.isBoundary_zero, hM.isBoundary_zero]
  | cons l pre ih =>
    rw [List.cons_append, mem_boundariesOf, mem_boundariesOf, concat_cons, concat_cons,
      hM.isBoundary_append, hM.isBoundary_append]
    split
    · rfl
    · rw [lenOf_cons] at hq
      exact ih (by omega)

theorem boundariesOf_singleton (hM : M.Lawful) (l : L) : boundariesOf M [l] = M.boundaries l := by
  ext q
  rw [mem_boundariesOf, mem_boundaries, concat_cons, hM.isBoundary_append]
  split
  · rfl
  · rename_i hq
    have hnot : ¬ M.isBoundary l q = true := fun h ↦ hq (hM.le_len h)
    rw [iff_false_right hnot, show concat ([] : List L) = Leaf.empty from rfl, hM.isBoundary_empty]
    simp
    omega

theorem le_lenOf (hM : M.Lawful) (hq : q ∈ boundariesOf M ls) : q ≤ lenOf ls :=
  (hM.le_len hq).trans (len_concat ls).le

/-- The boundaries of a leaf are boundaries of the whole, at the beginning those of what
precedes. -/
theorem mem_boundariesOf_leaf (hM : M.Lawful) (pre post : List L) (ho : 0 < o)
    (hle : o ≤ Leaf.len l) :
    lenOf pre + o ∈ boundariesOf M (pre ++ l :: post) ↔ o ∈ M.boundaries l := by
  rw [mem_boundariesOf_append_of_lt hM (by omega), Nat.add_sub_cancel_left,
    ← List.singleton_append, mem_boundariesOf_append_of_le hM (by simpa using hle),
    boundariesOf_singleton hM]

theorem mem_boundariesOf_between (hM : M.Lawful) :
    lenOf pre ∈ boundariesOf M (pre ++ post) ↔ lenOf pre ∈ boundariesOf M pre :=
  mem_boundariesOf_append_of_le hM (Nat.le_refl _)

/-- A metric that cannot fragment has a boundary wherever a leaf begins. -/
theorem lenOf_mem_boundariesOf (hM : M.Lawful) (hatomic : M.canFragment = false) (pre : List L) :
    lenOf pre ∈ boundariesOf M pre := by
  have h := hM.isBoundary_len hatomic (l := concat pre)
  rwa [len_concat] at h

/-- Leaves without measure have no boundaries. -/
theorem boundariesOf_eq_empty (hM : M.Lawful) (hfragment : M.canFragment = true)
    (hls : measureOf M ls = 0) : boundariesOf M ls = ∅ := by
  induction ls with
  | nil =>
    ext q
    simp [boundariesOf, Metric.boundaries, concat, hM.isBoundary_empty, hfragment]
  | cons l ls ih =>
    rw [measureOf_cons] at hls
    have hl := (hM.measure_eq_zero hfragment (l := l)).mp (by omega)
    have hrest := ih (by omega)
    ext q
    rw [Set.mem_empty_iff_false, iff_false]
    intro hq
    rcases Nat.lt_or_ge (Leaf.len l) q with hlt | hge
    · rw [← List.singleton_append, mem_boundariesOf_append_of_lt hM (by simpa using hlt),
        hrest] at hq
      exact hq
    · rw [← List.singleton_append, mem_boundariesOf_append_of_le hM (by simpa using hge),
        boundariesOf_singleton hM, hl] at hq
      exact hq

/-! ## Nearest boundaries of the whole -/

/-- The next boundary of a leaf is the next one of the whole. -/
theorem IsNext.whole (hM : M.Lawful) (hq : IsNext (M.boundaries l) o (some q)) :
    IsNext (boundariesOf M (pre ++ l :: post)) (lenOf pre + o) (some (lenOf pre + q)) := by
  obtain ⟨⟨hmem, hlt⟩, hleast⟩ := hq
  have hle := hM.le_len hmem
  refine ⟨⟨(mem_boundariesOf_leaf hM _ _ (by omega) hle).mpr hmem, by omega⟩, ?_⟩
  rintro y ⟨hy, hoy⟩
  by_contra hyq
  obtain ⟨o', rfl⟩ := Nat.exists_eq_add_of_le (show lenOf pre ≤ y by omega)
  have := hleast ⟨(mem_boundariesOf_leaf hM _ _ (by omega) (by omega)).mp hy, by omega⟩
  omega

/-- A leaf without a boundary ahead is passed over. -/
theorem IsNext.pass (hM : M.Lawful) {r : Option ℕ} (ho : o ≤ Leaf.len l)
    (hnone : IsNext (M.boundaries l) o none)
    (hr : IsNext (boundariesOf M (pre ++ l :: post)) (lenOf pre + Leaf.len l) r) :
    IsNext (boundariesOf M (pre ++ l :: post)) (lenOf pre + o) r := by
  refine hr.of_gap (by omega) fun y hy hoy ↦ ?_
  by_contra hyq
  obtain ⟨o', rfl⟩ := Nat.exists_eq_add_of_le (show lenOf pre ≤ y by omega)
  have := hnone o' ((mem_boundariesOf_leaf hM _ _ (by omega) (by omega)).mp hy)
  omega

/-- The boundary of a leaf before a position is the one before it in the whole. -/
theorem IsPrev.whole (hM : M.Lawful) (ho : o ≤ Leaf.len l)
    (hq : IsPrev (M.boundaries l) o (some q)) :
    IsPrev (boundariesOf M (pre ++ l :: post)) (lenOf pre + o) (some (lenOf pre + q)) := by
  obtain ⟨⟨hmem, hlt⟩, hgreatest⟩ := hq
  have hle := hM.le_len hmem
  have hwhole : lenOf pre + q ∈ boundariesOf M (pre ++ l :: post) := by
    cases q with
    | zero =>
      rw [mem_boundaries, hM.isBoundary_zero, Bool.not_eq_true'] at hmem
      exact (mem_boundariesOf_between hM).mpr (lenOf_mem_boundariesOf hM hmem pre)
    | succ q => exact (mem_boundariesOf_leaf hM _ _ (Nat.succ_pos q) hle).mpr hmem
  refine ⟨⟨hwhole, by omega⟩, ?_⟩
  rintro y ⟨hy, hoy⟩
  by_contra hyq
  obtain ⟨o', rfl⟩ := Nat.exists_eq_add_of_le (show lenOf pre ≤ y by omega)
  have := hgreatest ⟨(mem_boundariesOf_leaf hM _ _ (by omega) (by omega)).mp hy, by omega⟩
  omega

/-- Without a boundary of the leaf before a position, the ones before it are not in the leaf. -/
theorem IsPrev.pass (hM : M.Lawful) (ho : o ≤ Leaf.len l) (hnone : IsPrev (M.boundaries l) o none) :
    ∀ y ∈ boundariesOf M (pre ++ l :: post), y < lenOf pre + o → y ≤ lenOf pre := by
  intro y hy hoy
  by_contra hyq
  obtain ⟨o', rfl⟩ := Nat.exists_eq_add_of_le (show lenOf pre ≤ y by omega)
  have := hnone o' ((mem_boundariesOf_leaf hM _ _ (by omega) (by omega)).mp hy)
  omega

/-- A boundary ahead that the leaf holds is the next one of the whole only if it is that of the
leaf. -/
theorem IsNext.of_whole (hM : M.Lawful) (hatomic : M.canFragment = false) (ho : o < Leaf.len l)
    (hq : IsNext (boundariesOf M (pre ++ l :: post)) (lenOf pre + o) (some (lenOf pre + q))) :
    IsNext (M.boundaries l) o (some q) := by
  obtain ⟨⟨hmem, hlt⟩, hleast⟩ := hq
  have hend := (mem_boundariesOf_leaf hM pre post (by omega) (Nat.le_refl _)).mpr
    (hM.isBoundary_len hatomic (l := l))
  have hle := hleast ⟨hend, by omega⟩
  refine ⟨⟨(mem_boundariesOf_leaf hM _ _ (by omega) (by omega)).mp hmem, by omega⟩, ?_⟩
  rintro y ⟨hy, hoy⟩
  have := hleast ⟨(mem_boundariesOf_leaf hM pre post (by omega)
    (hM.le_len hy)).mpr hy, by omega⟩
  omega

/-- Whether the next boundary can be told is seen in the leaf. -/
theorem clear_concat (hM : M.Lawful) (ho : o < Leaf.len l) :
    M.Clear (concat (pre ++ l :: post)) (lenOf pre + o) ↔ M.Clear l o := by
  by_cases hfragment : M.canFragment = true
  · exact iff_of_true (.inl hfragment) (.inl hfragment)
  have hatomic := Bool.not_eq_true _ ▸ hfragment
  refine or_congr Iff.rfl (or_congr ?_ ⟨fun hq ↦ hq.of_whole hM hatomic ho, fun hq ↦
    hq.whole hM⟩)
  rcases Nat.eq_zero_or_pos o with rfl | hpos
  · refine iff_of_true ((mem_boundariesOf_between hM).mpr
      (lenOf_mem_boundariesOf hM hatomic pre)) ?_
    rw [mem_boundaries, hM.isBoundary_zero, hatomic]
    rfl
  · exact mem_boundariesOf_leaf hM _ _ hpos ho.le

/-- Pieces without measure have no boundaries inside or at the end. -/
theorem le_of_measure_zero (hM : M.Lawful) (hfragment : M.canFragment = true)
    (pre mid post : List L) (hmid : measureOf M mid = 0) :
    ∀ y ∈ boundariesOf M (pre ++ (mid ++ post)), lenOf pre < y →
      lenOf pre + lenOf mid < y := by
  intro y hy hlt
  by_contra hle
  rw [mem_boundariesOf_append_of_lt hM hlt, mem_boundariesOf_append_of_le hM (by omega),
    boundariesOf_eq_empty hM hfragment hmid] at hy
  exact hy

end EeEditor.BTree
