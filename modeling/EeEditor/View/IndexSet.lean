import EeEditor.Sequence.IndexRanges
import EeEditor.View.Regions

/-!
# Sets of indices

The model of `IndexSet` of `xi-core-lib/src/index_set.rs`, with the iterator over what is missing
from it. `none` is a panic of `remove_n_at`.
-/

namespace EeEditor

open IndexRanges

structure IndexSet where
  ranges : List (ℕ × ℕ)

def MAX_RANGES : ℕ := 10000

namespace IndexSet

def new : IndexSet := ⟨[]⟩

/-- The inner loop, over the ranges that the new one reaches: the end of the last of them, and what
follows. -/
def absorb (end_ : ℕ) : ℕ → List (ℕ × ℕ) → ℕ × List (ℕ × ℕ)
  | iend, [] => (iend, [])
  | iend, (jstart, jend) :: rest =>
    if end_ ≥ jstart then absorb end_ jend rest else (iend, (jstart, jend) :: rest)

/-- The loop over the ranges, of which there are `len`. -/
@[grind =] def unionFrom (len start end_ : ℕ) : List (ℕ × ℕ) → List (ℕ × ℕ)
  | [] => if len ≥ MAX_RANGES then [] else [(start, end_)]
  | (istart, iend) :: rest =>
    if start > iend then (istart, iend) :: unionFrom len start end_ rest
    else if end_ < istart then
      if len ≥ MAX_RANGES then (istart, iend) :: rest
      else (start, end_) :: (istart, iend) :: rest
    else
      let (lastEnd, rest) := absorb end_ iend rest
      (min start istart, max end_ lastEnd) :: rest

def unionOneRange (self : IndexSet) (start end_ : ℕ) : IndexSet :=
  ⟨unionFrom self.ranges.length start end_ self.ranges⟩

/-- The loop from the first range that may be cut, behind the ranges `seen`: all ranges, and which
of them are to be removed. -/
def deleteLoop (start end_ : ℕ) : List (ℕ × ℕ) → List (ℕ × ℕ) → Option ℕ → ℕ →
    List (ℕ × ℕ) × Option ℕ × ℕ
  | seen, [], delFrom, delLen => (seen, delFrom, delLen)
  | seen, (a, b) :: rest, delFrom, delLen =>
    if a ≥ end_ then (seen ++ (a, b) :: rest, delFrom, delLen)
    else if a < start then
      -- the loop breaks at a range that is inserted
      if b > end_ then (seen ++ (a, start) :: (end_, b) :: rest, delFrom, delLen)
      else deleteLoop start end_ (seen ++ [(a, start)]) rest delFrom delLen
    else if b > end_ then deleteLoop start end_ (seen ++ [(end_, b)]) rest delFrom delLen
    else
      deleteLoop start end_ (seen ++ [(a, b)]) rest (delFrom.or (some seen.length)) (delLen + 1)

def deleteRange (self : IndexSet) (start end_ : ℕ) : Option IndexSet := do
  let ix := match binarySearchBy self.ranges fun r ↦ compare r.2 start with
    | .ok ix => ix
    | .error ix => ix
  let (ranges, delFrom, delLen) :=
    deleteLoop start end_ (self.ranges.take ix) (self.ranges.drop ix) none 0
  match delFrom with
  | none => some ⟨ranges⟩
  | some delFrom => return ⟨← removeNAt ranges delFrom delLen⟩

/-- The loop over the ranges, with the ranges so far. -/
def applyDeltaFrom {α : Type} :
    List (ℕ × ℕ) → Transformer α → List (ℕ × ℕ) → List (ℕ × ℕ)
  | ranges, _, [] => ranges
  | ranges, transformer, (start, end_) :: rest =>
    let (start, transformer) := transformer.transform start false
    let (end_, transformer) := transformer.transform end_ false
    if start = end_ then applyDeltaFrom ranges transformer rest
    else
      match ranges.getLast? with
      | some last =>
        if last.2 = start then
          applyDeltaFrom (ranges.dropLast ++ [(last.1, end_)]) transformer rest
        else applyDeltaFrom (ranges ++ [(start, end_)]) transformer rest
      | none => applyDeltaFrom (ranges ++ [(start, end_)]) transformer rest

def applyDelta {α : Type} (self : IndexSet) (delta : Delta α) : IndexSet :=
  ⟨applyDeltaFrom [] (.new delta) self.ranges⟩

end IndexSet

structure MinusIter where
  ranges : List (ℕ × ℕ)
  start : ℕ
  end_ : ℕ

def IndexSet.minusOneRange (self : IndexSet) (start end_ : ℕ) : MinusIter :=
  ⟨self.ranges.dropWhile fun r ↦ start ≥ r.2, start, end_⟩

namespace MinusIter

/-- The loop of `next`. -/
@[grind =] def nextFrom (end_ : ℕ) : List (ℕ × ℕ) → ℕ → Option (ℕ × ℕ) × MinusIter
  | [], start => if start < end_ then (some (start, end_), ⟨[], end_, end_⟩)
    else (none, ⟨[], start, end_⟩)
  | (a, b) :: rest, start =>
    if start < end_ then
      if end_ ≤ a then (some (start, end_), ⟨(a, b) :: rest, end_, end_⟩)
      else if a > start then (some (start, a), ⟨rest, b, end_⟩)
      else nextFrom end_ rest b
    else (none, ⟨(a, b) :: rest, start, end_⟩)

def next (self : MinusIter) : Option (ℕ × ℕ) × MinusIter :=
  nextFrom self.end_ self.ranges self.start

/-- The loop of `next_back`, over the ranges from the last one back. -/
@[grind =] def nextBackFrom (start : ℕ) : List (ℕ × ℕ) → ℕ → Option (ℕ × ℕ) × MinusIter
  | [], end_ => if start < end_ then (some (start, end_), ⟨[], end_, end_⟩)
    else (none, ⟨[], start, end_⟩)
  | (a, b) :: before, end_ =>
    if start < end_ then
      if b ≤ start then (some (start, end_), ⟨((a, b) :: before).reverse, end_, end_⟩)
      else if end_ > b then (some (b, end_), ⟨before.reverse, start, a⟩)
      else nextBackFrom start before a
    else (none, ⟨((a, b) :: before).reverse, start, end_⟩)

def nextBack (self : MinusIter) : Option (ℕ × ℕ) × MinusIter :=
  nextBackFrom self.start self.ranges.reverse self.end_

end MinusIter

/-! ## Union -/

namespace IndexSet

variable {ranges rest : List (ℕ × ℕ)} {a b start end_ len i m : ℕ}

/-- The ranges that are absorbed begin no later than the new one ends. -/
theorem absorb_spec (h : Separated ((a, b) :: rest)) (ha : a ≤ end_) :
    b ≤ (absorb end_ b rest).1 ∧ Separated (absorb end_ b rest).2 ∧
      (∀ r ∈ (absorb end_ b rest).2, max end_ (absorb end_ b rest).1 < r.1) ∧
      (∀ r ∈ rest, r ∈ (absorb end_ b rest).2 ∨ r.2 ≤ (absorb end_ b rest).1) ∧
      (∀ r ∈ (absorb end_ b rest).2, r ∈ rest) ∧
      ∀ i, end_ ≤ i → i < (absorb end_ b rest).1 → i ∈ indices ((a, b) :: rest) := by
  induction rest generalizing a b with
  | nil =>
    refine ⟨Nat.le_refl b, separated_nil, ?_, ?_, ?_, fun i hi hlt ↦ ?_⟩
    · exact fun r hr ↦ absurd hr List.not_mem_nil
    · exact fun r hr ↦ absurd hr List.not_mem_nil
    · exact fun r hr ↦ absurd hr List.not_mem_nil
    · exact ⟨(a, b), List.mem_cons_self, ha.trans hi, hlt⟩
  | cons next rest ih =>
    obtain ⟨c, d⟩ := next
    obtain ⟨hab, hafter, hrest⟩ := separated_cons.mp h
    obtain ⟨hcd, hnext, -⟩ := separated_cons.mp hrest
    have hbc : b < c := hafter (c, d) List.mem_cons_self
    rw [absorb]
    by_cases hreach : end_ ≥ c
    · rw [if_pos hreach]
      obtain ⟨hle, hseparated, hbeyond, hkept, hsub, hin⟩ := ih hrest hreach
      dsimp only at hcd
      refine ⟨by omega, hseparated, hbeyond, ?_, ?_, ?_⟩
      · intro r hr
        rcases List.mem_cons.mp hr with rfl | hr
        · exact .inr hle
        · exact hkept r hr
      · exact fun r hr ↦ List.mem_cons_of_mem _ (hsub r hr)
      · exact fun i hi hlt ↦ mem_indices_cons.mpr (.inr (hin i hi hlt))
    · rw [if_neg hreach]
      dsimp only at hcd
      refine ⟨Nat.le_refl b, hrest, ?_, fun r hr ↦ .inl hr, fun r hr ↦ hr, fun i hi hlt ↦ ?_⟩
      · intro r hr
        rcases List.mem_cons.mp hr with rfl | hr
        · dsimp only
          omega
        · have := hnext r hr
          dsimp only at this ⊢
          omega
      · exact mem_indices_cons.mpr (.inl ⟨ha.trans hi, hlt⟩)

/-- The merged range. -/
theorem mem_absorbed (h : Separated ((a, b) :: rest)) (ha : a ≤ end_)
    (hb : start ≤ b) :
    i ∈ indices ((min start a, max end_ (absorb end_ b rest).1) :: (absorb end_ b rest).2) ↔
      i ∈ indices ((a, b) :: rest) ∨ start ≤ i ∧ i < end_ := by
  obtain ⟨hle, -, -, hkept, hsub, hin⟩ := absorb_spec h ha
  obtain ⟨hab, hafter, -⟩ := separated_cons.mp h
  dsimp only at hab hafter
  rw [mem_indices_cons]
  dsimp only
  constructor
  · rintro (⟨hmin, hmax⟩ | ⟨r, hr, hi⟩)
    · by_cases hend : end_ ≤ i
      · exact .inl (hin i hend (by omega))
      · by_cases hstart : start ≤ i
        · exact .inr ⟨hstart, by omega⟩
        · exact .inl (mem_indices_cons.mpr (.inl ⟨by dsimp only; omega, by dsimp only; omega⟩))
    · exact .inl (mem_indices_cons.mpr (.inr ⟨r, hsub r hr, hi⟩))
  · rintro (hold | hnew)
    · rcases mem_indices_cons.mp hold with hfirst | ⟨r, hr, hle', hlt'⟩
      · dsimp only at hfirst
        exact .inl ⟨by omega, by omega⟩
      · rcases hkept r hr with hr' | hcovered
        · exact .inr ⟨r, hr', hle', hlt'⟩
        · have := hafter r hr
          exact .inl ⟨by omega, by omega⟩
    · exact .inl ⟨by omega, by omega⟩

/-- What is before a new range and the old ones stays before them. -/
theorem lt_of_mem_unionFrom (h : Separated ranges) (hstart : m < start)
    (hm : ∀ r ∈ ranges, m < r.1) : ∀ r ∈ unionFrom len start end_ ranges, m < r.1 := by
  induction ranges with
  | nil =>
    intro r hr
    rw [unionFrom] at hr
    split_ifs at hr
    · exact absurd hr List.not_mem_nil
    · rwa [List.mem_singleton.mp hr]
  | cons first rest ih =>
    obtain ⟨a, b⟩ := first
    obtain ⟨hfirst, hrest⟩ := List.forall_mem_cons.mp hm
    obtain ⟨hab, -, hseparated⟩ := separated_cons.mp h
    rw [unionFrom]
    split_ifs with hpast hbefore hfull
    · exact List.forall_mem_cons.mpr ⟨hfirst, ih hseparated hrest⟩
    · exact List.forall_mem_cons.mpr ⟨hfirst, hrest⟩
    · exact List.forall_mem_cons.mpr ⟨hstart, List.forall_mem_cons.mpr ⟨hfirst, hrest⟩⟩
    · obtain ⟨-, -, -, -, hsub, -⟩ := absorb_spec h (Nat.not_lt.mp hbefore)
      refine List.forall_mem_cons.mpr ⟨?_, fun r hr ↦ hrest r (hsub r hr)⟩
      dsimp only at hfirst ⊢
      omega

theorem separated_unionFrom (h : Separated ranges) (hlt : start < end_) :
    Separated (unionFrom len start end_ ranges) := by
  induction ranges with
  | nil =>
    rw [unionFrom]
    split_ifs
    · exact separated_nil
    · exact separated_cons.mpr ⟨hlt, fun _ hr ↦ absurd hr List.not_mem_nil, separated_nil⟩
  | cons first rest ih =>
    obtain ⟨a, b⟩ := first
    obtain ⟨hab, hafter, hrest⟩ := separated_cons.mp h
    rw [unionFrom]
    split_ifs with hpast hbefore hfull
    · exact separated_cons.mpr ⟨hab, lt_of_mem_unionFrom hrest hpast hafter, ih hrest⟩
    · exact h
    · refine separated_cons.mpr ⟨hlt, List.forall_mem_cons.mpr ⟨hbefore, fun r hr ↦ ?_⟩, h⟩
      have := hafter r hr
      dsimp only at hab this ⊢
      omega
    · obtain ⟨hle, hseparated, hbeyond, -⟩ := absorb_spec h (Nat.not_lt.mp hbefore)
      refine separated_cons.mpr ⟨?_, hbeyond, hseparated⟩
      dsimp only
      omega

theorem mem_unionFrom (h : Separated ranges) (hlen : len < MAX_RANGES) :
    i ∈ indices (unionFrom len start end_ ranges) ↔
      i ∈ indices ranges ∨ start ≤ i ∧ i < end_ := by
  induction ranges with
  | nil =>
    rw [unionFrom, if_neg (Nat.not_le.mpr hlen), mem_indices_cons, or_comm]
  | cons first rest ih =>
    obtain ⟨a, b⟩ := first
    rw [unionFrom]
    split_ifs with hpast hbefore hfull
    · rw [mem_indices_cons, mem_indices_cons, ih (separated_cons.mp h).2.2, or_assoc]
    · exact absurd hfull (Nat.not_le.mpr hlen)
    · rw [mem_indices_cons, or_comm]
    · exact mem_absorbed h (Nat.not_lt.mp hbefore) (Nat.not_lt.mp hpast)

/-! ## Difference -/

/-- What is left of the ranges that end behind the start. -/
@[grind =] def cut (start end_ : ℕ) : List (ℕ × ℕ) → List (ℕ × ℕ)
  | [] => []
  | (a, b) :: rest =>
    if a ≥ end_ then (a, b) :: rest
    else if a < start then
      if b > end_ then (a, start) :: (end_, b) :: rest else (a, start) :: cut start end_ rest
    else if b > end_ then (end_, b) :: rest
    else cut start end_ rest

theorem lt_of_mem_cut (h : Separated ranges) (hm : ∀ r ∈ ranges, m < r.1) :
    ∀ r ∈ cut start end_ ranges, m < r.1 := by
  induction ranges with
  | nil => exact hm
  | cons first rest ih =>
    obtain ⟨a, b⟩ := first
    obtain ⟨hfirst, hrest⟩ := List.forall_mem_cons.mp hm
    have hcut := ih (separated_cons.mp h).2.2 hrest
    dsimp only at hfirst
    rw [cut]
    split_ifs with hpast hearly hlong hlong
    · exact hm
    · refine List.forall_mem_cons.mpr ⟨hfirst, List.forall_mem_cons.mpr ⟨?_, hrest⟩⟩
      dsimp only
      omega
    · exact List.forall_mem_cons.mpr ⟨hfirst, hcut⟩
    · refine List.forall_mem_cons.mpr ⟨?_, hrest⟩
      dsimp only
      omega
    · exact hcut

theorem separated_cut (h : Separated ranges) (hlt : start < end_)
    (hstart : ∀ r ∈ ranges, start ≤ r.2) : Separated (cut start end_ ranges) := by
  induction ranges with
  | nil => exact h
  | cons first rest ih =>
    obtain ⟨a, b⟩ := first
    obtain ⟨hab, hafter, hrest⟩ := separated_cons.mp h
    obtain ⟨hb, hstart⟩ := List.forall_mem_cons.mp hstart
    have hcut := ih hrest hstart
    dsimp only at hab hafter hb
    rw [cut]
    split_ifs with hpast hearly hlong hlong
    · exact h
    · refine separated_cons.mpr ⟨hearly, List.forall_mem_cons.mpr ⟨hlt, fun r hr ↦ ?_⟩,
        separated_cons.mpr ⟨hlong, hafter, hrest⟩⟩
      have := hafter r hr
      dsimp only
      omega
    · refine separated_cons.mpr ⟨hearly, lt_of_mem_cut hrest fun r hr ↦ ?_, hcut⟩
      have := hafter r hr
      dsimp only
      omega
    · exact separated_cons.mpr ⟨hlong, hafter, hrest⟩
    · exact hcut

theorem mem_cut (h : Separated ranges) (hlt : start < end_)
    (hstart : ∀ r ∈ ranges, start ≤ r.2) :
    i ∈ indices (cut start end_ ranges) ↔ i ∈ indices ranges ∧ ¬ (start ≤ i ∧ i < end_) := by
  induction ranges with
  | nil => exact ⟨fun hi ↦ absurd hi not_mem_indices_nil, fun hi ↦ absurd hi.1 not_mem_indices_nil⟩
  | cons first rest ih =>
    obtain ⟨a, b⟩ := first
    obtain ⟨hab, hafter, hrest⟩ := separated_cons.mp h
    obtain ⟨hb, hstart⟩ := List.forall_mem_cons.mp hstart
    have hcut := ih hrest hstart
    have hbehind (hi : i ∈ indices rest) : b < i := by
      by_contra hle
      exact not_mem_indices hafter (Nat.not_lt.mp hle) hi
    dsimp only at hab hb
    rw [cut]
    split_ifs with hpast hearly hlong hlong
    · refine ⟨fun hi ↦ ⟨hi, fun hdeleted ↦ ?_⟩, fun hi ↦ hi.1⟩
      rcases mem_indices_cons.mp hi with hi | hi
      · dsimp only at hi
        omega
      · have := hbehind hi
        omega
    · simp only [mem_indices_cons]
      by_cases hi : i ∈ indices rest
      · have := hbehind hi
        simp only [hi, or_true, true_and, true_iff]
        omega
      · simp only [hi, or_false]
        omega
    · simp only [mem_indices_cons, hcut]
      by_cases hi : i ∈ indices rest
      · have := hbehind hi
        simp only [hi, or_true, true_and]
        omega
      · simp only [hi, or_false, false_and]
        omega
    · simp only [mem_indices_cons]
      by_cases hi : i ∈ indices rest
      · have := hbehind hi
        simp only [hi, or_true, true_and, true_iff]
        omega
      · simp only [hi, or_false]
        omega
    · simp only [mem_indices_cons, hcut]
      by_cases hi : i ∈ indices rest
      · simp only [hi, or_true, true_and]
      · simp only [hi, or_false, false_and, false_iff]
        omega

/-- The ranges behind the end are left alone. -/
theorem deleteLoop_done (h : ∀ r ∈ rest, end_ ≤ r.1) (seen : List (ℕ × ℕ)) (delFrom : Option ℕ)
    (delLen : ℕ) :
    deleteLoop start end_ seen rest delFrom delLen = (seen ++ rest, delFrom, delLen) := by
  cases rest with
  | nil => rw [deleteLoop, List.append_nil]
  | cons first rest => exact if_pos (h first List.mem_cons_self)

/-- The end of the function, where the ranges that are marked are removed. -/
def removeMarked : List (ℕ × ℕ) × Option ℕ × ℕ → Option (List (ℕ × ℕ))
  | (ranges, none, _) => some ranges
  | (ranges, some delFrom, delLen) => removeNAt ranges delFrom delLen

/-- Where the first of the ranges to be removed is. -/
def marked (seen deleted : List (ℕ × ℕ)) : Option ℕ :=
  if deleted = [] then none else some seen.length

theorem removeMarked_eq (seen deleted rest : List (ℕ × ℕ)) :
    removeMarked (seen ++ deleted ++ rest, marked seen deleted, deleted.length) =
      some (seen ++ rest) := by
  rw [marked]
  split_ifs with hnil
  · rw [hnil, List.append_nil]
    rfl
  · rw [List.append_assoc]
    exact removeNAt_append

/-- The ranges to be removed follow each other. -/
theorem removeMarked_deleteLoop (h : Separated rest) (seen deleted : List (ℕ × ℕ))
    (hdeleted : deleted = [] ∨ ∀ r ∈ rest, start ≤ r.1) :
    removeMarked (deleteLoop start end_ (seen ++ deleted) rest (marked seen deleted)
      deleted.length) = some (seen ++ cut start end_ rest) := by
  induction rest generalizing seen deleted with
  | nil =>
    have hmarked := removeMarked_eq seen deleted []
    rwa [List.append_nil] at hmarked
  | cons first rest ih =>
    obtain ⟨a, b⟩ := first
    obtain ⟨hab, hafter, hrest⟩ := separated_cons.mp h
    dsimp only at hab hafter
    rw [deleteLoop, cut]
    split_ifs with hpast hearly hlong hlong
    · exact removeMarked_eq seen deleted _
    · obtain rfl : deleted = [] := by
        rcases hdeleted with hnil | hdeleted
        · exact hnil
        · exact absurd (hdeleted _ List.mem_cons_self) (Nat.not_le.mpr hearly)
      exact removeMarked_eq seen [] _
    · obtain rfl : deleted = [] := by
        rcases hdeleted with hnil | hdeleted
        · exact hnil
        · exact absurd (hdeleted _ List.mem_cons_self) (Nat.not_le.mpr hearly)
      have hnext := ih hrest (seen ++ [(a, start)]) [] (.inl rfl)
      rw [List.append_nil, List.append_assoc, List.singleton_append] at hnext
      rw [List.append_nil]
      exact hnext
    · rw [deleteLoop_done fun r hr ↦ (hlong.trans (hafter r hr)).le, List.append_assoc]
      exact removeMarked_eq seen deleted _
    · have hnext := ih hrest seen (deleted ++ [(a, b)]) (.inr fun r hr ↦ by
        have := hafter r hr
        omega)
      have hmarked : (marked seen deleted).or (some (seen ++ deleted).length) =
          marked seen (deleted ++ [(a, b)]) := by
        rw [marked, marked, if_neg (List.concat_ne_nil _ _)]
        split_ifs with hnil
        · rw [hnil, List.append_nil]
          rfl
        · rfl
      rw [List.append_assoc, hmarked, ← hnext, List.length_append]
      rfl

/-- Where the search splits the ranges. -/
theorem exists_separates (h : Separated ranges) (start : ℕ) :
    ∃ pre post, ranges = pre ++ post ∧ Separates pre post (fun r ↦ compare r.2 start) ∧
      (∀ r ∈ pre, r.2 < start) ∧ ∀ r ∈ post, start ≤ r.2 := by
  induction ranges with
  | nil => exact ⟨[], [], rfl, ⟨by simp, by simp, by simp⟩, by simp, by simp⟩
  | cons first rest ih =>
    obtain ⟨a, b⟩ := first
    obtain ⟨hab, hafter, hrest⟩ := separated_cons.mp h
    by_cases hb : b < start
    · obtain ⟨pre, post, rfl, hseparates, hpre, hpost⟩ := ih hrest
      refine ⟨(a, b) :: pre, post, rfl, ⟨?_, hseparates.head, hseparates.after⟩, ?_, hpost⟩
      · exact List.forall_mem_cons.mpr ⟨Nat.compare_eq_lt.mpr hb, hseparates.before⟩
      · exact List.forall_mem_cons.mpr ⟨hb, hpre⟩
    · have hbehind : ∀ r ∈ rest, start < r.2 := by
        intro r hr
        have := hafter r hr
        have := hrest.lt r hr
        dsimp only at *
        omega
      refine ⟨[], (a, b) :: rest, rfl, ⟨by simp, ?_, ?_⟩, by simp, ?_⟩
      · rintro r ⟨⟩
        exact fun hlt ↦ hb (Nat.compare_eq_lt.mp hlt)
      · exact fun r hr ↦ Nat.compare_eq_gt.mpr (hbehind r hr)
      · exact List.forall_mem_cons.mpr ⟨Nat.not_lt.mp hb, fun r hr ↦ (hbehind r hr).le⟩

theorem deleteRange_spec {self : IndexSet} (h : Separated self.ranges) (hlt : start < end_) :
    ∃ result, self.deleteRange start end_ = some result ∧ Separated result.ranges ∧
      ∀ i, i ∈ indices result.ranges ↔ i ∈ indices self.ranges ∧ ¬ (start ≤ i ∧ i < end_) := by
  obtain ⟨pre, post, hranges, hseparates, hpre, hpost⟩ := exists_separates h start
  have hix : (match binarySearchBy self.ranges fun r ↦ compare r.2 start with
      | .ok ix => ix
      | .error ix => ix) = pre.length := by
    rw [hranges, hseparates.binarySearchBy_eq]
    split_ifs <;> rfl
  rw [hranges] at h
  obtain ⟨hpreSeparated, hpostSeparated, hbetween⟩ := separated_append.mp h
  have hloop : removeMarked (deleteLoop start end_ (pre ++ []) post none 0) =
      some (pre ++ cut start end_ post) := removeMarked_deleteLoop hpostSeparated pre [] (.inl rfl)
  refine ⟨⟨pre ++ cut start end_ post⟩, ?_, ?_, fun i ↦ ?_⟩
  · rw [deleteRange, hix, hranges, List.take_left, List.drop_left]
    rw [List.append_nil] at hloop
    generalize deleteLoop start end_ pre post none 0 = loop at hloop ⊢
    obtain ⟨ranges, delFrom, delLen⟩ := loop
    cases delFrom with
    | none => exact congrArg (Option.map IndexSet.mk) hloop
    | some delFrom =>
      dsimp only [removeMarked] at hloop ⊢
      rw [hloop]
      rfl
  · refine separated_append.mpr ⟨hpreSeparated, separated_cut hpostSeparated hlt hpost, ?_⟩
    exact fun r hr ↦ lt_of_mem_cut hpostSeparated (hbetween r hr)
  · dsimp only
    rw [hranges, mem_indices_append, mem_indices_append, mem_cut hpostSeparated hlt hpost,
      or_and_right]
    refine or_congr_left ⟨fun hi ↦ ⟨hi, fun hdeleted ↦ ?_⟩, fun hi ↦ hi.1⟩
    obtain ⟨r, hr, -, hi⟩ := hi
    have := hpre r hr
    omega

/-! ## Deltas -/

variable {α : Type} {delta : Delta α}

theorem separated_applyDeltaFrom {transformer : Transformer α} (h : Separated rest)
    (hcaches : Transformer.Caches delta transformer) (hranges : Separated ranges)
    (hle : ∀ r ∈ ranges, ∀ r' ∈ rest, r.2 ≤ delta.transformFresh r'.1 false) :
    Separated (applyDeltaFrom ranges transformer rest) := by
  induction rest generalizing ranges transformer with
  | nil => exact hranges
  | cons first rest ih =>
    obtain ⟨start, end_⟩ := first
    obtain ⟨hlt, hafter, hrest⟩ := separated_cons.mp h
    obtain ⟨hstart, hcaches⟩ := hcaches.transform start false
    obtain ⟨hend, hcaches⟩ := hcaches.transform end_ false
    have hmono : delta.transformFresh start false ≤ delta.transformFresh end_ false :=
      Transformer.transformFresh_mono (.inl hlt)
    have hnext : ∀ r ∈ rest, delta.transformFresh end_ false ≤ delta.transformFresh r.1 false :=
      fun r hr ↦ Transformer.transformFresh_mono (.inl (hafter r hr))
    have hfirst : ∀ r ∈ ranges, r.2 ≤ delta.transformFresh start false :=
      fun r hr ↦ hle r hr _ List.mem_cons_self
    rw [applyDeltaFrom]
    dsimp only
    rw [hstart, hend]
    by_cases hcollapsed : delta.transformFresh start false = delta.transformFresh end_ false
    · rw [if_pos hcollapsed]
      exact ih hrest hcaches hranges fun r hr r' hr' ↦ hle r hr r' (List.mem_cons_of_mem _ hr')
    · have hproper := Nat.lt_of_le_of_ne hmono hcollapsed
      have hsingleton : Separated [(delta.transformFresh start false,
          delta.transformFresh end_ false)] :=
        separated_cons.mpr ⟨hproper, fun _ hr ↦ absurd hr List.not_mem_nil, separated_nil⟩
      rw [if_neg hcollapsed]
      rcases List.eq_nil_or_concat' ranges with rfl | ⟨init, last, rfl⟩
      · refine ih hrest hcaches hsingleton fun r hr ↦ ?_
        rw [List.mem_singleton.mp hr]
        exact hnext
      · obtain ⟨hinit, hlast, hbetween⟩ := separated_append.mp hranges
        have hlastLt := hlast.lt last List.mem_cons_self
        have hlastLe := hfirst last (List.mem_append_right _ List.mem_cons_self)
        have hinitLt : ∀ r ∈ init, r.2 < last.1 := fun r hr ↦ hbetween r hr last List.mem_cons_self
        rw [List.getLast?_concat]
        dsimp only
        by_cases htouch : last.2 = delta.transformFresh start false
        · rw [if_pos htouch, List.dropLast_concat]
          refine ih hrest hcaches (separated_append.mpr ⟨hinit, ?_, ?_⟩) ?_
          · refine separated_cons.mpr ⟨?_, fun _ hr ↦ absurd hr List.not_mem_nil, separated_nil⟩
            dsimp only
            omega
          · intro r hr r' hr'
            rw [List.mem_singleton.mp hr']
            exact hinitLt r hr
          · intro r hr
            rcases List.mem_append.mp hr with hr | hr
            · intro r' hr'
              have := hinitLt r hr
              have := hnext r' hr'
              omega
            · rw [List.mem_singleton.mp hr]
              exact hnext
        · rw [if_neg htouch]
          refine ih hrest hcaches (separated_append.mpr ⟨hranges, hsingleton, ?_⟩) ?_
          · intro r hr r' hr'
            rw [List.mem_singleton.mp hr']
            dsimp only
            rcases List.mem_append.mp hr with hr | hr
            · have := hinitLt r hr
              omega
            · rw [List.mem_singleton.mp hr]
              exact Nat.lt_of_le_of_ne hlastLe htouch
          · intro r hr
            rcases List.mem_append.mp hr with hr | hr
            · intro r' hr'
              have := hfirst r hr
              have := hnext r' hr'
              omega
            · rw [List.mem_singleton.mp hr]
              exact hnext

theorem separated_applyDelta {self : IndexSet} (h : Separated self.ranges) :
    Separated (self.applyDelta delta).ranges :=
  separated_applyDeltaFrom h (Transformer.caches_new delta) separated_nil
    fun _ hr ↦ absurd hr List.not_mem_nil

/-! ## Runs -/

/-- The sets that the operations lead to. -/
inductive Reachable (α : Type) : IndexSet → Prop
  | new : Reachable α .new
  | unionOneRange {self : IndexSet} (start end_ : ℕ) : Reachable α self → start < end_ →
      Reachable α (self.unionOneRange start end_)
  | deleteRange {self result : IndexSet} (start end_ : ℕ) : Reachable α self → start < end_ →
      self.deleteRange start end_ = some result → Reachable α result
  | applyDelta {self : IndexSet} (delta : Delta α) : Reachable α self →
      Reachable α (self.applyDelta delta)

theorem Reachable.separated {self : IndexSet} (h : Reachable α self) : Separated self.ranges := by
  induction h with
  | new => exact separated_nil
  | unionOneRange start end_ _ hlt ih => exact separated_unionFrom ih hlt
  | deleteRange start end_ _ hlt hresult ih =>
    obtain ⟨result', hresult', hseparated, -⟩ := deleteRange_spec ih hlt
    rw [hresult] at hresult'
    cases hresult'
    exact hseparated
  | applyDelta delta _ ih => exact separated_applyDelta ih

end IndexSet

/-! ## What is missing -/

namespace MinusIter

variable {ranges : List (ℕ × ℕ)} {a b start end_ : ℕ}

/-- The runs that `next` goes through. -/
@[grind =] def gaps (end_ : ℕ) : List (ℕ × ℕ) → ℕ → List (ℕ × ℕ)
  | [], start => if start < end_ then [(start, end_)] else []
  | (a, b) :: rest, start =>
    if start < end_ then
      if end_ ≤ a then [(start, end_)]
      else if a > start then (start, a) :: gaps end_ rest b
      else gaps end_ rest b
    else []

theorem gaps_of_le (h : end_ ≤ start) (ranges : List (ℕ × ℕ)) : gaps end_ ranges start = [] := by
  cases ranges with
  | nil => exact if_neg (Nat.not_lt.mpr h)
  | cons first rest => exact if_neg (Nat.not_lt.mpr h)

/-- The ranges end behind the start, and are not beyond the end. -/
structure Within (iter : MinusIter) : Prop where
  separated : Separated iter.ranges
  start : ∀ r ∈ iter.ranges, iter.start < r.2
  le : ∀ r ∈ iter.ranges, r.1 ≤ iter.end_

theorem le_of_mem_gaps (h : Separated ranges) (hstart : ∀ r ∈ ranges, start < r.2) :
    ∀ r ∈ gaps end_ ranges start, start ≤ r.1 := by
  induction ranges generalizing start with
  | nil =>
    intro r hr
    rw [gaps] at hr
    split_ifs at hr
    · rw [List.mem_singleton.mp hr]
    · exact absurd hr List.not_mem_nil
  | cons first rest ih =>
    obtain ⟨a, b⟩ := first
    obtain ⟨hab, hafter, hrest⟩ := separated_cons.mp h
    have hb : start < b := hstart _ List.mem_cons_self
    have hgaps : ∀ r ∈ gaps end_ rest b, start ≤ r.1 := fun r hr ↦
      hb.le.trans (ih hrest (fun r hr ↦ (hafter r hr).trans (hrest.lt r hr)) r hr)
    rw [gaps]
    split_ifs
    · exact List.forall_mem_singleton.mpr (Nat.le_refl _)
    · exact List.forall_mem_cons.mpr ⟨Nat.le_refl _, hgaps⟩
    · exact hgaps
    · exact fun _ hr ↦ absurd hr List.not_mem_nil

theorem separated_gaps (h : Separated ranges) : Separated (gaps end_ ranges start) := by
  induction ranges generalizing start with
  | nil =>
    rw [gaps]
    split_ifs with hlt
    · exact separated_cons.mpr ⟨hlt, fun _ hr ↦ absurd hr List.not_mem_nil, separated_nil⟩
    · exact separated_nil
  | cons first rest ih =>
    obtain ⟨a, b⟩ := first
    obtain ⟨hab, hafter, hrest⟩ := separated_cons.mp h
    rw [gaps]
    split_ifs with hlt hpast hearly
    · exact separated_cons.mpr ⟨hlt, fun _ hr ↦ absurd hr List.not_mem_nil, separated_nil⟩
    · refine separated_cons.mpr ⟨hearly, fun r hr ↦ ?_, ih hrest⟩
      exact hab.trans_le
        (le_of_mem_gaps hrest (fun r hr ↦ (hafter r hr).trans (hrest.lt r hr)) r hr)
    · exact ih hrest
    · exact separated_nil

theorem mem_gaps (h : Separated ranges) (hstart : ∀ r ∈ ranges, start < r.2) {i : ℕ} :
    i ∈ indices (gaps end_ ranges start) ↔ (start ≤ i ∧ i < end_) ∧ i ∉ indices ranges := by
  induction ranges generalizing start with
  | nil =>
    rw [gaps]
    split_ifs with hlt
    · simp only [mem_indices_cons, not_mem_indices_nil, or_false, not_false_iff, and_true]
    · simp only [not_mem_indices_nil, not_false_iff, and_true, false_iff]
      omega
  | cons first rest ih =>
    obtain ⟨a, b⟩ := first
    obtain ⟨hab, hafter, hrest⟩ := separated_cons.mp h
    have hb : start < b := hstart _ List.mem_cons_self
    have hgaps : i ∈ indices (gaps end_ rest b) ↔ _ :=
      ih hrest fun r hr ↦ (hafter r hr).trans (hrest.lt r hr)
    have hbehind (hi : i ∈ indices rest) : b < i := by
      by_contra hle
      exact not_mem_indices hafter (Nat.not_lt.mp hle) hi
    dsimp only at hab
    rw [gaps]
    split_ifs with hlt hpast hearly
    · simp only [mem_indices_cons, not_mem_indices_nil, or_false]
      refine ⟨fun hi ↦ ⟨hi, ?_⟩, fun hi ↦ hi.1⟩
      rintro (hfirst | hi')
      · omega
      · have := hbehind hi'
        omega
    · simp only [mem_indices_cons, hgaps]
      by_cases hi : i ∈ indices rest
      · have := hbehind hi
        simp only [hi, or_true, not_true, and_false, or_false, iff_false]
        omega
      · simp only [hi, or_false, not_false_iff, and_true]
        omega
    · simp only [mem_indices_cons, hgaps]
      by_cases hi : i ∈ indices rest
      · simp only [hi, or_true, not_true, and_false]
      · simp only [hi, or_false, not_false_iff, and_true]
        omega
    · simp only [not_mem_indices_nil, false_iff]
      omega

theorem nextFrom_eq (end_ : ℕ) (ranges : List (ℕ × ℕ)) (start : ℕ) :
    (nextFrom end_ ranges start).1 = (gaps end_ ranges start).head? ∧
      (nextFrom end_ ranges start).2.end_ = end_ ∧
      gaps end_ (nextFrom end_ ranges start).2.ranges (nextFrom end_ ranges start).2.start =
        (gaps end_ ranges start).tail := by
  induction ranges generalizing start with
  | nil =>
    rw [nextFrom, gaps]
    split_ifs with hlt
    · exact ⟨rfl, rfl, gaps_of_le (Nat.le_refl _) _⟩
    · exact ⟨rfl, rfl, gaps_of_le (Nat.not_lt.mp hlt) _⟩
  | cons first rest ih =>
    obtain ⟨a, b⟩ := first
    rw [nextFrom, gaps]
    split_ifs with hlt hpast hearly
    · exact ⟨rfl, rfl, gaps_of_le (Nat.le_refl _) _⟩
    · exact ⟨rfl, rfl, rfl⟩
    · exact ih b
    · exact ⟨rfl, rfl, gaps_of_le (Nat.not_lt.mp hlt) _⟩

theorem Within.nextFrom (h : Within ⟨ranges, start, end_⟩) :
    Within (MinusIter.nextFrom end_ ranges start).2 := by
  induction ranges generalizing start with
  | nil =>
    rw [MinusIter.nextFrom]
    split_ifs
    · exact ⟨h.separated, fun _ hr ↦ absurd hr List.not_mem_nil, h.le⟩
    · exact h
  | cons first rest ih =>
    obtain ⟨a, b⟩ := first
    obtain ⟨hab, hafter, hrest⟩ := separated_cons.mp h.separated
    have hnext : Within ⟨rest, b, end_⟩ :=
      ⟨hrest, fun r hr ↦ (hafter r hr).trans (hrest.lt r hr),
        fun r hr ↦ h.le r (List.mem_cons_of_mem _ hr)⟩
    dsimp only at hab hafter
    rw [MinusIter.nextFrom]
    split_ifs with hlt hpast
    · refine ⟨h.separated, List.forall_mem_cons.mpr ⟨hpast.trans_lt hab, fun r hr ↦ ?_⟩, h.le⟩
      have := hafter r hr
      have := hrest.lt r hr
      dsimp only
      omega
    · exact hnext
    · exact ih hnext
    · exact h

/-- The last range leaves the runs before it and the one behind it. -/
theorem gaps_concat (h : Within ⟨ranges ++ [(a, b)], start, end_⟩) :
    gaps end_ (ranges ++ [(a, b)]) start =
      gaps a ranges start ++ if b < end_ then [(b, end_)] else [] := by
  have hle : a ≤ end_ := h.le (a, b) (List.mem_append_right _ List.mem_cons_self)
  have hab : a < b := h.separated.lt (a, b) (List.mem_append_right _ List.mem_cons_self)
  induction ranges generalizing start with
  | nil =>
    have hb : start < b := h.start _ List.mem_cons_self
    rw [List.nil_append, gaps, gaps, gaps]
    by_cases hlt : start < end_
    · rw [if_pos hlt]
      by_cases hpast : end_ ≤ a
      · obtain rfl := Nat.le_antisymm hle hpast
        rw [if_pos hpast, if_pos hlt, if_neg (by omega), List.append_nil]
      · rw [if_neg hpast]
        split_ifs <;> rfl
    · rw [if_neg hlt, if_neg (by omega), if_neg (by omega), List.append_nil]
  | cons first rest ih =>
    obtain ⟨c, d⟩ := first
    obtain ⟨hcd, hafter, hrest⟩ := separated_cons.mp h.separated
    have hd : start < d := h.start _ List.mem_cons_self
    have hda : d < a := hafter (a, b) (List.mem_append_right _ List.mem_cons_self)
    have hnext : Within ⟨rest ++ [(a, b)], d, end_⟩ :=
      ⟨hrest, fun r hr ↦ (hafter r hr).trans (hrest.lt r hr),
        fun r hr ↦ h.le r (List.mem_cons_of_mem _ hr)⟩
    dsimp only at hcd
    have hlt : start < end_ := by omega
    have hpast : ¬ end_ ≤ c := by omega
    have hlt' : start < a := by omega
    have hpast' : ¬ a ≤ c := by omega
    rw [List.cons_append, gaps, gaps, if_pos hlt, if_neg hpast, if_pos hlt', if_neg hpast',
      ih hnext]
    split_ifs <;> rfl

theorem Within.nextBackFrom {reversed : List (ℕ × ℕ)}
    (h : Within ⟨reversed.reverse, start, end_⟩) :
    (MinusIter.nextBackFrom start reversed end_).1 =
        (gaps end_ reversed.reverse start).getLast? ∧
      Within (MinusIter.nextBackFrom start reversed end_).2 ∧
      gaps (MinusIter.nextBackFrom start reversed end_).2.end_
          (MinusIter.nextBackFrom start reversed end_).2.ranges
          (MinusIter.nextBackFrom start reversed end_).2.start =
        (gaps end_ reversed.reverse start).dropLast := by
  induction reversed generalizing end_ with
  | nil =>
    rw [MinusIter.nextBackFrom, List.reverse_nil, gaps]
    split_ifs with hlt
    · exact ⟨rfl, ⟨h.separated, fun _ hr ↦ absurd hr List.not_mem_nil, h.le⟩,
        gaps_of_le (Nat.le_refl _) _⟩
    · exact ⟨rfl, h, gaps_of_le (Nat.not_lt.mp hlt) _⟩
  | cons last before ih =>
    obtain ⟨a, b⟩ := last
    rw [List.reverse_cons] at h ⊢
    obtain ⟨hbefore, -, hbetween⟩ := separated_append.mp h.separated
    have hb : start < b := h.start (a, b) (List.mem_append_right _ List.mem_cons_self)
    have hprevious : Within ⟨before.reverse, start, a⟩ :=
      ⟨hbefore, fun r hr ↦ h.start r (List.mem_append_left _ hr), fun r hr ↦
        ((hbefore.lt r hr).trans (hbetween r hr (a, b) List.mem_cons_self)).le⟩
    rw [MinusIter.nextBackFrom, gaps_concat h]
    by_cases hlt : start < end_
    · rw [if_pos hlt, if_neg (Nat.not_le.mpr hb)]
      by_cases hend : end_ > b
      · rw [if_pos hend, if_pos hend, List.getLast?_concat, List.dropLast_concat]
        exact ⟨rfl, hprevious, rfl⟩
      · rw [if_neg hend, if_neg hend, List.append_nil]
        exact ih hprevious
    · rw [if_neg hlt, ← gaps_concat h, gaps_of_le (Nat.not_lt.mp hlt), List.reverse_cons]
      exact ⟨rfl, h, gaps_of_le (Nat.not_lt.mp hlt) _⟩

/-- Consumed from both ends, the iterator is the list of the runs. -/
theorem Within.consume {self : MinusIter} (h : Within self) (calls : List End) :
    EeEditor.consume next nextBack calls self =
      takeEnds calls (gaps self.end_ self.ranges self.start) := by
  refine consume_eq (R := fun self runs ↦ Within self ∧
    runs = gaps self.end_ self.ranges self.start) ?_ ?_ calls ⟨h, rfl⟩
  · rintro self _ ⟨h, rfl⟩
    obtain ⟨hhead, hend, htail⟩ := nextFrom_eq self.end_ self.ranges self.start
    refine ⟨hhead, h.nextFrom, ?_⟩
    rw [next, hend]
    exact htail.symm
  · rintro self _ ⟨h, rfl⟩
    have hback : Within ⟨self.ranges.reverse.reverse, self.start, self.end_⟩ := by
      rwa [List.reverse_reverse]
    obtain ⟨hlast, hwithin, hinit⟩ := hback.nextBackFrom
    rw [List.reverse_reverse] at hlast hinit
    exact ⟨hlast, hwithin, hinit.symm⟩

theorem next_of_le {iter : MinusIter} (h : iter.end_ ≤ iter.start) : iter.next = (none, iter) := by
  obtain ⟨ranges, start, end_⟩ := iter
  rw [next]
  cases ranges with
  | nil => exact if_neg (Nat.not_lt.mpr h)
  | cons first rest => exact if_neg (Nat.not_lt.mpr h)

theorem nextBack_of_le {iter : MinusIter} (h : iter.end_ ≤ iter.start) :
    iter.nextBack = (none, iter) := by
  obtain ⟨ranges, start, end_⟩ := iter
  rw [nextBack]
  dsimp only at h ⊢
  cases hreversed : ranges.reverse with
  | nil =>
    rw [List.reverse_eq_nil_iff.mp hreversed]
    exact if_neg (Nat.not_lt.mpr h)
  | cons last before =>
    rw [nextBackFrom, if_neg (Nat.not_lt.mpr h), ← hreversed, List.reverse_reverse]

/-- A range that begins beyond the end makes the end later. -/
theorem nextBackFrom_beyond {reversed : List (ℕ × ℕ)} (h : Separated reversed.reverse)
    (hstart : ∀ r ∈ reversed, start < r.2) (hlt : start < end_)
    (hbeyond : ∃ r ∈ reversed, end_ < r.1) :
    ∃ x y, (nextBackFrom start reversed end_).1 = some (x, y) ∧ end_ < y := by
  cases reversed with
  | nil =>
    obtain ⟨r, hr, -⟩ := hbeyond
    exact absurd hr List.not_mem_nil
  | cons last before =>
    obtain ⟨a, b⟩ := last
    rw [List.reverse_cons] at h
    obtain ⟨-, hlast, hbetween⟩ := separated_append.mp h
    have hab : a < b := hlast.lt _ List.mem_cons_self
    have hend : end_ < a := by
      obtain ⟨r, hr, hr'⟩ := hbeyond
      rcases List.mem_cons.mp hr with rfl | hr
      · exact hr'
      · have := hbetween r (List.mem_reverse.mpr hr) (a, b) List.mem_cons_self
        have := h.lt r (List.mem_append_left _ (List.mem_reverse.mpr hr))
        dsimp only at *
        omega
    have hb : ¬ b ≤ start := by omega
    have hshort : ¬ end_ > b := by omega
    rw [nextBackFrom, if_pos hlt, if_neg hb, if_neg hshort]
    -- what is yielded ends at the range that was passed
    cases before with
    | nil => exact ⟨start, a, congrArg Prod.fst (if_pos (hlt.trans hend)), hend⟩
    | cons last' before =>
      obtain ⟨c, d⟩ := last'
      have hd : start < d := hstart (c, d) (List.mem_cons_of_mem _ List.mem_cons_self)
      have hda : d < a := hbetween (c, d) (by simp) (a, b) List.mem_cons_self
      refine ⟨d, a, ?_, hend⟩
      rw [nextBackFrom, if_pos (hlt.trans hend), if_neg (Nat.not_le.mpr hd), if_pos hda]

end MinusIter

namespace IndexSet

variable {self : IndexSet} {start end_ : ℕ}

/-- The ranges that end before the start are passed over. -/
theorem minusOneRange_ranges (h : Separated self.ranges) (start end_ : ℕ) :
    ∃ pre, self.ranges = pre ++ (self.minusOneRange start end_).ranges ∧
      (∀ r ∈ pre, r.2 ≤ start) ∧ ∀ r ∈ (self.minusOneRange start end_).ranges, start < r.2 := by
  obtain ⟨ranges⟩ := self
  rw [minusOneRange]
  dsimp only at h ⊢
  induction ranges with
  | nil => exact ⟨[], rfl, by simp, by simp⟩
  | cons first rest ih =>
    obtain ⟨hlt, hafter, hrest⟩ := separated_cons.mp h
    by_cases hpast : start ≥ first.2
    · obtain ⟨pre, hpre, hends, hstart⟩ := ih hrest
      rw [List.dropWhile_cons, if_pos (decide_eq_true hpast)]
      exact ⟨first :: pre, congrArg (first :: ·) hpre, List.forall_mem_cons.mpr ⟨hpast, hends⟩,
        hstart⟩
    · rw [List.dropWhile_cons, if_neg (by simpa using hpast)]
      refine ⟨[], rfl, by simp, List.forall_mem_cons.mpr ⟨Nat.not_le.mp hpast, fun r hr ↦ ?_⟩⟩
      have := hafter r hr
      have := hrest.lt r hr
      omega

/-- The set is a set of indices, for the operations on the range from `start` to `end_`. -/
structure IsIndexSet (set : IndexSet) (start end_ : ℕ) : Prop where
  union : start < end_ → Separated (set.unionOneRange start end_).ranges ∧
    indices (set.unionOneRange start end_).ranges = indices set.ranges ∪ Set.Ico start end_
  difference : start < end_ → ∃ result, set.deleteRange start end_ = some result ∧
    Separated result.ranges ∧ indices result.ranges = indices set.ranges \ Set.Ico start end_
  minus : ∃ runs : List (ℕ × ℕ), runs.Pairwise (fun r r' ↦ r.2 < r'.1) ∧
    (∀ r, r ∈ runs ↔ MaximalRun (Set.Ico start end_ \ indices set.ranges) r) ∧
    ∀ calls, consume MinusIter.next MinusIter.nextBack calls (set.minusOneRange start end_) =
      takeEnds calls runs

theorem minus_spec (h : Separated self.ranges)
    (hend : end_ ≤ start ∨ ∀ r ∈ self.ranges, r.1 ≤ end_) :
    ∃ runs : List (ℕ × ℕ), runs.Pairwise (fun r r' ↦ r.2 < r'.1) ∧
      (∀ r, r ∈ runs ↔ MaximalRun (Set.Ico start end_ \ indices self.ranges) r) ∧
      ∀ calls, consume MinusIter.next MinusIter.nextBack calls (self.minusOneRange start end_) =
        takeEnds calls runs := by
  by_cases hempty : end_ ≤ start
  · refine ⟨[], .nil, fun r ↦ ⟨fun hr ↦ absurd hr List.not_mem_nil, fun hrun ↦ ?_⟩, fun calls ↦ ?_⟩
    · have hmem := (hrun.subset ⟨Nat.le_refl _, hrun.lt⟩).1
      exact absurd (hmem.1.trans_lt hmem.2) (Nat.not_lt.mpr hempty)
    · refine consume_eq (R := fun iter runs ↦ iter = self.minusOneRange start end_ ∧ runs = [])
        ?_ ?_ calls ⟨rfl, rfl⟩
      · rintro _ _ ⟨rfl, rfl⟩
        have hnext : (self.minusOneRange start end_).next = _ := MinusIter.next_of_le hempty
        exact ⟨congrArg Prod.fst hnext, congrArg Prod.snd hnext, rfl⟩
      · rintro _ _ ⟨rfl, rfl⟩
        have hback : (self.minusOneRange start end_).nextBack = _ :=
          MinusIter.nextBack_of_le hempty
        exact ⟨congrArg Prod.fst hback, congrArg Prod.snd hback, rfl⟩
  · have hend := hend.resolve_left hempty
    obtain ⟨pre, hranges, hpre, hstart⟩ := minusOneRange_ranges h start end_
    have hseparated : Separated (self.minusOneRange start end_).ranges := by
      rw [hranges] at h
      exact (separated_append.mp h).2.1
    have hwithin : (self.minusOneRange start end_).Within := by
      refine ⟨hseparated, hstart, fun r hr ↦ hend r ?_⟩
      rw [hranges]
      exact List.mem_append_right _ hr
    have hgaps : Separated (MinusIter.gaps end_ _ start) := MinusIter.separated_gaps hseparated
    have hindices : indices (MinusIter.gaps end_ (self.minusOneRange start end_).ranges start) =
        Set.Ico start end_ \ indices self.ranges := by
      ext i
      rw [MinusIter.mem_gaps hseparated hstart, Set.mem_sdiff, Set.mem_Ico, hranges,
        mem_indices_append]
      refine and_congr_right fun hi ↦ not_congr ⟨.inr, fun hi' ↦ hi'.resolve_left ?_⟩
      rintro ⟨r, hr, -, hlt⟩
      have := hpre r hr
      omega
    refine ⟨_, hgaps.pairwise, fun r ↦ ?_, hwithin.consume⟩
    rw [← hindices]
    exact hgaps.mem_iff

theorem isIndexSet_of_le (h : Separated self.ranges) (hlen : self.ranges.length < MAX_RANGES)
    (hend : end_ ≤ start ∨ ∀ r ∈ self.ranges, r.1 ≤ end_) : IsIndexSet self start end_ := by
  refine ⟨fun hlt ↦ ⟨separated_unionFrom h hlt, ?_⟩, fun hlt ↦ ?_, minus_spec h hend⟩
  · ext i
    exact mem_unionFrom h hlen
  · obtain ⟨result, hresult, hseparated, hindices⟩ := deleteRange_spec h hlt
    exact ⟨result, hresult, hseparated, Set.ext hindices⟩

/-- A single step back shows a range that begins beyond the end. -/
theorem IsIndexSet.le (hset : IsIndexSet self start end_) (h : Separated self.ranges) :
    end_ ≤ start ∨ ∀ r ∈ self.ranges, r.1 ≤ end_ := by
  obtain ⟨-, -, runs, -, hruns, hconsume⟩ := hset
  by_contra hbeyond
  push Not at hbeyond
  obtain ⟨hlt, r, hr, hr'⟩ := hbeyond
  obtain ⟨pre, hranges, hpre, hstart⟩ := minusOneRange_ranges h start end_
  rw [hranges] at h hr
  have hmem : r ∈ (self.minusOneRange start end_).ranges := by
    rcases List.mem_append.mp hr with hr | hr
    · have := hpre r hr
      have := h.lt r (List.mem_append_left _ hr)
      omega
    · exact hr
  have hseparated : Separated (self.minusOneRange start end_).ranges.reverse.reverse := by
    rw [List.reverse_reverse]
    exact (separated_append.mp h).2.1
  obtain ⟨x, y, hyield, hy⟩ := MinusIter.nextBackFrom_beyond hseparated
    (fun r hr ↦ hstart r (List.mem_reverse.mp hr)) hlt ⟨r, List.mem_reverse.mpr hmem, hr'⟩
  have hlast : some (x, y) = runs.getLast? := by
    rw [← hyield]
    exact List.head_eq_of_cons_eq (hconsume [.back])
  have hrun := (hruns (x, y)).mp (List.mem_of_getLast? hlast.symm)
  have hxy : x < y := hrun.lt
  have hyIn : y - 1 ∈ Set.Ico (x, y).1 (x, y).2 := ⟨by dsimp only; omega, by dsimp only; omega⟩
  have hyLt := (hrun.subset hyIn).1.2
  omega

/-- The operations are those of a set, but for ranges that begin beyond the end of what is taken. -/
theorem isIndexSet_iff {α : Type} {self : IndexSet} (h : Reachable α self)
    (hlen : self.ranges.length < MAX_RANGES) (start end_ : ℕ) :
    IsIndexSet self start end_ ↔ end_ ≤ start ∨ ∀ r ∈ self.ranges, r.1 ≤ end_ :=
  ⟨fun hset ↦ hset.le h.separated, isIndexSet_of_le h.separated hlen⟩

theorem isIndexSet_iff_one : IsIndexSet (new.unionOneRange 3 5) 0 10 ↔
    10 ≤ 0 ∨ ∀ r ∈ (new.unionOneRange 3 5).ranges, r.1 ≤ 10 :=
  isIndexSet_iff (.unionOneRange 3 5 (.new : Reachable ℕ new) (by decide)) (by decide) 0 10

theorem not_isIndexSet : ((new.unionOneRange 7 9).minusOneRange 0 5).nextBack.1 = some (0, 7) ∧
    ¬ ∀ (self : IndexSet) (start end_ : ℕ), Reachable ℕ self → self.ranges.length < MAX_RANGES →
      IsIndexSet self start end_ := by
  refine ⟨by decide, fun h ↦ ?_⟩
  have hreachable : Reachable ℕ (new.unionOneRange 7 9) := .unionOneRange 7 9 .new (by decide)
  have hset := h (new.unionOneRange 7 9) 0 5 hreachable (by decide)
  exact absurd (hset.le hreachable.separated) (by decide)

end IndexSet

end EeEditor
