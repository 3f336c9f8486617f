import EeEditor.Rope.Synthesize
import EeEditor.Sequence.Insertion

/-!
# Insert-only deltas as scripts

An `InsertDelta` copies all of its base in order, so what it does is a script of
`EeEditor.Sequence.Insertion`: `InsertDelta.Realizes d s`. Each transform of
`EeEditor.Rope.Delta` realizes the corresponding transform of scripts.
-/

namespace EeEditor

variable {α : Type} {els : List (DeltaElement α)} {p q r : ℕ}

open Script

/-! ## The script of an element list -/

/-- The script of one element: kept elements for a `Copy`, new ones for an `Insert`. -/
def DeltaElement.items : DeltaElement α → List (Option α)
  | .copy beg end_ => List.replicate (end_ - beg) none
  | .insert n => n.map some

def itemsOf (els : List (DeltaElement α)) : List (Option α) := els.flatMap DeltaElement.items

@[simp] theorem itemsOf_nil : itemsOf ([] : List (DeltaElement α)) = [] := rfl

@[simp] theorem itemsOf_cons (el : DeltaElement α) (els : List (DeltaElement α)) :
    itemsOf (el :: els) = el.items ++ itemsOf els := rfl

@[simp] theorem itemsOf_append (els els' : List (DeltaElement α)) :
    itemsOf (els ++ els') = itemsOf els ++ itemsOf els' := List.flatMap_append

/-- Element lists that copy `p..q` in order without a gap, in non-empty pieces. -/
def Chained : ℕ → List (DeltaElement α) → ℕ → Prop
  | p, [], q => p = q
  | p, .copy b e :: els, q => b = p ∧ b < e ∧ Chained e els q
  | p, .insert n :: els, q => n ≠ [] ∧ Chained p els q

theorem Chained.append {els' : List (DeltaElement α)} (h' : Chained q els' r)
    (h : Chained p els q) : Chained p (els ++ els') r := by
  induction els generalizing p with
  | nil => obtain rfl : p = q := h; exact h'
  | cons el els ih =>
    cases el with
    | copy b e => exact ⟨h.1, h.2.1, ih h.2.2⟩
    | insert n => exact ⟨h.1, ih h.2⟩

theorem Chained.le (h : Chained p els q) : p ≤ q := by
  induction els generalizing p with
  | nil => exact (h : p = q).le
  | cons el els ih =>
    cases el with
    | copy b e => have := ih h.2.2; have := h.1; have := h.2.1; omega
    | insert n => exact ih h.2

theorem Chained.append_copy (h : Chained p els q) (hr : q < r) :
    Chained p (els ++ [.copy q r]) r :=
  Chained.append (show Chained q [.copy q r] r from ⟨rfl, hr, rfl⟩) h

theorem Chained.append_insert (h : Chained p els q) {n : List α} (hn : n ≠ []) :
    Chained p (els ++ [.insert n]) q :=
  Chained.append (show Chained q [.insert n] q from ⟨hn, rfl⟩) h

theorem Chained.kept_items (h : Chained p els q) : kept (itemsOf els) = q - p := by
  induction els generalizing p with
  | nil => obtain rfl : p = q := h; simp
  | cons el els ih =>
    cases el with
    | copy b e =>
      obtain ⟨rfl, hlt, h⟩ := h
      have := h.le
      rw [itemsOf_cons, kept_append, ih h, DeltaElement.items, kept_replicate_none]
      omega
    | insert n =>
      rw [itemsOf_cons, kept_append, ih h.2, DeltaElement.items, kept_map_some, Nat.zero_add]

/-- Close the pending copy `q..r`, if there is one. -/
theorem Chained.close (h : Chained p els q) (hr : q ≤ r) :
    Chained p (if r > q then els ++ [.copy q r] else els) r ∧
      itemsOf (if r > q then els ++ [.copy q r] else els)
        = itemsOf els ++ List.replicate (r - q) none := by
  split
  · next hlt => exact ⟨h.append_copy hlt, by simp [DeltaElement.items]⟩
  · next hge =>
    obtain rfl : q = r := by omega
    exact ⟨h, by simp⟩

/-- An insert-only delta that does what the script says. -/
structure InsertDelta.Realizes (d : InsertDelta α) (s : List (Option α)) : Prop where
  chained : Chained 0 d.delta.els d.delta.baseLen
  items : itemsOf d.delta.els = s

theorem InsertDelta.Realizes.kept {d : InsertDelta α} {s : List (Option α)} (h : d.Realizes s) :
    Script.kept s = d.delta.baseLen := by
  rw [← h.items, h.chained.kept_items, Nat.sub_zero]

/-! ## What a delta inserts -/

theorem InsertDelta.foldlM_insertedStep (h : Chained p els q) (sb : SubsetBuilder) :
    ∃ sb', els.foldlM insertedStep sb = some sb' ∧
      sb'.counts = sb.counts ++ mask (itemsOf els) := by
  induction els generalizing p sb with
  | nil => exact ⟨sb, rfl, by simp [mask]⟩
  | cons el els ih =>
    cases el with
    | copy b e =>
      have hpos : 0 < e - b := Nat.sub_pos_of_lt h.2.1
      obtain ⟨sb', hf, hc⟩ := ih h.2.2 (sb.pushPos hpos 0)
      refine ⟨sb', ?_, ?_⟩
      · rw [List.foldlM_cons, insertedStep, SubsetBuilder.pushSegment_of_pos sb hpos]
        exact hf
      · rw [hc, SubsetBuilder.counts_pushPos, itemsOf_cons, mask, mask, List.map_append,
          List.append_assoc]
        simp [DeltaElement.items]
    | insert n =>
      have hpos : 0 < n.length := List.length_pos_of_ne_nil h.1
      obtain ⟨sb', hf, hc⟩ := ih h.2 (sb.pushPos hpos 1)
      refine ⟨sb', ?_, ?_⟩
      · rw [List.foldlM_cons, insertedStep, SubsetBuilder.pushSegment_of_pos sb hpos]
        exact hf
      · rw [hc, SubsetBuilder.counts_pushPos, itemsOf_cons, mask, mask, List.map_append,
          List.append_assoc]
        congr 2
        rw [DeltaElement.items, List.map_map, ← List.map_const']
        rfl

theorem InsertDelta.Realizes.insertedSubset_eq {d : InsertDelta α} {s : List (Option α)}
    (h : d.Realizes s) : d.insertedSubset = some (Subset.ofCounts (mask s)) := by
  obtain ⟨sb, hf, hc⟩ := InsertDelta.foldlM_insertedStep h.chained SubsetBuilder.new
  rw [InsertDelta.insertedSubset, hf]
  simp [SubsetBuilder.build_eq, hc, h.items]

/-! ## Expanding -/

namespace InsertDelta

/-- The ranges of the zero positions of `xs` from position `c` on. -/
def Zones (xs : List ℕ) : ℕ → List (ℕ × ℕ) → Prop
  | c, [] => ∀ y ∈ xs.drop c, y ≠ 0
  | c, (a, b) :: rs => max a c < b ∧ b ≤ xs.length ∧ Zones xs b rs ∧
      ∃ ys : List ℕ, (∀ y ∈ ys, y ≠ 0) ∧ ys.length = a - c ∧
        xs.drop c = ys ++ (List.replicate (b - max a c) 0 ++ xs.drop b)

private theorem drop_of_drop_eq_append {xs ys zs : List ℕ} {c : ℕ} (h : xs.drop c = ys ++ zs) :
    xs.drop (c + ys.length) = zs := by
  rw [← List.drop_drop, h, List.drop_left]

theorem zones_rangesFrom (xs : List ℕ) (segs : List Segment) (hpos : ∀ s ∈ segs, 0 < s.len) :
    ∀ c : ℕ, xs.drop c = Run.expand segs → Zones xs c (Subset.rangesFrom .zero c segs) := by
  induction segs with
  | nil => intro c h; simp [Subset.rangesFrom, Zones, h]
  | cons seg segs ih =>
    intro c h
    have hseg : 0 < seg.len := hpos seg (by simp)
    have hpos' : ∀ s ∈ segs, 0 < s.len := fun s hs ↦ hpos s (by simp [hs])
    rw [Run.expand_cons] at h
    have hdrop : xs.drop (c + seg.len) = Run.expand segs := by
      simpa using drop_of_drop_eq_append h
    have hlen : xs.length - c = seg.len + (Run.expand segs).length := by
      simpa using congrArg List.length h
    have hrest := ih hpos' _ hdrop
    rw [Subset.rangesFrom]
    by_cases hz : seg.val = 0
    · rw [if_pos (by simp [CountMatcher.matches, Segment.count, hz])]
      refine ⟨by omega, by omega, hrest, [], by simp, by simp, ?_⟩
      rw [h, hdrop, hz, max_self, Nat.add_sub_cancel_left, List.nil_append]
    · rw [if_neg (by simp [CountMatcher.matches, Segment.count, hz])]
      have hne : ∀ y ∈ List.replicate seg.len seg.val, y ≠ 0 :=
        fun y hy ↦ (List.eq_of_mem_replicate hy) ▸ hz
      have hbounds := Subset.rangesFrom_bounds .zero segs hpos' (c + seg.len)
      generalize Subset.rangesFrom .zero (c + seg.len) segs = rs at hrest hbounds
      -- the stretch of the segment is put in front of the first range
      cases rs with
      | nil =>
        intro y hy
        rw [h, ← hdrop] at hy
        rcases List.mem_append.mp hy with hy | hy
        · exact hne y hy
        · exact hrest y hy
      | cons r rs =>
        obtain ⟨a, b⟩ := r
        obtain ⟨h1, h2, h3, ys, hys, hylen, hyeq⟩ := hrest
        have ha : c + seg.len ≤ a := (hbounds (a, b) (by simp)).1
        refine ⟨by omega, h2, h3, List.replicate seg.len seg.val ++ ys, ?_, ?_, ?_⟩
        · intro y hy
          rcases List.mem_append.mp hy with hy | hy
          · exact hne y hy
          · exact hys y hy
        · rw [List.length_append, List.length_replicate, hylen]
          omega
        · rw [max_eq_left (by omega), h, ← hdrop, hyeq, max_eq_left ha, List.append_assoc]

theorem Zones.jump {xs : List ℕ} {c : ℕ} : ∀ {rs : List (ℕ × ℕ)}, Zones xs c rs →
    c ≤ nextRangeStart xs.length rs → Zones xs (nextRangeStart xs.length rs) rs ∧
    nextRangeStart xs.length rs ≤ xs.length ∧
      ∃ ys, (∀ y ∈ ys, y ≠ 0) ∧ ys.length = nextRangeStart xs.length rs - c ∧
        xs.drop c = ys ++ xs.drop (nextRangeStart xs.length rs) := by
  intro rs h hc
  cases rs with
  | nil =>
    have hnil : xs.drop xs.length = [] := List.drop_length
    refine ⟨by simp [Zones, nextRangeStart], le_refl _, xs.drop c, h, by simp [nextRangeStart], ?_⟩
    rw [nextRangeStart, hnil, List.append_nil]
  | cons r rs =>
    obtain ⟨a, b⟩ := r
    obtain ⟨h1, h2, h3, ys, hys, hlen, heq⟩ := h
    have hca : c ≤ a := hc
    have hdrop : xs.drop a = List.replicate (b - max a c) 0 ++ xs.drop b := by
      have := drop_of_drop_eq_append heq
      rwa [hlen, Nat.add_sub_cancel' hca] at this
    rw [max_eq_left hca] at hdrop heq
    change Zones xs a _ ∧ a ≤ xs.length ∧ ∃ ys, _ ∧ ys.length = a - c ∧ xs.drop c = ys ++ xs.drop a
    refine ⟨⟨by omega, h2, h3, [], by simp, by simp, ?_⟩, by omega, ys, hys, hlen, ?_⟩
    · rw [max_self, hdrop, List.nil_append]
    · rw [heq, hdrop]

/-- Inside a range the positions up to its end are zero. -/
theorem Zones.inside {xs : List ℕ} {c a b : ℕ} {rs : List (ℕ × ℕ)} (h : Zones xs c ((a, b) :: rs))
    (hac : a ≤ c) {m : ℕ} (hm : c ≤ m) (hmb : m ≤ b) :
    xs.drop c = List.replicate (m - c) 0 ++ xs.drop m ∧
      Zones xs m (if m = b then rs else (a, b) :: rs) := by
  obtain ⟨h1, h2, h3, ys, -, hlen, heq⟩ := h
  obtain rfl : ys = [] := List.eq_nil_of_length_eq_zero (by omega)
  rw [List.nil_append, max_eq_right hac] at heq
  have hsplit : xs.drop c = List.replicate (m - c) 0
      ++ (List.replicate (b - m) 0 ++ xs.drop b) := by
    rw [heq, ← List.append_assoc, List.replicate_append_replicate]
    congr 2
    omega
  have hdrop : xs.drop m = List.replicate (b - m) 0 ++ xs.drop b := by
    have := drop_of_drop_eq_append hsplit
    rwa [List.length_replicate, Nat.add_sub_cancel' hm] at this
  refine ⟨by rw [hsplit, hdrop], ?_⟩
  split
  · next hmb' => exact hmb' ▸ h3
  · next hmb' =>
    refine ⟨by omega, h2, h3, [], by simp, by simp only [List.length_nil]; omega, ?_⟩
    rw [hdrop, max_eq_right (by omega), List.nil_append]

/-- The script of the elements left when the base is used up to `src`: the first `Copy` may be
used up in part. -/
def restItems : ℕ → List (DeltaElement α) → List (Option α)
  | _, [] => []
  | src, .insert n :: els => n.map some ++ restItems src els
  | src, .copy _ e :: els => List.replicate (e - src) none ++ restItems e els

/-- The elements left are non-empty. -/
def Rest : ℕ → List (DeltaElement α) → Prop
  | _, [] => True
  | src, .insert n :: els => n ≠ [] ∧ Rest src els
  | src, .copy _ e :: els => src < e ∧ Rest e els

theorem Chained.rest (h : Chained p els q) : Rest p els ∧ restItems p els = itemsOf els := by
  induction els generalizing p with
  | nil => exact ⟨trivial, rfl⟩
  | cons el els ih =>
    cases el with
    | copy b e =>
      obtain ⟨rfl, hlt, h⟩ := h
      exact ⟨⟨hlt, (ih h).1⟩, by rw [restItems, (ih h).2]; rfl⟩
    | insert n => exact ⟨⟨h.1, (ih h.2).1⟩, by rw [restItems, (ih h.2).2]; rfl⟩

/-- The invariant of the loop: what is emitted, followed by the pending copy and the re-based
rest, is the re-based script. -/
structure ExpandInv (after : Bool) (xs : List ℕ) (s : List (Option α)) (st : ExpandState α) :
    Prop where
  chained : Chained 0 st.elements st.copyStart
  copyStart_le : st.copyStart ≤ st.expandedCoordinate
  le : st.expandedCoordinate ≤ xs.length
  zones : Zones xs st.expandedCoordinate st.xformRanges
  rest : Rest st.sourceCoordinate st.currentElements
  kept : kept (restItems st.sourceCoordinate st.currentElements)
    = zeros (xs.drop st.expandedCoordinate)
  eq : expand after xs s = itemsOf st.elements
    ++ (List.replicate (st.expandedCoordinate - st.copyStart) none
      ++ expand after (xs.drop st.expandedCoordinate)
        (restItems st.sourceCoordinate st.currentElements))

variable {after : Bool} {xs : List ℕ} {s : List (Option α)} {st : ExpandState α}

private theorem zeros_of_ne {ys : List ℕ} (h : ∀ y ∈ ys, y ≠ 0) : zeros ys = 0 :=
  List.count_eq_zero.mpr fun h0 ↦ h 0 h0 rfl

/-- Jumping over masked positions, with nothing to insert before them. -/
theorem ExpandInv.jump (h : ExpandInv after xs s st)
    (hp : nextRangeStart xs.length st.xformRanges = p)
    (hle : st.expandedCoordinate ≤ p) (hnone : after = false →
      (restItems st.sourceCoordinate st.currentElements).takeWhile Option.isSome = []) :
    ExpandInv after xs s { st with expandedCoordinate := p } := by
  subst hp
  obtain ⟨hz, hN, ys, hys, hlen, heq⟩ := h.zones.jump hle
  have hexp : expand after (xs.drop st.expandedCoordinate)
      (restItems st.sourceCoordinate st.currentElements)
        = List.replicate ys.length none ++ expand after
          (xs.drop (nextRangeStart xs.length st.xformRanges))
          (restItems st.sourceCoordinate st.currentElements) := by
    rw [heq]
    cases after with
    | true => exact expand_true_pos _ _ ys hys
    | false => exact expand_false_pos _ (hnone rfl) ys hys
  have hcs := h.copyStart_le
  refine ⟨h.chained, hcs.trans hle, hN, hz, h.rest, ?_, ?_⟩
  · rw [h.kept, heq, zeros_append, zeros_of_ne hys, Nat.zero_add]
  · rw [h.eq, hexp, ← List.append_assoc (List.replicate _ _), List.replicate_append_replicate, hlen]
    congr 4
    dsimp only
    omega

/-- A kept element left over means that a zero position is left. -/
theorem ExpandInv.exists_range (h : ExpandInv after xs s st)
    (hk : 0 < Script.kept (restItems st.sourceCoordinate st.currentElements)) :
    ∃ a b rs, st.xformRanges = (a, b) :: rs := by
  have hz := h.zones
  have hkept := h.kept
  cases hr : st.xformRanges with
  | nil =>
    rw [hr] at hz
    rw [zeros_of_ne hz] at hkept
    omega
  | cons r rs => exact ⟨r.1, r.2, rs, rfl⟩

/-- A range left means that there is a zero position left. -/
theorem Zones.zeros_pos {c : ℕ} {r : ℕ × ℕ} {rs : List (ℕ × ℕ)} (h : Zones xs c (r :: rs)) :
    0 < zeros (xs.drop c) := by
  obtain ⟨a, b⟩ := r
  obtain ⟨h1, -, -, ys, -, -, heq⟩ := h
  rw [heq, zeros_append, zeros_append, zeros_replicate_zero]
  omega

/-- Behind a jump the next position is zero. -/
theorem Zones.head?_eq_zero {c : ℕ} {rs : List (ℕ × ℕ)} (h : Zones xs c rs)
    (hc : nextRangeStart xs.length rs ≤ c) : ∀ x ∈ (xs.drop c).head?, x = 0 := by
  intro x hx
  cases rs with
  | nil =>
    rw [List.drop_of_length_le hc] at hx
    cases hx
  | cons r rs =>
    obtain ⟨a, b⟩ := r
    have hac : a ≤ c := hc
    have hab : max a c < b := h.1
    have hin := (h.inside hac (m := b) (by omega) (le_refl b)).1
    obtain ⟨j, hj⟩ : ∃ j, b - c = j + 1 := ⟨b - c - 1, by omega⟩
    rw [hin, hj, List.replicate_succ] at hx
    simpa [eq_comm] using hx

/-- An insertion goes out at the current coordinate, behind the pending copy. -/
theorem ExpandInv.insert {n : List α} (h : ExpandInv after xs s st)
    (hst : st.currentElements = .insert n :: els)
    (hafter : after = true → nextRangeStart xs.length st.xformRanges ≤ st.expandedCoordinate) :
    ExpandInv after xs s { st with
      elements := (if st.expandedCoordinate > st.copyStart then
        st.elements ++ [.copy st.copyStart st.expandedCoordinate] else st.elements)
          ++ [.insert n]
      copyStart := st.expandedCoordinate
      currentElements := els } := by
  have hrest := h.rest
  have hkept := h.kept
  rw [hst] at hrest hkept
  obtain ⟨hch, hit⟩ := h.chained.close h.copyStart_le
  refine ⟨hch.append_insert hrest.1, le_refl _, h.le, h.zones, hrest.2, ?_, ?_⟩
  · rwa [restItems, kept_append, kept_map_some, Nat.zero_add] at hkept
  · rw [h.eq, hst, restItems,
      expand_map_some after _ fun ha ↦ h.zones.head?_eq_zero (hafter ha), itemsOf_append, hit]
    simp [DeltaElement.items]

/-- A copy goes up to the end of the element or of the range. -/
theorem ExpandInv.copy {beg copyEnd a b m : ℕ} {rs : List (ℕ × ℕ)} (h : ExpandInv after xs s st)
    (hst : st.currentElements = .copy beg copyEnd :: els) (hr : st.xformRanges = (a, b) :: rs)
    (hge : a ≤ st.expandedCoordinate)
    (hm : min (copyEnd + st.expandedCoordinate - st.sourceCoordinate) b = m) :
    st.expandedCoordinate < m ∧ ExpandInv after xs s { st with
      sourceCoordinate := st.sourceCoordinate + (m - st.expandedCoordinate)
      expandedCoordinate := m
      currentElements :=
        if st.sourceCoordinate + (m - st.expandedCoordinate) = copyEnd then els
        else .copy beg copyEnd :: els
      xformRanges := if m = b then rs else (a, b) :: rs } := by
  have hrest := h.rest
  have hkept := h.kept
  have hz := h.zones
  rw [hst] at hrest hkept
  rw [hr] at hz
  have hsrc : st.sourceCoordinate < copyEnd := hrest.1
  have hab : max a st.expandedCoordinate < b := hz.1
  have hcm : st.expandedCoordinate < m := by omega
  obtain ⟨hdrop, hzones⟩ := hz.inside hge hcm.le (by omega : m ≤ b)
  have hsplit : restItems st.sourceCoordinate (.copy beg copyEnd :: els)
      = List.replicate (m - st.expandedCoordinate) none ++ restItems
          (st.sourceCoordinate + (m - st.expandedCoordinate))
          (if st.sourceCoordinate + (m - st.expandedCoordinate) = copyEnd then els
            else .copy beg copyEnd :: els) := by
    split
    · next hend =>
      rw [restItems, hend]
      congr 2
      omega
    · rw [restItems, restItems, ← List.append_assoc, List.replicate_append_replicate]
      congr 2
      omega
  refine ⟨hcm, h.chained, h.copyStart_le.trans hcm.le, ?_, hzones, ?_, ?_, ?_⟩
  · have := hz.2.1
    dsimp only
    omega
  · dsimp only
    split
    · next hend => exact hend ▸ hrest.2
    · exact ⟨by omega, hrest.2⟩
  · rw [hsplit, hdrop, kept_append, kept_replicate_none, zeros_append,
      zeros_replicate_zero] at hkept
    exact Nat.add_left_cancel hkept
  · rw [h.eq, hst, hsplit, hdrop, expand_zero_none, ← List.append_assoc (List.replicate _ none),
      List.replicate_append_replicate]
    have := h.copyStart_le
    have hn : st.expandedCoordinate - st.copyStart + (m - st.expandedCoordinate)
      = m - st.copyStart := by omega
    rw [hn]

/-- What the inner loop does: it keeps the invariant, and either it has made progress or it has
nothing to insert and waits for a jump. -/
theorem expandInner_spec {start : ℕ} :
    ∀ (cur : List (DeltaElement α)) (st : ExpandState α), st.currentElements = cur →
      ExpandInv after xs s st → start = nextRangeStart xs.length st.xformRanges →
      (after = true → start ≤ st.expandedCoordinate) →
      ExpandInv after xs s (expandInner start cur st) ∧
        (expandInner start cur st).currentElements.length ≤ cur.length ∧
        st.expandedCoordinate ≤ (expandInner start cur st).expandedCoordinate ∧
        ((expandInner start cur st).expandedCoordinate < start →
          (expandInner start cur st).xformRanges = st.xformRanges ∧
          (restItems (expandInner start cur st).sourceCoordinate
            (expandInner start cur st).currentElements).takeWhile Option.isSome = []) ∧
        (start ≤ st.expandedCoordinate → cur ≠ [] →
          (expandInner start cur st).currentElements.length < cur.length ∨
            st.expandedCoordinate < (expandInner start cur st).expandedCoordinate) := by
  intro cur
  induction cur with
  | nil =>
    rintro st hst h rfl hafter
    have heq : expandInner (nextRangeStart xs.length st.xformRanges) [] st = st := by
      rw [expandInner, ← hst]
    rw [heq, hst]
    exact ⟨h, le_refl _, le_refl _, fun _ ↦ ⟨rfl, rfl⟩, fun _ hne ↦ absurd rfl hne⟩
  | cons el cur ih =>
    rintro st hst h rfl hafter
    cases el with
    | insert n =>
      rw [expandInner]
      obtain ⟨h1, h2, h3, h4, h5⟩ := ih _ rfl (h.insert hst hafter) rfl hafter
      refine ⟨h1, ?_, h3, h4, fun _ _ ↦ .inl ?_⟩
      · rw [List.length_cons]; omega
      · rw [List.length_cons]; omega
    | copy beg copyEnd =>
      rw [expandInner]
      have hsrc : st.sourceCoordinate < copyEnd := (hst ▸ h.rest).1
      split
      · next hge =>
        have hpos : 0 < kept (restItems st.sourceCoordinate st.currentElements) := by
          rw [hst, restItems, kept_append, kept_replicate_none]
          omega
        obtain ⟨a, b, rs, hr⟩ := h.exists_range hpos
        rw [hr] at hge ⊢
        dsimp only
        obtain ⟨hcm, hinv⟩ := h.copy hst hr hge rfl
        refine ⟨hinv, ?_, hcm.le, ?_, fun _ _ ↦ .inr hcm⟩
        · split <;> simp
        · intro hlt
          rw [nextRangeStart] at hlt hge
          omega
      · next hlt =>
        refine ⟨?_, le_refl _, le_refl _, fun _ ↦ ⟨rfl, ?_⟩, fun hle ↦ absurd hle hlt⟩
        · rw [← hst]
          exact h
        · obtain ⟨j, hj⟩ : ∃ j, copyEnd - st.sourceCoordinate = j + 1 :=
            ⟨copyEnd - st.sourceCoordinate - 1, by omega⟩
          simp [restItems, hj, List.replicate_succ]

/-- What is left to do in the loop. -/
def expandMeasure (xs : List ℕ) (st : ExpandState α) : ℕ :=
  (xs.length - st.expandedCoordinate) + st.currentElements.length

theorem expandStep_spec (h : ExpandInv after xs s st)
    (hmore : st.expandedCoordinate < xs.length ∨ st.currentElements ≠ []) :
    ExpandInv after xs s (expandStep after xs.length st) ∧
      expandMeasure xs (expandStep after xs.length st) < expandMeasure xs st := by
  have hNle : nextRangeStart xs.length st.xformRanges ≤ xs.length := by
    have hz := h.zones
    cases hr : st.xformRanges with
    | nil => exact le_refl _
    | cons r rs =>
      rw [hr] at hz
      have h1 : max r.1 st.expandedCoordinate < r.2 := hz.1
      have h2 : r.2 ≤ xs.length := hz.2.1
      change r.1 ≤ xs.length
      omega
  -- with no element left there is no zero position left either
  have hnil : st.currentElements = [] → nextRangeStart xs.length st.xformRanges = xs.length := by
    intro hcur
    have hz := h.zones
    have hk := h.kept
    rw [hcur, restItems, kept_nil] at hk
    cases hr : st.xformRanges with
    | nil => rfl
    | cons r rs =>
      rw [hr] at hz
      have := hz.zeros_pos
      omega
  have hle := h.le
  rw [expandStep]
  cases after with
  | true =>
    simp only [true_and, Bool.not_true, Bool.false_eq_true, false_and, if_false]
    by_cases hlt : st.expandedCoordinate < nextRangeStart xs.length st.xformRanges
    · rw [if_pos hlt]
      have hj := h.jump rfl hlt.le fun h ↦ absurd h (by simp)
      obtain ⟨h1, h2, h3, -, -⟩ := expandInner_spec _ _ rfl hj rfl fun _ ↦ le_refl _
      refine ⟨h1, ?_⟩
      have hN := h1.le
      dsimp only at h2 h3 hN ⊢
      rw [expandMeasure, expandMeasure]
      omega
    · rw [if_neg hlt]
      obtain ⟨h1, h2, h3, -, h5⟩ := expandInner_spec _ _ rfl h rfl fun _ ↦ not_lt.mp hlt
      refine ⟨h1, ?_⟩
      have hN := h1.le
      have hcur : st.currentElements ≠ [] := fun hcur ↦ by
        have := hnil hcur
        rcases hmore with hm | hm
        · omega
        · exact hm hcur
      rw [expandMeasure, expandMeasure]
      rcases h5 (not_lt.mp hlt) hcur with h5 | h5 <;> omega
  | false =>
    simp only [Bool.false_eq_true, false_and, if_false, Bool.not_false, true_and]
    obtain ⟨h1, h2, h3, h4, h5⟩ := expandInner_spec _ _ rfl h rfl fun h ↦ absurd h (by simp)
    have hN := h1.le
    by_cases hlt : (expandInner (nextRangeStart xs.length st.xformRanges) st.currentElements
        st).expandedCoordinate < nextRangeStart xs.length st.xformRanges
    · rw [if_pos hlt]
      obtain ⟨hr, hnone⟩ := h4 hlt
      have hj := h1.jump (by rw [hr]) hlt.le fun _ ↦ hnone
      refine ⟨hj, ?_⟩
      have hN' := hj.le
      rw [expandMeasure, expandMeasure]
      dsimp only at hN' ⊢
      omega
    · rw [if_neg hlt]
      refine ⟨h1, ?_⟩
      rw [expandMeasure, expandMeasure]
      by_cases hge : nextRangeStart xs.length st.xformRanges ≤ st.expandedCoordinate
      · have hcur : st.currentElements ≠ [] := fun hcur ↦ by
          have := hnil hcur
          rcases hmore with hm | hm
          · omega
          · exact hm hcur
        rcases h5 hge hcur with h5 | h5 <;> omega
      · omega

theorem expandLoop_spec :
    ∀ (n : ℕ) (st : ExpandState α), expandMeasure xs st < n → ExpandInv after xs s st →
      ∃ st', expandLoop after xs.length n st = some st' ∧ ExpandInv after xs s st' ∧
        st'.expandedCoordinate = xs.length ∧ st'.currentElements = [] := by
  intro n
  induction n with
  | zero => intro st hn; exact absurd hn (Nat.not_lt_zero _)
  | succ n ih =>
    intro st hn h
    rw [expandLoop]
    by_cases hmore : st.expandedCoordinate < xs.length ∨ st.currentElements ≠ []
    · rw [if_pos hmore]
      obtain ⟨h1, h2⟩ := expandStep_spec h hmore
      exact ih _ (by omega) h1
    · rw [if_neg hmore]
      rw [not_or, not_lt, not_not] at hmore
      exact ⟨st, rfl, h, le_antisymm h.le hmore.1, hmore.2⟩

/-- `transform_expand` re-bases the script. -/
theorem Realizes.transformExpand {d : InsertDelta α} {s : List (Option α)} (h : d.Realizes s)
    {xform : Subset} (hlen : d.delta.baseLen = zeros xform.counts) (after : Bool) :
    ∃ d', d.transformExpand xform after = some d' ∧
      d'.Realizes (expand after xform.counts s) := by
  have hN : xform.count .all = xform.counts.length := xform.len_eq
  have hrest := Chained.rest h.chained
  have hinit : ExpandInv after xform.counts s
      ⟨[], 0, 0, 0, xform.complementIter, d.delta.els⟩ := by
    refine ⟨rfl, le_refl 0, Nat.zero_le _, ?_, hrest.1, ?_, ?_⟩
    · exact zones_rangesFrom _ _ xform.canonical.pos 0 rfl
    · simp only [List.drop_zero]
      rw [hrest.2, h.items, h.kept, hlen]
    · simp [hrest.2, h.items]
  obtain ⟨st, hloop, hinv, hexp, hcur⟩ := expandLoop_spec
    (xform.counts.length + d.delta.els.length + 1) _ (by simp [expandMeasure]) hinit
  obtain ⟨hch, hit⟩ := hinv.chained.close hinv.copyStart_le
  refine ⟨_, by rw [InsertDelta.transformExpand, hN, hloop]; rfl, ?_, ?_⟩
  · rw [hexp] at hch ⊢
    exact hch
  · dsimp only
    rw [hit, hinv.eq, hcur, restItems, hexp, List.drop_length, expand, List.append_nil]

end InsertDelta

end EeEditor
