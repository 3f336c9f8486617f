import Mathlib.Data.List.TakeWhile
import EeEditor.Plugin.ChunkCache

/-!
# The starts of lines

The list of line starts of a text is the list of its selections, and a search in it finds the rank
of a position.
-/

namespace EeEditor.Plugin

/-! ## Sorted lists -/

section

variable {l : List ℕ} {x ix j y : ℕ}

theorem lt_of_binarySearch (h : binarySearch l x = .ok ix ∨ binarySearch l x = .error ix)
    (hj : j < ix) (hy : l[j]? = some y) : y < x := by
  have hix : ix = (l.takeWhile (· < x)).length := by
    rw [binarySearch] at h
    split at h <;> rcases h with h | h <;> cases h <;> rfl
  have htake : (l.takeWhile (· < x))[j]? = some y := by
    rw [← List.takeWhile_append_dropWhile (p := (· < x)) (l := l),
      List.getElem?_append_left (hix ▸ hj)] at hy
    exact hy
  simpa using List.mem_takeWhile_imp (List.mem_of_getElem? htake)

theorem binarySearch_ok (h : binarySearch l x = .ok ix) : l[ix]? = some x := by
  rw [binarySearch] at h
  split at h
  · next hx =>
    cases h
    exact hx
  · cases h

theorem le_length_of_binarySearch (h : binarySearch l x = .error ix) : ix ≤ l.length := by
  rw [binarySearch] at h
  split at h
  · cases h
  · cases h
    exact (List.takeWhile_sublist _).length_le

/-- From the index to insert at, a sorted list has larger members. -/
theorem gt_of_binarySearch (hl : l.Pairwise (· < ·)) (h : binarySearch l x = .error ix)
    (hj : ix ≤ j) (hy : l[j]? = some y) : x < y := by
  rw [binarySearch] at h
  split at h
  · cases h
  · next hne =>
    cases h
    have hdrop : (l.dropWhile (· < x))[j - (l.takeWhile (· < x)).length]? = some y := by
      rw [← List.takeWhile_append_dropWhile (p := (· < x)) (l := l),
        List.getElem?_append_right hj] at hy
      exact hy
    cases hd : l.dropWhile (· < x) with
    | nil =>
      rw [hd] at hdrop
      simp at hdrop
    | cons z zs =>
      have hlz : l[(l.takeWhile (· < x)).length]? = some z := by
        have hsplit := List.takeWhile_append_dropWhile (p := (· < x)) (l := l)
        rw [hd] at hsplit
        nth_rw 1 [← hsplit]
        rw [List.getElem?_append_right le_rfl, Nat.sub_self]
        rfl
      have hzx : ¬ z < x := by
        have := List.head_dropWhile_not (p := (· < x)) (l := l) (by rw [hd]; simp)
        simpa [hd] using this
      have hxz : x < z := lt_of_le_of_ne (not_lt.mp hzx) fun heq ↦ hne (heq ▸ hlz)
      rw [hd] at hdrop
      cases hk : j - (l.takeWhile (· < x)).length with
      | zero =>
        rw [hk] at hdrop
        simp only [List.getElem?_cons_zero, Option.some_inj] at hdrop
        exact hdrop ▸ hxz
      | succ k =>
        rw [hk, List.getElem?_cons_succ] at hdrop
        have hsorted : (z :: zs).Pairwise (· < ·) := hd ▸ hl.sublist (List.dropWhile_sublist _)
        exact hxz.trans ((List.pairwise_cons.mp hsorted).1 y (List.mem_of_getElem? hdrop))

end

/-! ## The starts of lines -/

theorem newlineOffsetsFrom_eq_map (k : ℕ) (text : List UInt8) :
    newlineOffsetsFrom k text = (newlineOffsets text).map (· + k) := by
  have key : ∀ (text : List UInt8) (i : ℕ),
      newlineOffsetsFrom (i + k) text = (newlineOffsetsFrom i text).map (· + k) := by
    intro text
    induction text with
    | nil => intro i; rfl
    | cons b text ih =>
      intro i
      rw [newlineOffsetsFrom, newlineOffsetsFrom, Nat.add_right_comm, ih]
      split
      · rw [List.map_cons]
      · rfl
  rw [newlineOffsets, ← key, Nat.zero_add]

theorem newlineOffsets_append (a b : List UInt8) :
    newlineOffsets (a ++ b) = newlineOffsets a ++ (newlineOffsets b).map (· + a.length) := by
  have key : ∀ (a : List UInt8) (k : ℕ), newlineOffsetsFrom k (a ++ b)
      = newlineOffsetsFrom k a ++ newlineOffsetsFrom (k + a.length) b := by
    intro a
    induction a with
    | nil => intro k; rfl
    | cons c a ih =>
      intro k
      have hlen : k + (c :: a).length = k + 1 + a.length := by
        rw [List.length_cons]
        omega
      rw [List.cons_append, newlineOffsetsFrom, newlineOffsetsFrom, ih, hlen]
      split <;> rfl
  have h := key a 0
  rwa [Nat.zero_add, newlineOffsetsFrom_eq_map a.length] at h

/-- The list of line starts, in order. -/
theorem getElem?_newlineOffsets (text : List UInt8) (n : ℕ) :
    (newlineOffsets text)[n]? = select isNewline text (n + 1) := by
  induction text generalizing n with
  | nil => rfl
  | cons b text ih =>
    rw [newlineOffsets, newlineOffsetsFrom, newlineOffsetsFrom_eq_map, Nat.zero_add,
      select_cons_succ]
    split
    · cases n with
      | zero => simp
      | succ n => simp [ih]
    · simp [ih]

theorem bounds_newlineOffsets {text : List UInt8} {x : ℕ} (hx : x ∈ newlineOffsets text) :
    0 < x ∧ x ≤ text.length := by
  obtain ⟨n, hn⟩ := List.mem_iff_getElem?.mp hx
  rw [getElem?_newlineOffsets] at hn
  refine ⟨?_, select_le_length hn⟩
  rw [lt_select_iff hn]
  simp

theorem sorted_newlineOffsets (text : List UInt8) : (newlineOffsets text).Pairwise (· < ·) := by
  rw [List.pairwise_iff_getElem]
  intro i j hi hj hij
  have hsi := getElem?_newlineOffsets text i
  have hsj := getElem?_newlineOffsets text j
  rw [List.getElem?_eq_getElem hi] at hsi
  rw [List.getElem?_eq_getElem hj] at hsj
  exact (select_lt_select hsi.symm hsj.symm).mpr (by omega)

theorem length_newlineOffsets (text : List UInt8) :
    (newlineOffsets text).length = text.countP isNewline := by
  refine le_antisymm ?_ ?_
  · by_contra hlt
    have h := getElem?_newlineOffsets text (text.countP isNewline)
    rw [select_eq_none_iff.mpr (Nat.lt_succ_self _), List.getElem?_eq_none_iff] at h
    omega
  · by_contra hlt
    have h := getElem?_newlineOffsets text (newlineOffsets text).length
    rw [List.getElem?_eq_none le_rfl, eq_comm, select_eq_none_iff] at h
    omega

/-- A search among the line starts finds the line. -/
theorem rank_of_binarySearch_ok {text : List UInt8} {x ix : ℕ}
    (h : binarySearch (newlineOffsets text) x = .ok ix) :
    select isNewline text (ix + 1) = some x ∧ rank isNewline text x = ix + 1 := by
  have hx := binarySearch_ok h
  rw [getElem?_newlineOffsets] at hx
  exact ⟨hx, rank_select hx⟩

theorem rank_of_binarySearch_error {text : List UInt8} {x ix : ℕ}
    (h : binarySearch (newlineOffsets text) x = .error ix) : rank isNewline text x = ix := by
  refine le_antisymm ?_ ?_
  · by_contra hlt
    obtain ⟨s, hs⟩ := exists_select ((not_le.mp hlt).trans_le (rank_le_countP _ text x))
    have hle : s ≤ x := (select_le_iff hs).mpr (not_le.mp hlt)
    rw [← getElem?_newlineOffsets] at hs
    exact absurd hle (not_le.mpr (gt_of_binarySearch (sorted_newlineOffsets text) h le_rfl hs))
  · cases ix with
    | zero => exact Nat.zero_le _
    | succ ix =>
      have hlen := le_length_of_binarySearch h
      rw [length_newlineOffsets] at hlen
      obtain ⟨s, hs⟩ := exists_select hlen
      rw [← select_le_iff hs]
      rw [← getElem?_newlineOffsets] at hs
      exact (lt_of_binarySearch (.inr h) (Nat.lt_succ_self ix) hs).le

end EeEditor.Plugin
