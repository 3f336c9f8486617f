import Mathlib.Algebra.BigOperators.Group.List.Basic
import Mathlib.Algebra.GroupWithZero.Nat
import Mathlib.Data.Nat.Basic
import Mathlib.Tactic.Common

/-!
# Sequences in pieces

A sequence may be kept as a list of pieces, each of which stands for a run of its elements. A table
of the positions at which the pieces start finds the piece of a position by a search for the
partition point. When no piece is empty the starts increase strictly, and the search ends at the
piece. Between two pieces the sequence can be cut, and a piece that is split in two adds a cut and
takes none away.
-/

namespace EeEditor

variable {α β : Type}

/-- `partition_point`: the number of elements before the first at which the predicate fails. -/
def partitionPoint (p : α → Bool) (l : List α) : ℕ := (l.takeWhile p).length

/-- The positions at which the pieces start, the first at `pos`. -/
def starts (len : β → ℕ) : ℕ → List β → List ℕ
  | _, [] => []
  | pos, x :: xs => pos :: starts len (pos + len x) xs

/-- The length of the pieces together. -/
def extent (len : β → ℕ) (xs : List β) : ℕ := (xs.map len).sum

/-- The sequence can be cut at `b` between two pieces. -/
def IsCut (len : β → ℕ) (xs : List β) (b : ℕ) : Prop :=
  ∃ ys zs, xs = ys ++ zs ∧ extent len ys = b

section

variable {len : β → ℕ} {xs ys zs : List β} {x : β} {pos b : ℕ}

@[simp] theorem extent_nil : extent len [] = 0 := rfl

@[simp] theorem extent_cons : extent len (x :: xs) = len x + extent len xs := rfl

@[simp] theorem extent_append : extent len (xs ++ ys) = extent len xs + extent len ys := by
  rw [extent, List.map_append, List.sum_append]
  rfl

@[simp] theorem length_starts : (starts len pos xs).length = xs.length := by
  induction xs generalizing pos with
  | nil => rfl
  | cons x xs ih => rw [starts, List.length_cons, List.length_cons, ih]

theorem starts_append :
    starts len pos (xs ++ ys) = starts len pos xs ++ starts len (pos + extent len xs) ys := by
  induction xs generalizing pos with
  | nil => rfl
  | cons x xs ih => rw [List.cons_append, starts, starts, ih, List.cons_append, extent_cons,
      Nat.add_assoc]

theorem mem_starts (hpos : ∀ x ∈ xs, 0 < len x) {s : ℕ} (hs : s ∈ starts len pos xs) :
    pos ≤ s ∧ s < pos + extent len xs := by
  induction xs generalizing pos with
  | nil => cases hs
  | cons x xs ih =>
    have hx := hpos x (by simp)
    rw [extent_cons]
    rcases List.mem_cons.mp hs with rfl | hs
    · omega
    · have := ih (fun y hy ↦ hpos y (by simp [hy])) hs
      omega

/-- When no piece is empty the starts increase strictly. -/
theorem starts_sorted (hpos : ∀ x ∈ xs, 0 < len x) : (starts len pos xs).Pairwise (· < ·) := by
  induction xs generalizing pos with
  | nil => exact .nil
  | cons x xs ih =>
    have htail : ∀ y ∈ xs, 0 < len y := fun y hy ↦ hpos y (by simp [hy])
    refine List.pairwise_cons.mpr ⟨fun s hs ↦ ?_, ih htail⟩
    have := mem_starts htail hs
    have := hpos x (by simp)
    omega

theorem takeWhile_starts {p : ℕ → Bool} (hys : ∀ s ∈ starts len 0 ys, p s = true)
    (hzs : zs ≠ [] → p (extent len ys) = false) :
    partitionPoint p (starts len 0 (ys ++ zs)) = ys.length := by
  rw [partitionPoint, starts_append, List.takeWhile_append_of_pos hys, Nat.zero_add]
  cases zs with
  | nil => simp [starts]
  | cons z zs =>
    rw [starts, List.takeWhile_cons_of_neg (by simp [hzs]), List.append_nil, length_starts]

/-- The search for a cut ends there. -/
theorem partitionPoint_lt_starts (hpos : ∀ x ∈ ys, 0 < len x) :
    partitionPoint (· < extent len ys) (starts len 0 (ys ++ zs)) = ys.length := by
  refine takeWhile_starts (fun s hs ↦ ?_) fun _ ↦ by simp
  have := mem_starts hpos hs
  simp
  omega

/-- The search for a position ends just after the piece that contains it. -/
theorem partitionPoint_le_starts (hpos : ∀ x ∈ ys, 0 < len x) (hlo : extent len ys ≤ b)
    (hhi : b < extent len ys + len x) :
    partitionPoint (· ≤ b) (starts len 0 (ys ++ x :: zs)) = ys.length + 1 := by
  rw [List.append_cons]
  refine (takeWhile_starts (fun s hs ↦ ?_) fun _ ↦ ?_).trans (by simp)
  · rw [starts_append] at hs
    rcases List.mem_append.mp hs with hs | hs
    · have := mem_starts hpos hs
      simp
      omega
    · simp [starts] at hs
      simp
      omega
  · simp
    omega

/-- Every position is in a piece. -/
theorem exists_piece (h : b < extent len xs) :
    ∃ ys x zs, xs = ys ++ x :: zs ∧ extent len ys ≤ b ∧ b < extent len ys + len x := by
  induction xs generalizing b with
  | nil => cases h
  | cons x xs ih =>
    rw [extent_cons] at h
    rcases Nat.lt_or_ge b (len x) with hlt | hge
    · exact ⟨[], x, xs, rfl, Nat.zero_le b, by simpa using hlt⟩
    · obtain ⟨ys, y, zs, rfl, hlo, hhi⟩ := ih (b := b - len x) (by omega)
      refine ⟨x :: ys, y, zs, rfl, ?_, ?_⟩ <;> rw [extent_cons] <;> omega

theorem isCut_zero : IsCut len xs 0 := ⟨[], xs, rfl, rfl⟩

theorem isCut_extent : IsCut len xs (extent len xs) := ⟨xs, [], by simp, rfl⟩

theorem isCut_append : IsCut len (ys ++ zs) (extent len ys) := ⟨ys, zs, rfl, rfl⟩

/-- A piece that is split in two takes no cut away. -/
theorem IsCut.split {lo hi : β} (hlen : len lo + len hi = len x)
    (h : IsCut len (ys ++ x :: zs) b) : IsCut len (ys ++ lo :: hi :: zs) b := by
  obtain ⟨us, vs, heq, rfl⟩ := h
  rcases List.append_eq_append_iff.mp heq with ⟨ws, rfl, hws⟩ | ⟨ws, rfl, -⟩
  · cases ws with
    | nil =>
      rw [List.append_nil]
      exact isCut_append
    | cons w ws =>
      obtain ⟨rfl, rfl⟩ := List.cons.inj hws
      refine ⟨ys ++ lo :: hi :: ws, vs, by simp, ?_⟩
      simp only [extent_append, extent_cons]
      omega
  · rw [List.append_assoc]
    exact isCut_append

/-- Of two cuts the lower one is a cut of what is before the other. -/
theorem IsCut.of_append (hb : b ≤ extent len ys) (h : IsCut len (ys ++ zs) b)
    (hpos : ∀ x ∈ zs, 0 < len x) : IsCut len ys b := by
  obtain ⟨us, vs, heq, rfl⟩ := h
  rcases List.append_eq_append_iff.mp heq with ⟨ws, rfl, hws⟩ | ⟨ws, rfl, -⟩
  · cases ws with
    | nil => exact ⟨ys, [], by simp, by simp⟩
    | cons w ws =>
      have hw := hpos w (by rw [hws]; simp)
      simp only [extent_append, extent_cons] at hb
      omega
  · exact isCut_append

end

/-! ## Contents -/

section

variable {len : β → ℕ} {f : β → List α} {xs ys zs : List β}

theorem length_flatMap_extent (hlen : ∀ x ∈ xs, (f x).length = len x) :
    (xs.flatMap f).length = extent len xs := by
  induction xs with
  | nil => rfl
  | cons x xs ih =>
    rw [List.flatMap_cons, List.length_append, extent_cons, hlen x (by simp),
      ih fun y hy ↦ hlen y (by simp [hy])]

theorem take_extent (hlen : ∀ x ∈ ys, (f x).length = len x) :
    ((ys ++ zs).flatMap f).take (extent len ys) = ys.flatMap f := by
  rw [List.flatMap_append, List.take_left' (length_flatMap_extent hlen)]

theorem drop_extent (hlen : ∀ x ∈ ys, (f x).length = len x) :
    ((ys ++ zs).flatMap f).drop (extent len ys) = zs.flatMap f := by
  rw [List.flatMap_append, List.drop_left' (length_flatMap_extent hlen)]

/-- A range that is cut in two. -/
theorem take_drop_append {l : List α} {a b c : ℕ} (hab : a ≤ b) (hbc : b ≤ c) :
    (l.drop a).take (b - a) ++ (l.drop b).take (c - b) = (l.drop a).take (c - a) := by
  have hdrop : (l.drop a).drop (b - a) = l.drop b := by
    rw [List.drop_drop, Nat.add_sub_cancel' hab]
  rw [← hdrop, ← Nat.sub_add_sub_cancel hbc hab, Nat.add_comm (c - b), List.take_add]

/-- What follows a position is a range and what follows that. -/
theorem take_append_drop_of_le {l : List α} {a b : ℕ} (hab : a ≤ b) :
    (l.drop a).take (b - a) ++ l.drop b = l.drop a := by
  conv_rhs => rw [← List.take_append_drop (b - a) (l.drop a), List.drop_drop,
    Nat.add_sub_cancel' hab]

/-- A range of two sequences that follow one another, the first from position `d` on. -/
theorem slice_append (xs ys : List α) (d s e : ℕ) :
    ((xs ++ ys).drop (s - d)).take (e - max d s)
      = (xs.drop (min (s - d) xs.length)).take
          (min (e - d) xs.length - min (s - d) xs.length)
        ++ (ys.drop (s - (d + xs.length))).take (e - max (d + xs.length) s) := by
  rcases Nat.lt_or_ge (s - d) xs.length with hlt | hge
  · have htake : (xs.drop (s - d)).take (e - max d s)
        = (xs.drop (s - d)).take (min (e - d) xs.length - (s - d)) := by
      rw [List.take_eq_take_iff, List.length_drop]
      omega
    have hzero : s - (d + xs.length) = 0 := by omega
    rw [List.drop_append_of_le_length hlt.le, List.take_append, htake, min_eq_left hlt.le, hzero,
      List.drop_zero, List.length_drop]
    congr 2
    omega
  · rw [List.drop_append, List.drop_of_length_le hge, min_eq_right hge, List.drop_length,
      List.nil_append, List.take_nil, List.nil_append, Nat.sub_sub]
    congr 1
    omega
end

end EeEditor
