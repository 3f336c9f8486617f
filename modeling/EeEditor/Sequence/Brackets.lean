import Mathlib.Algebra.Group.Nat.Defs
import Mathlib.Algebra.Order.Group.Int
import Mathlib.Data.Int.Basic
import Mathlib.Data.List.Basic
import Mathlib.Tactic.Common

/-!
# Brackets

The bracket that closes the one before a list is found by a scan with a depth. Where the depth is
counted modulo some number, the scan goes wrong exactly when a closing bracket brings the depth to a
multiple of it too early.
-/

namespace EeEditor

variable {α : Type*} {up down : α} {ok : ℕ → Prop} {level n w k : ℕ} {u v l rest : List α}

/-! ## Nesting -/

/-- Brackets are closed in the reverse of their order. Pairs are only at levels of a kind. -/
inductive Nested (up down : α) (ok : ℕ → Prop) : ℕ → List α → Prop
  | nil (level : ℕ) : Nested up down ok level []
  | other {level : ℕ} {a : α} {u : List α} : a ≠ up → a ≠ down → Nested up down ok level u →
      Nested up down ok level (a :: u)
  | pair {level : ℕ} {u v : List α} : ok level → Nested up down ok (level + 1) u →
      Nested up down ok level v → Nested up down ok level (up :: (u ++ down :: v))

/-- Brackets are closed in the reverse of their order. -/
abbrev Balanced (up down : α) (u : List α) : Prop := Nested up down (fun _ ↦ True) 0 u

theorem Nested.append (hu : Nested up down ok level u) (hv : Nested up down ok level v) :
    Nested up down ok level (u ++ v) := by
  induction hu with
  | nil => exact hv
  | other hup hdown _ ih => exact .other hup hdown (ih hv)
  | pair hok hinner _ _ ih =>
    rw [List.cons_append, List.append_assoc, List.cons_append]
    exact .pair hok hinner (ih hv)

theorem Nested.reverse (h : Nested up down ok level u) : Nested down up ok level u.reverse := by
  induction h with
  | nil => exact .nil _
  | other hup hdown _ ih =>
    rw [List.reverse_cons]
    exact ih.append (.other hdown hup (.nil _))
  | pair hok _ _ ihu ihv =>
    rw [List.reverse_cons, List.reverse_append, List.reverse_cons, List.append_assoc,
      List.append_assoc]
    exact ihv.append (.pair hok ihu (.nil _))

/-- The levels of pairs are not below that of the whole. -/
theorem Nested.shift {ok' : ℕ → Prop} (h : Nested up down ok level u) {level' : ℕ}
    (hok : ∀ a, level' ≤ a → ok' a) : Nested up down ok' level' u := by
  induction h generalizing level' with
  | nil => exact .nil _
  | other hup hdown _ ih => exact .other hup hdown (ih hok)
  | pair _ _ _ ihu ihv =>
    exact .pair (hok _ (Nat.le_refl _)) (ihu fun a ha ↦ hok a (Nat.le_of_succ_le ha)) (ihv hok)

variable [DecidableEq α]

theorem Nested.count_eq (hne : up ≠ down) (h : Nested up down ok level u) :
    u.count up = u.count down := by
  induction h with
  | nil => rfl
  | other hup hdown _ ih => rwa [List.count_cons_of_ne hup, List.count_cons_of_ne hdown]
  | pair _ _ _ ihu ihv =>
    simp only [List.count_cons_self, List.count_append, List.count_cons_of_ne hne,
      List.count_cons_of_ne hne.symm, ihu, ihv]
    omega

/-! ## Finding the bracket that closes -/

/-- Where the depth comes to a multiple of `w`, from `n + 1`. With `w = 0` that is only zero. -/
@[grind =] def closing (up down : α) (w : ℕ) : ℕ → List α → Option ℕ
  | _, [] => none
  | n, a :: rest =>
    if a = up then (closing up down w (n + 1) rest).map (· + 1)
    else if a = down then
      if w ∣ n then some 0 else (closing up down w (n - 1) rest).map (· + 1)
    else (closing up down w n rest).map (· + 1)

theorem closing_up : closing up down w n (up :: rest) =
    (closing up down w (n + 1) rest).map (· + 1) := by
  rw [closing, if_pos rfl]

theorem closing_down (hne : up ≠ down) : closing up down w n (down :: rest) =
    if w ∣ n then some 0 else (closing up down w (n - 1) rest).map (· + 1) := by
  rw [closing, if_neg hne.symm, if_pos rfl]

theorem closing_other {a : α} (hup : a ≠ up) (hdown : a ≠ down) :
    closing up down w n (a :: rest) = (closing up down w n rest).map (· + 1) := by
  rw [closing, if_neg hup, if_neg hdown]

theorem closing_getElem? (h : closing up down w n l = some k) : l[k]? = some down := by
  induction l generalizing n k with
  | nil => cases h
  | cons a l ih =>
    rw [closing] at h
    split_ifs at h with _ hdown
    · obtain ⟨k, hk, rfl⟩ := Option.map_eq_some_iff.mp h
      exact ih hk
    · obtain rfl := Option.some.inj h
      rw [hdown, List.getElem?_cons_zero]
    · obtain ⟨k, hk, rfl⟩ := Option.map_eq_some_iff.mp h
      exact ih hk
    · obtain ⟨k, hk, rfl⟩ := Option.map_eq_some_iff.mp h
      exact ih hk

theorem closing_lt (h : closing up down w n l = some k) : k < l.length :=
  (List.getElem?_eq_some_iff.mp (closing_getElem? h)).1

/-- Elements that are no brackets can be left out. -/
theorem closing_filter {p : α → Bool} (hup : p up = true) (hdown : p down = true) :
    closing up down w n (l.filter p) =
      (closing up down w n l).map fun k ↦ ((l.take k).filter p).length := by
  induction l generalizing n with
  | nil => rfl
  | cons a l ih =>
    have hlater (m : ℕ) (hp : p a = true) : (closing up down w m (l.filter p)).map (· + 1) =
        ((closing up down w m l).map (· + 1)).map fun k ↦
          (((a :: l).take k).filter p).length := by
      rw [ih, Option.map_map, Option.map_map]
      congr 1
      funext k
      rw [Function.comp_apply, Function.comp_apply, List.take_succ_cons, List.filter_cons,
        if_pos hp, List.length_cons]
    by_cases hp : p a = true
    · rw [List.filter_cons, if_pos hp, closing, closing, hlater _ hp, hlater _ hp, hlater _ hp]
      split_ifs
      · rfl
      · rfl
      · rfl
      · rfl
    · have hother : a ≠ up ∧ a ≠ down :=
        ⟨by rintro rfl; exact hp hup, by rintro rfl; exact hp hdown⟩
      rw [List.filter_cons, if_neg hp, closing_other hother.1 hother.2, ih, Option.map_map]
      congr 1
      funext k
      rw [Function.comp_apply, List.take_succ_cons, List.filter_cons, if_neg hp]

theorem closing_replicate (k : ℕ) : closing up down w n (List.replicate k up ++ rest) =
    (closing up down w (n + k) rest).map (· + k) := by
  induction k generalizing n with
  | zero => simp
  | succ k ih =>
    rw [List.replicate_succ, List.cons_append, closing_up, ih, Option.map_map, Nat.add_assoc,
      Nat.add_comm 1 k]
    rfl

/-- The scan passes what is nested, if no pair is at a level that is a multiple of `w`. -/
theorem closing_append (hne : up ≠ down) (h : Nested up down (¬ w ∣ ·) (n + 1) u) (l : List α) :
    closing up down w n (u ++ l) = (closing up down w n l).map (· + u.length) := by
  generalize hlevel : n + 1 = level at h
  induction h generalizing n l with
  | nil => simp
  | other hup hdown _ ih =>
    rw [List.cons_append, closing_other hup hdown, ih l hlevel, Option.map_map, List.length_cons]
    rfl
  | @pair level u v hok _ _ ihu ihv =>
    subst hlevel
    rw [List.cons_append, List.append_assoc, List.cons_append, closing_up, ihu _ rfl,
      closing_down hne, if_neg hok, Nat.add_sub_cancel, ihv _ rfl]
    simp only [Option.map_map, List.length_cons, List.length_append]
    congr 1
    funext i
    simp only [Function.comp_apply]
    omega

/-- The scan passes what is nested, or ends in it. -/
theorem Nested.closing_append (hne : up ≠ down) {ok : ℕ → Prop} (h : Nested up down ok (n + 1) u) :
    Nested up down (¬ w ∣ ·) (n + 1) u ∨
      ∃ k < u.length, ∀ l, closing up down w n (u ++ l) = some k := by
  generalize hlevel : n + 1 = level at h
  induction h generalizing n with
  | nil => exact .inl (.nil _)
  | other hup hdown _ ih =>
    rcases ih hlevel with h | ⟨k, hk, h⟩
    · exact .inl (.other hup hdown h)
    · refine .inr ⟨k + 1, Nat.succ_lt_succ hk, fun l ↦ ?_⟩
      rw [List.cons_append, closing_other hup hdown, h]
      rfl
  | @pair level u v hok _ _ ihu ihv =>
    subst hlevel
    simp only [List.cons_append, List.append_assoc, closing_up, List.length_cons,
      List.length_append]
    rcases ihu rfl with hu | ⟨k, hk, hu⟩
    · simp only [EeEditor.closing_append hne hu, closing_down hne, Nat.add_sub_cancel]
      by_cases hw : w ∣ n + 1
      · refine .inr ⟨u.length + 1, by omega, fun l ↦ ?_⟩
        rw [if_pos hw]
        simp
      · simp only [if_neg hw]
        rcases ihv rfl with hv | ⟨k, hk, hv⟩
        · exact .inl (.pair hw hu hv)
        · refine .inr ⟨k + 1 + u.length + 1, by omega, fun l ↦ ?_⟩
          rw [hv]
          rfl
    · refine .inr ⟨k + 1, by omega, fun l ↦ ?_⟩
      rw [hu]
      rfl

/-- An unbounded depth is zero behind what is nested and one closing bracket more. -/
theorem exists_nested_of_closing (hne : up ≠ down) (h : closing up down 0 n l = some k) :
    ∃ u rest, l = u ++ down :: rest ∧ Nested up down (fun _ ↦ True) 0 u ∧
      (n = 0 ∧ k = u.length ∨
        0 < n ∧ ∃ k', closing up down 0 (n - 1) rest = some k' ∧ k = u.length + 1 + k') := by
  induction hlength : l.length using Nat.strong_induction_on generalizing l n k with
  | _ length ih =>
    cases l with
    | nil => cases h
    | cons a l =>
      subst hlength
      by_cases hup : a = up
      · subst hup
        rw [closing_up] at h
        obtain ⟨k, hk, rfl⟩ := Option.map_eq_some_iff.mp h
        obtain ⟨u, rest, rfl, hu, hcase⟩ := ih l.length (Nat.lt_succ_self _) hk rfl
        obtain ⟨hzero, -⟩ | ⟨-, k, hlater, rfl⟩ := hcase
        · exact absurd hzero (Nat.succ_ne_zero n)
        · rw [Nat.add_sub_cancel] at hlater
          obtain ⟨v, rest, rfl, hv, hcase⟩ := ih rest.length (by simp; omega) hlater rfl
          refine ⟨a :: (u ++ down :: v), rest, by simp, .pair trivial
            (hu.shift fun _ _ ↦ trivial) hv, ?_⟩
          simp only [List.length_cons, List.length_append]
          obtain ⟨rfl, rfl⟩ | ⟨hn, k, hlast, rfl⟩ := hcase
          · exact .inl ⟨rfl, by omega⟩
          · exact .inr ⟨hn, k, hlast, by omega⟩
      · by_cases hdown : a = down
        · subst hdown
          rw [closing_down hne] at h
          refine ⟨[], l, rfl, .nil _, ?_⟩
          split_ifs at h with hn
          · obtain rfl := Option.some.inj h
            exact .inl ⟨Nat.zero_dvd.mp hn, rfl⟩
          · obtain ⟨k, hk, rfl⟩ := Option.map_eq_some_iff.mp h
            refine .inr ⟨Nat.pos_of_ne_zero fun h ↦ hn (h ▸ Nat.dvd_refl 0), k, hk, ?_⟩
            simp [Nat.add_comm]
        · rw [closing_other hup hdown] at h
          obtain ⟨k, hk, rfl⟩ := Option.map_eq_some_iff.mp h
          obtain ⟨u, rest, rfl, hu, hcase⟩ := ih l.length (Nat.lt_succ_self _) hk rfl
          refine ⟨a :: u, rest, rfl, .other hup hdown hu, ?_⟩
          simp only [List.length_cons]
          obtain ⟨rfl, rfl⟩ | ⟨hn, k, hlater, rfl⟩ := hcase
          · exact .inl ⟨rfl, rfl⟩
          · exact .inr ⟨hn, k, hlater, by omega⟩

/-- **An unbounded scan finds the bracket that closes.** -/
theorem closing_zero_eq_some_iff (hne : up ≠ down) : closing up down 0 0 l = some k ↔
    ∃ u rest, l = u ++ down :: rest ∧ Balanced up down u ∧ k = u.length := by
  constructor
  · intro h
    obtain ⟨u, rest, hl, hu, ⟨-, hk⟩ | ⟨hlt, -⟩⟩ := exists_nested_of_closing hne h
    · exact ⟨u, rest, hl, hu, hk⟩
    · exact absurd hlt (Nat.lt_irrefl 0)
  · rintro ⟨u, rest, rfl, hu, rfl⟩
    have hok : Nested up down (¬ 0 ∣ ·) (0 + 1) u := hu.shift fun a ha hzero ↦ by
      rw [Nat.zero_dvd.mp hzero] at ha
      exact absurd ha (Nat.not_succ_le_zero 0)
    rw [closing_append hne hok, closing_down hne, if_pos (Nat.dvd_refl 0)]
    simp

/-! ## A bounded depth -/

/-- The depth behind the first `k` elements, from `n + 1`. -/
@[grind =] def depthAt (up down : α) (n : ℕ) (l : List α) (k : ℕ) : ℤ :=
  n + 1 + ((l.take k).count up - (l.take k).count down)

/-- While something is still open, no closing bracket brings the depth to a multiple of `w`. -/
def NeverWraps (up down : α) (w n : ℕ) (l : List α) : Prop :=
  ∀ k, l[k]? = some down → (∀ j ≤ k + 1, 0 < depthAt up down n l j) →
    ¬ (w : ℤ) ∣ depthAt up down n l (k + 1)

theorem depthAt_zero : depthAt up down n l 0 = n + 1 := by
  rw [depthAt, List.take_zero, List.count_nil, List.count_nil]
  omega

theorem depthAt_up (hne : up ≠ down) (k : ℕ) :
    depthAt up down n (up :: l) (k + 1) = depthAt up down (n + 1) l k := by
  rw [depthAt, depthAt, List.take_succ_cons, List.count_cons_self, List.count_cons_of_ne hne]
  omega

theorem depthAt_down (hne : up ≠ down) (k : ℕ) :
    depthAt up down n (down :: l) (k + 1) = depthAt up down n l k - 1 := by
  rw [depthAt, depthAt, List.take_succ_cons, List.count_cons_self, List.count_cons_of_ne hne.symm]
  omega

theorem depthAt_other {a : α} (hup : a ≠ up) (hdown : a ≠ down) (k : ℕ) :
    depthAt up down n (a :: l) (k + 1) = depthAt up down n l k := by
  rw [depthAt, depthAt, List.take_succ_cons, List.count_cons_of_ne hup, List.count_cons_of_ne hdown]

theorem depthAt_succ (k : ℕ) : depthAt up down (n + 1) l k = depthAt up down n l k + 1 := by
  rw [depthAt, depthAt]
  omega

theorem neverWraps_of_length (h : n + 1 + l.length < w) : NeverWraps up down w n l := by
  intro k _ hdepths hdvd
  have hle := Int.le_of_dvd (hdepths (k + 1) (Nat.le_refl _)) hdvd
  have hcount : (l.take (k + 1)).count up ≤ l.length :=
    List.count_le_length.trans (List.length_take_le' _ _)
  rw [depthAt] at hle
  omega

/-- The first element does not close, or closes an inner bracket. -/
theorem neverWraps_cons {a : α} {m : ℕ}
    (hdepth : ∀ k, depthAt up down n (a :: l) (k + 1) = depthAt up down m l k) :
    NeverWraps up down w n (a :: l) ↔
      (a = down → ¬ (w : ℤ) ∣ m + 1) ∧ NeverWraps up down w m l := by
  have hpos (j : ℕ) : (∀ i ≤ j + 1, 0 < depthAt up down n (a :: l) i) ↔
      ∀ i ≤ j, 0 < depthAt up down m l i := by
    constructor
    · intro h i hi
      rw [← hdepth]
      exact h (i + 1) (Nat.succ_le_succ hi)
    · rintro h (_ | i) hi
      · rw [depthAt_zero]
        omega
      · rw [hdepth]
        exact h i (Nat.le_of_succ_le_succ hi)
  constructor
  · intro h
    refine ⟨fun ha ↦ ?_, fun k hk hdepths ↦ ?_⟩
    · have hfirst := h 0 (by rw [List.getElem?_cons_zero, ha]) ((hpos 0).mpr fun i hi ↦ by
        rw [Nat.le_zero.mp hi, depthAt_zero]
        omega)
      rwa [hdepth, depthAt_zero] at hfirst
    · rw [← hdepth]
      exact h (k + 1) hk ((hpos (k + 1)).mpr hdepths)
  · rintro ⟨hfirst, hlater⟩ (_ | k) hk hdepths
    · rw [List.getElem?_cons_zero] at hk
      rw [hdepth, depthAt_zero]
      exact hfirst (Option.some.inj hk)
    · rw [hdepth]
      exact hlater k hk ((hpos (k + 1)).mp hdepths)

/-- **A bounded depth finds the same bracket exactly when it never wraps.** -/
theorem closing_eq_iff (hne : up ≠ down) :
    closing up down w n l = closing up down 0 n l ↔ NeverWraps up down w n l := by
  have hsucc : Function.Injective (Option.map (· + 1 : ℕ → ℕ)) :=
    Option.map_injective fun _ _ h ↦ Nat.succ.inj h
  induction l generalizing n with
  | nil => exact iff_of_true rfl fun k hk ↦ absurd hk (by simp)
  | cons a l ih =>
    by_cases hup : a = up
    · subst hup
      rw [closing_up, closing_up, hsucc.eq_iff, neverWraps_cons (depthAt_up hne),
        and_iff_right fun h ↦ absurd h hne]
      exact ih
    · by_cases hdown : a = down
      · subst hdown
        rw [closing_down hne, closing_down hne]
        cases n with
        | zero =>
          rw [if_pos (Nat.dvd_zero w), if_pos (Nat.dvd_refl 0)]
          refine iff_of_true rfl fun k _ hdepths ↦ ?_
          have hfirst := hdepths 1 (Nat.succ_le_succ (Nat.zero_le k))
          rw [depthAt_down hne, depthAt_zero] at hfirst
          exact absurd hfirst (by decide)
        | succ n =>
          have hzero : ¬ 0 ∣ n + 1 := fun h ↦ Nat.succ_ne_zero n (Nat.zero_dvd.mp h)
          have hcast : (w : ℤ) ∣ n + 1 ↔ w ∣ n + 1 := by exact_mod_cast Int.natCast_dvd_natCast
          have hdepth (k : ℕ) : depthAt up a (n + 1) (a :: l) (k + 1) = depthAt up a n l k := by
            rw [depthAt_down hne, depthAt_succ]
            omega
          rw [if_neg hzero, Nat.add_sub_cancel, neverWraps_cons hdepth, hcast]
          split_ifs with hw
          · refine iff_of_false (fun h ↦ ?_) fun h ↦ h.1 rfl hw
            obtain ⟨k, -, hk⟩ := Option.map_eq_some_iff.mp h.symm
            exact Nat.succ_ne_zero k hk
          · rw [hsucc.eq_iff, and_iff_right fun _ ↦ hw]
            exact ih
      · rw [closing_other hup hdown, closing_other hup hdown, hsucc.eq_iff,
          neverWraps_cons (depthAt_other hup hdown), and_iff_right fun h ↦ absurd h hdown]
        exact ih

end EeEditor
