import Mathlib.Algebra.Order.Group.Nat
import Mathlib.Data.List.Infix
import EeEditor.Sequence.Lines

/-!
# Replacing occurrences

The first occurrence of a pattern, or each one from left to right, is replaced. Where the pattern
occurs, the result shows what it was replaced by.
-/

namespace EeEditor

variable {α : Type*}

/-! ## Texts with a gap -/

/-- The text that is put into the gaps is found again in the result, if there is a gap, and makes
no difference if there is none. -/
structure HasGap (gap : Prop) (f : List α → List α) : Prop where
  length : ∃ c k, (gap ↔ 0 < k) ∧ ∀ new, (f new).length = c + k * new.length
  injective : gap → Function.Injective f
  const : ¬ gap → ∀ new new', f new = f new'

variable {gap gap' : Prop} {f g : List α → List α}

theorem hasGap_const (text : List α) : HasGap False fun _ ↦ text where
  length := ⟨text.length, 0, by simp, by simp⟩
  injective := False.elim
  const _ _ _ := rfl

theorem hasGap_id : HasGap True fun new : List α ↦ new where
  length := ⟨0, 1, by simp, by simp⟩
  injective _ _ _ h := h
  const h := absurd trivial h

theorem HasGap.congr (h : HasGap gap f) (hiff : gap ↔ gap') : HasGap gap' f where
  length := by
    obtain ⟨c, k, hk, hlength⟩ := h.length
    exact ⟨c, k, hiff.symm.trans hk, hlength⟩
  injective := fun hgap ↦ h.injective (hiff.mpr hgap)
  const := fun hgap ↦ h.const (mt hiff.mp hgap)

theorem HasGap.eq_iff (h : HasGap gap f) {new new' : List α} :
    f new = f new' ↔ (gap → new = new') := by
  refine ⟨fun heq hgap ↦ h.injective hgap heq, fun heq ↦ ?_⟩
  by_cases hgap : gap
  · rw [heq hgap]
  · exact h.const hgap _ _

theorem HasGap.append (hf : HasGap gap f) (hg : HasGap gap' g) :
    HasGap (gap ∨ gap') fun new ↦ f new ++ g new where
  length := by
    obtain ⟨c, k, hk, hlength⟩ := hf.length
    obtain ⟨c', k', hk', hlength'⟩ := hg.length
    refine ⟨c + c', k + k', by rw [hk, hk']; omega, fun new ↦ ?_⟩
    rw [List.length_append, hlength, hlength', Nat.add_mul]
    omega
  injective := by
    intro hgap new new' heq
    obtain ⟨c, k, hk, hlength⟩ := hf.length
    obtain ⟨c', k', hk', hlength'⟩ := hg.length
    have hsame : new.length = new'.length := by
      have hlengths := congrArg List.length heq
      simp only [List.length_append, hlength, hlength'] at hlengths
      have hpos : 0 < k + k' := by
        rcases hgap with hgap | hgap
        · exact Nat.add_pos_left (hk.mp hgap) _
        · exact Nat.add_pos_right _ (hk'.mp hgap)
      refine Nat.eq_of_mul_eq_mul_left hpos ?_
      rw [Nat.add_mul, Nat.add_mul]
      omega
    obtain ⟨hfirst, hsecond⟩ := List.append_inj heq (by rw [hlength, hlength, hsame])
    rcases hgap with hgap | hgap
    · exact hf.injective hgap hfirst
    · exact hg.injective hgap hsecond
  const := by
    intro hgap new new'
    rw [not_or] at hgap
    rw [hf.const hgap.1 new new', hg.const hgap.2 new new']

/-- Lines are joined, and their gaps with them. -/
theorem hasGap_intercalate (sep : α) (lines : List (List α)) {gap : ℕ → List α → Prop}
    {f : ℕ → List α → List α → List α}
    (h : ∀ n line, lines[n]? = some line → HasGap (gap n line) fun new ↦ f n line new) :
    HasGap (∃ n line, lines[n]? = some line ∧ gap n line)
      fun new ↦ [sep].intercalate (lines.mapIdx fun n line ↦ f n line new) := by
  induction lines generalizing gap f with
  | nil =>
    refine (hasGap_const []).congr ⟨False.elim, ?_⟩
    rintro ⟨n, line, hline, -⟩
    cases hline
  | cons line lines ih =>
    have hfirst := h 0 line rfl
    have hlater := ih (f := fun n ↦ f (n + 1)) fun n line hline ↦ h (n + 1) line hline
    have hiff : (gap 0 line ∨ ∃ n line, lines[n]? = some line ∧ gap (n + 1) line) ↔
        ∃ n other, (line :: lines)[n]? = some other ∧ gap n other := by
      constructor
      · rintro (hgap | ⟨n, other, hother, hgap⟩)
        · exact ⟨0, line, rfl, hgap⟩
        · exact ⟨n + 1, other, hother, hgap⟩
      · rintro ⟨_ | n, other, hother, hgap⟩
        · obtain rfl := Option.some.inj hother
          exact .inl hgap
        · exact .inr ⟨n, other, hother, hgap⟩
    cases lines with
    | nil =>
      simp only [List.mapIdx_singleton, List.intercalate_singleton]
      refine hfirst.congr ?_
      rw [← hiff, or_iff_left]
      rintro ⟨n, other, hother, -⟩
      cases hother
    | cons next lines =>
      have hjoin := (hfirst.append ((hasGap_const [sep]).append hlater)).congr
        ((or_congr_right (or_iff_right id)).trans hiff)
      simp only [List.mapIdx_cons, List.intercalate_cons_cons, List.append_assoc] at hjoin ⊢
      exact hjoin

/-! ## Replacing -/

variable [DecidableEq α] {pattern : List α}

/-- The first occurrence of a pattern is replaced. -/
def replaceFirst (pattern new : List α) : List α → List α
  | [] => []
  | a :: rest =>
    if pattern <+: a :: rest then new ++ (a :: rest).drop pattern.length
    else a :: replaceFirst pattern new rest

/-- The occurrences of a pattern are replaced from left to right, behind what is left to be passed
of one that was replaced. -/
def replaceEvery (pattern new : List α) : ℕ → List α → List α
  | _, [] => []
  | passing + 1, _ :: rest => replaceEvery pattern new passing rest
  | 0, a :: rest =>
    if pattern <+: a :: rest then new ++ replaceEvery pattern new (pattern.length - 1) rest
    else a :: replaceEvery pattern new 0 rest

theorem hasGap_replaceFirst (hpattern : pattern ≠ []) (text : List α) :
    HasGap (pattern <:+: text) fun new ↦ replaceFirst pattern new text := by
  induction text with
  | nil => exact (hasGap_const []).congr ⟨False.elim, fun h ↦ hpattern (List.infix_nil.mp h)⟩
  | cons a rest ih =>
    by_cases hpref : pattern <+: a :: rest
    · have hgap := hasGap_id.append (hasGap_const ((a :: rest).drop pattern.length))
      simp only [replaceFirst, if_pos hpref]
      exact hgap.congr (by simp [hpref.isInfix])
    · have hgap := (hasGap_const [a]).append ih
      simp only [replaceFirst, if_neg hpref]
      exact hgap.congr (by rw [List.infix_cons_iff, or_iff_right hpref, false_or])

theorem hasGap_replaceEvery (hpattern : pattern ≠ []) (text : List α) :
    HasGap (pattern <:+: text) fun new ↦ replaceEvery pattern new 0 text := by
  suffices hpassing : ∀ passing, ∃ gap, (passing = 0 → (gap ↔ pattern <:+: text)) ∧
      HasGap gap fun new ↦ replaceEvery pattern new passing text by
    obtain ⟨gap, hiff, hgap⟩ := hpassing 0
    exact hgap.congr (hiff rfl)
  induction text with
  | nil =>
    refine fun passing ↦ ⟨False, fun _ ↦ ⟨False.elim, fun h ↦ hpattern (List.infix_nil.mp h)⟩, ?_⟩
    cases passing <;> exact hasGap_const []
  | cons a rest ih =>
    intro passing
    cases passing with
    | succ passing =>
      obtain ⟨gap, -, hgap⟩ := ih passing
      exact ⟨gap, fun h ↦ absurd h (Nat.succ_ne_zero _), hgap⟩
    | zero =>
      by_cases hpref : pattern <+: a :: rest
      · obtain ⟨gap, -, hgap⟩ := ih (pattern.length - 1)
        simp only [replaceEvery, if_pos hpref]
        exact ⟨_, fun _ ↦ by simp [hpref.isInfix], hasGap_id.append hgap⟩
      · obtain ⟨gap, hiff, hgap⟩ := ih 0
        simp only [replaceEvery, if_neg hpref]
        refine ⟨_, fun _ ↦ ?_, (hasGap_const [a]).append hgap⟩
        rw [List.infix_cons_iff, or_iff_right hpref, false_or]
        exact hiff rfl

/-- A pattern that is replaced by itself is not replaced. -/
theorem replaceFirst_self (pattern text : List α) : replaceFirst pattern pattern text = text := by
  induction text with
  | nil => rfl
  | cons a rest ih =>
    rw [replaceFirst]
    split_ifs with hpref
    · obtain ⟨tail, htail⟩ := hpref
      rw [← htail, List.drop_left]
    · rw [ih]

theorem replaceEvery_self (hpattern : pattern ≠ []) (text : List α) :
    replaceEvery pattern pattern 0 text = text := by
  suffices hpassing : ∀ passing, replaceEvery pattern pattern passing text = text.drop passing from
    hpassing 0
  induction text with
  | nil =>
    intro passing
    cases passing <;> rfl
  | cons a rest ih =>
    intro passing
    cases passing with
    | succ passing => exact ih passing
    | zero =>
      rw [replaceEvery]
      split_ifs with hpref
      · obtain ⟨tail, htail⟩ := hpref
        obtain ⟨b, pattern, rfl⟩ := List.exists_cons_of_ne_nil hpattern
        rw [List.cons_append, List.cons.injEq] at htail
        rw [ih, List.length_cons, Nat.add_sub_cancel, ← htail.2, List.drop_left, htail.1,
          List.drop_zero]
        rfl
      · rw [ih]
        rfl

end EeEditor
