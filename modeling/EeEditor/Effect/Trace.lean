import Mathlib.Data.List.Induction
import Mathlib.Tactic.Common

/-!
# Runs of events

A system is a partial step function: `step s e` is the state after the event `e`, or `none` when the
event cannot happen in `s`. A statement about all interleavings is one about all lists of events,
and a condition on what may happen is one on the state before an event and the event.
-/

namespace EeEditor

variable {σ ε : Type*} {step : σ → ε → Option σ} {s s' : σ} {events pre post : List ε} {e : ε}
  {P : σ → ε → Prop}

/-- The state after the events, when each of them can happen. -/
@[grind =]
def exec (step : σ → ε → Option σ) (s : σ) (events : List ε) : Option σ := events.foldlM step s

@[simp]
theorem exec_nil (s : σ) : exec step s [] = some s := rfl

theorem exec_append (s : σ) (pre post : List ε) :
    exec step s (pre ++ post) = (exec step s pre).bind (exec step · post) :=
  List.foldlM_append

theorem exec_concat (s : σ) (events : List ε) (e : ε) :
    exec step s (events ++ [e]) = (exec step s events).bind (step · e) := by
  rw [exec_append]
  congr 1
  funext s'
  exact List.foldlM_cons.trans (bind_pure _)

theorem exec_concat_eq_some :
    exec step s (events ++ [e]) = some s' ↔ ∃ t, exec step s events = some t ∧
    step t e = some s' := by
  rw [exec_concat, Option.bind_eq_some_iff]

/-- Every event of the run meets the condition in the state that it meets. -/
def Throughout (step : σ → ε → Option σ) (s : σ) (events : List ε) (P : σ → ε → Prop) : Prop :=
  ∀ pre e post t, events = pre ++ e :: post → exec step s pre = some t → P t e

theorem throughout_nil : Throughout step s [] P := by
  intro pre e post t h
  cases pre <;> cases h

theorem throughout_of_forall (h : ∀ s, ∀ e ∈ events, P s e) : Throughout step s events P := by
  rintro pre e post t rfl -
  exact h t e (List.mem_append_right pre List.mem_cons_self)

theorem throughout_cons (he : P s e)
    (hrest : ∀ s', step s e = some s' → Throughout step s' events P) :
    Throughout step s (e :: events) P := by
  intro pre e' post t heq ht
  cases pre with
  | nil =>
    cases heq
    cases ht
    exact he
  | cons d pre =>
    cases heq
    obtain ⟨s', hs', ht⟩ := Option.bind_eq_some_iff.mp ht
    exact hrest s' hs' pre e' post t rfl ht

theorem throughout_cons_iff : Throughout step s (e :: events) P ↔
    P s e ∧ ∀ s', step s e = some s' → Throughout step s' events P := by
  constructor
  · intro h
    refine ⟨h [] e events s rfl rfl, fun s' hs' pre e' post t heq ht ↦ ?_⟩
    refine h (e :: pre) e' post t (congrArg _ heq) ?_
    rw [exec, List.foldlM_cons, hs']
    exact ht
  · rintro ⟨he, hrest⟩
    exact throughout_cons he hrest

instance decidableThroughout [∀ s e, Decidable (P s e)] :
    ∀ (s : σ) (events : List ε), Decidable (Throughout step s events P)
  | _, [] => .isTrue throughout_nil
  | s, e :: events =>
    match h : step s e with
    | none => decidable_of_iff (P s e) <| by
      rw [throughout_cons_iff, h]
      exact ⟨fun he ↦ ⟨he, nofun⟩, And.left⟩
    | some s' =>
      have := decidableThroughout s' events
      decidable_of_iff (P s e ∧ Throughout step s' events P) <| by
        rw [throughout_cons_iff, h]
        refine and_congr_right fun _ ↦ ⟨fun hrest t heq ↦ ?_, fun hrest ↦ hrest s' rfl⟩
        cases heq
        exact hrest

theorem Throughout.of_append (h : Throughout step s (pre ++ post) P) : Throughout step s pre P := by
  rintro pre' e post' t rfl ht
  exact h pre' e (post' ++ post) t (by simp) ht

theorem Throughout.last (h : Throughout step s (events ++ [e]) P) {t : σ}
    (ht : exec step s events = some t) : P t e := h events e [] t rfl ht

theorem throughout_concat (h : Throughout step s events P)
    (hlast : ∀ t, exec step s events = some t → P t e) : Throughout step s (events ++ [e]) P := by
  induction events generalizing s with
  | nil => exact throughout_cons (hlast s rfl) fun _ _ ↦ throughout_nil
  | cons d events ih =>
    obtain ⟨hd, hrest⟩ := throughout_cons_iff.mp h
    refine throughout_cons hd fun s' hs' ↦ ih (hrest s' hs') fun t ht ↦ hlast t ?_
    rw [exec, List.foldlM_cons, hs']
    exact ht

/-- What holds at the start and is kept by every event that meets the condition holds at the end. -/
theorem exec_invariant {I : σ → Prop}
    (hstep : ∀ s e s', I s → P s e → step s e = some s' → I s') (hstart : I s)
    (hall : Throughout step s events P) (hrun : exec step s events = some s') : I s' := by
  induction events using List.reverseRecOn generalizing s' with
  | nil =>
    cases hrun
    exact hstart
  | append_singleton events e ih =>
    obtain ⟨t, ht, hlast⟩ := exec_concat_eq_some.mp hrun
    exact hstep t e s' (ih hall.of_append ht) (hall.last ht) hlast

end EeEditor
