import Mathlib.Tactic.Common

/-!
# Actions on a state

An action reads an environment, changes a state, and returns a value or an error. The environment
says what the world outside does, and nothing is assumed of it unless a statement says so. `none` is
a panic. `Triple` is partial correctness, with a postcondition of both outcomes, and `Ends` is the
absence of panics.
-/

namespace EeEditor

variable {ρ ω ε α β : Type}

def Action (ρ ω ε α : Type) : Type := ρ → ω → Option (Except ε α × ω)

namespace Action

instance : Monad (Action ρ ω ε) where
  pure a := fun _ w ↦ some (.ok a, w)
  bind x f := fun env w ↦
    match x env w with
    | none => none
    | some (.error e, w) => some (.error e, w)
    | some (.ok a, w) => f a env w

/-- Fail. -/
@[grind =] def throw (e : ε) : Action ρ ω ε α := fun _ w ↦ some (.error e, w)

/-- Panic. -/
@[grind =] def panic : Action ρ ω ε α := fun _ _ ↦ none

/-- An action that follows one that succeeds. -/
theorem bind_ok {x : Action ρ ω ε α} {f : α → Action ρ ω ε β} {env : ρ} {w w' : ω} {a : α}
    (h : x env w = some (.ok a, w')) : (x >>= f) env w = f a env w' := by
  have hbind : (x >>= f) env w = match x env w with
    | none => none
    | some (.error e, w) => some (.error e, w)
    | some (.ok a, w) => f a env w := rfl
  rw [hbind, h]

end Action

/-- From a state where `P` holds the action does not end in an outcome where `Q` fails. -/
@[grind =]
def Triple (env : ρ) (P : ω → Prop) (x : Action ρ ω ε α) (Q : Except ε α → ω → Prop) : Prop :=
  ∀ w, P w → ∀ r w', x env w = some (r, w') → Q r w'

namespace Triple

variable {env : ρ} {P P' : ω → Prop} {x : Action ρ ω ε α} {f : α → Action ρ ω ε β}
  {Q : Except ε β → ω → Prop} {R R' : Except ε α → ω → Prop}

theorem pure {a : α} (h : ∀ w, P w → R (.ok a) w) :
    Triple env P (Pure.pure a : Action ρ ω ε α) R := by
  intro w hw r w' hr
  obtain ⟨rfl, rfl⟩ := Prod.mk.inj (Option.some.inj hr)
  exact h _ hw

theorem throw {e : ε} (h : ∀ w, P w → R (.error e) w) :
    Triple env P (Action.throw e : Action ρ ω ε α) R := by
  intro w hw r w' hr
  obtain ⟨rfl, rfl⟩ := Prod.mk.inj (Option.some.inj hr)
  exact h _ hw

theorem bind (hx : Triple env P x R) (hf : ∀ a, Triple env (R (.ok a)) (f a) Q)
    (he : ∀ e w, R (.error e) w → Q (.error e) w) : Triple env P (x >>= f) Q := by
  intro w hw r w' hr
  have hbind : (match x env w with
      | none => none
      | some (.error e, w) => some (.error e, w)
      | some (.ok a, w) => f a env w) = some (r, w') := hr
  cases hxw : x env w with
  | none =>
    rw [hxw] at hbind
    cases hbind
  | some p =>
    obtain ⟨r₁, w₁⟩ := p
    have hR := hx w hw r₁ w₁ hxw
    rw [hxw] at hbind
    cases r₁ with
    | error e =>
      obtain ⟨rfl, rfl⟩ := Prod.mk.inj (Option.some.inj hbind)
      exact he e _ hR
    | ok a => exact hf a w₁ hR r w' hbind

theorem conseq (hx : Triple env P x R) (hP : ∀ w, P' w → P w) (hR : ∀ r w, R r w → R' r w) :
    Triple env P' x R' :=
  fun w hw r w' hr ↦ hR r w' (hx w (hP w hw) r w' hr)

/-- What the precondition says of no state may be assumed. -/
theorem assume {p : Prop} (hp : ∀ w, P w → p) (hx : p → Triple env P x R) : Triple env P x R :=
  fun w hw ↦ hx (hp w hw) w hw

end Triple

/-- The action does not panic, and the errors that it ends with are among those of `E`. -/
@[grind =] def Ends (env : ρ) (E : ε → Prop) (x : Action ρ ω ε α) : Prop :=
  ∀ w, ∃ r w', x env w = some (r, w') ∧ ∀ e, r = .error e → E e

namespace Ends

variable {env : ρ} {E : ε → Prop} {x : Action ρ ω ε α} {f : α → Action ρ ω ε β}

theorem pure (a : α) : Ends env E (Pure.pure a : Action ρ ω ε α) :=
  fun w ↦ ⟨.ok a, w, rfl, nofun⟩

theorem throw {e : ε} (h : E e) : Ends env E (Action.throw e : Action ρ ω ε α) :=
  fun w ↦ ⟨.error e, w, rfl, fun _ he ↦ Except.error.inj he ▸ h⟩

theorem bind (hx : Ends env E x) (hf : ∀ a, Ends env E (f a)) : Ends env E (x >>= f) := by
  intro w
  obtain ⟨r, w₁, hr, hE⟩ := hx w
  have hbind : (x >>= f) env w = match x env w with
    | none => none
    | some (.error e, w) => some (.error e, w)
    | some (.ok a, w) => f a env w := rfl
  rw [hbind, hr]
  cases r with
  | error e => exact ⟨.error e, w₁, rfl, fun _ he ↦ hE _ (by rw [Except.error.inj he])⟩
  | ok a => exact hf a w₁

end Ends

end EeEditor
