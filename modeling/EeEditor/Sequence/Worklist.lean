import Mathlib.Algebra.BigOperators.Group.List.Basic
import Mathlib.Algebra.GroupWithZero.Nat
import Mathlib.Data.Finset.Card
import Mathlib.Data.Fintype.EquivFin
import Mathlib.Logic.Relation
import Mathlib.Order.Bounds.Basic
import Mathlib.Order.WellFounded

/-!
# Searching a graph with a stack

A search that expands each element once finds its goal exactly when an element of the stack reaches
it, and it ends when only finitely many elements have a step.

## Layers of a relation

The depth of an element is the length of the longest chain of steps that ends in it. An element has
no depth when it lies on a cycle, and in a finite set each of whose elements has a step from another
one there is a cycle.
-/

namespace EeEditor

open Relation

variable {α : Type*} {R : α → α → Prop} {a b : α} {d e k : ℕ}

/-- There is a chain of `k` steps that ends in the element. -/
inductive ChainTo (R : α → α → Prop) : ℕ → α → Prop
  | start (a : α) : ChainTo R 0 a
  | step {k : ℕ} {a b : α} (chain : ChainTo R k a) (edge : R a b) : ChainTo R (k + 1) b

/-- The longest chain that ends in the element has `d` steps. -/
def Depth (R : α → α → Prop) (a : α) (d : ℕ) : Prop := IsGreatest {k | ChainTo R k a} d

theorem chainTo_succ : ChainTo R (k + 1) b ↔ ∃ a, ChainTo R k a ∧ R a b := by
  constructor
  · rintro (_ | ⟨chain, edge⟩)
    exact ⟨_, chain, edge⟩
  · rintro ⟨a, chain, edge⟩
    exact chain.step edge

theorem Depth.unique (h : Depth R a d) (h' : Depth R a e) : d = e := IsGreatest.unique h h'

theorem Depth.chain (h : Depth R a d) : ChainTo R d a := h.1

theorem Depth.chain_le (h : Depth R a d) (chain : ChainTo R k a) : k ≤ d := h.2 chain

theorem Depth.lt_of_edge (ha : Depth R a d) (hb : Depth R b e) (edge : R a b) : d < e :=
  hb.chain_le (ha.chain.step edge)

/-- The depth from the depths of the elements one step before. -/
theorem depth_of_preds (hle : ∀ a, R a b → ∃ e, Depth R a e ∧ e + 1 ≤ d)
    (hmax : d = 0 ∨ ∃ a e, R a b ∧ Depth R a e ∧ d = e + 1) : Depth R b d := by
  constructor
  · rcases hmax with rfl | ⟨a, e, edge, ha, rfl⟩
    · exact .start b
    · exact ha.chain.step edge
  · intro k hk
    cases hk with
    | start => exact Nat.zero_le d
    | step chain edge =>
      obtain ⟨e, ha, hed⟩ := hle _ edge
      exact (Nat.succ_le_succ (ha.chain_le chain)).trans hed

/-- Below an element there is one of each smaller depth. -/
theorem Depth.exists_pred (h : Depth R b (d + 1)) (hdepth : ∀ a, R a b → ∃ e, Depth R a e) :
    ∃ a, R a b ∧ Depth R a d := by
  obtain ⟨a, chain, edge⟩ := chainTo_succ.mp h.chain
  obtain ⟨e, ha⟩ := hdepth a edge
  have hde : d ≤ e := ha.chain_le chain
  have hed : e + 1 ≤ d + 1 := ha.lt_of_edge h edge
  obtain rfl : e = d := by omega
  exact ⟨a, edge, ha⟩

theorem ChainTo.of_transGen (path : TransGen R a b) (chain : ChainTo R k a) :
    ∃ m > k, ChainTo R m b := by
  induction path with
  | single edge => exact ⟨k + 1, Nat.lt_succ_self k, chain.step edge⟩
  | tail _ edge ih =>
    obtain ⟨m, hm, hchain⟩ := ih
    exact ⟨m + 1, hm.trans (Nat.lt_succ_self m), hchain.step edge⟩

theorem Depth.not_cycle (h : Depth R a d) : ¬ TransGen R a a := by
  intro cycle
  obtain ⟨m, hm, chain⟩ := h.chain.of_transGen cycle
  exact absurd (h.chain_le chain) (Nat.not_le.mpr hm)

/-- Elements that wait for one another lie behind a cycle. -/
theorem exists_cycle [Finite α] {s : Set α} (hne : s.Nonempty) (hpred : ∀ b ∈ s, ∃ a ∈ s, R a b) :
    ∃ a, TransGen R a a := by
  by_contra hacyclic
  have : IsTrans α (TransGen R) := ⟨fun _ _ _ ↦ TransGen.trans⟩
  have : Std.Irrefl (TransGen R) := ⟨fun a h ↦ hacyclic ⟨a, h⟩⟩
  have hwf : WellFounded (TransGen R) := Finite.wellFounded_of_trans_of_irrefl _
  obtain ⟨b, hb, hmin⟩ := hwf.has_min s hne
  obtain ⟨a, ha, edge⟩ := hpred b hb
  exact hmin a ha (.single edge)

/-- What a new edge adds to the paths. -/
theorem transGen_or_edge {x y : α} (path : TransGen (fun x y ↦ R x y ∨ x = a ∧ y = b) x y) :
    TransGen R x y ∨ ReflTransGen R x a ∧ ReflTransGen R b y := by
  induction path with
  | single edge =>
    rcases edge with edge | ⟨rfl, rfl⟩
    · exact .inl (.single edge)
    · exact .inr ⟨.refl, .refl⟩
  | tail _ edge ih =>
    rcases edge with edge | ⟨rfl, rfl⟩
    · exact ih.imp (·.tail edge) (And.imp_right (·.tail edge))
    · exact .inr ⟨ih.elim TransGen.to_reflTransGen And.left, .refl⟩

/-- An edge closes no cycle when its end does not reach its start. -/
theorem acyclic_edge (hacyclic : ∀ x, ¬ TransGen R x x) (hreach : ¬ ReflTransGen R b a) (x : α) :
    ¬ TransGen (fun x y ↦ R x y ∨ x = a ∧ y = b) x x := by
  intro cycle
  rcases transGen_or_edge cycle with cycle | ⟨hxa, hbx⟩
  · exact hacyclic x cycle
  · exact hreach (hbx.trans hxa)

end EeEditor

namespace EeEditor

open Relation

variable {α : Type*} [DecidableEq α] {next : α → List α} {goal : α}

/-- The stack has its top first. What has been seen is not expanded again. -/
def searchFor (next : α → List α) (goal : α) : ℕ → List α → List α → Option Bool
  | 0, _, _ => none
  | _ + 1, [], _ => some false
  | fuel + 1, current :: stack, seen =>
    if current = goal then some true
    else if current ∈ seen then searchFor next goal fuel stack seen
    else searchFor next goal fuel ((next current).reverse ++ stack) (current :: seen)

/-- The steps of the elements that have not been seen. -/
def unseenSteps (next : α → List α) (nodes seen : List α) : ℕ :=
  ((nodes.filter (· ∉ seen)).map fun a ↦ (next a).length).sum

theorem unseenSteps_cons (nodes seen : List α) (b : α) :
    unseenSteps next (b :: nodes) seen =
      (if b ∈ seen then 0 else (next b).length) + unseenSteps next nodes seen := by
  rw [unseenSteps, List.filter_cons]
  by_cases hb : b ∈ seen
  · simp [hb, unseenSteps]
  · simp [hb, unseenSteps]

theorem unseenSteps_cons_le (next : α → List α) (nodes seen : List α) (a : α) :
    unseenSteps next nodes (a :: seen) ≤ unseenSteps next nodes seen := by
  induction nodes with
  | nil => exact le_rfl
  | cons b nodes ih =>
    rw [unseenSteps_cons, unseenSteps_cons]
    refine Nat.add_le_add ?_ ih
    by_cases hb : b ∈ seen
    · simp [hb]
    · rw [if_neg hb]
      split
      · exact Nat.zero_le _
      · exact le_rfl

theorem unseenSteps_cons_of_mem {nodes seen : List α} {a : α} (ha : a ∈ nodes) (hseen : a ∉ seen) :
    unseenSteps next nodes (a :: seen) + (next a).length ≤ unseenSteps next nodes seen := by
  induction nodes with
  | nil => cases ha
  | cons b nodes ih =>
    rw [unseenSteps_cons, unseenSteps_cons]
    by_cases hba : b = a
    · subst hba
      have hle := unseenSteps_cons_le next nodes seen b
      rw [if_pos List.mem_cons_self, if_neg hseen]
      omega
    · have hle := ih ((List.mem_cons.mp ha).resolve_left (Ne.symm hba))
      have hsame : b ∈ a :: seen ↔ b ∈ seen := by simp [hba]
      simp only [hsame]
      omega

/-- What is found from the elements seen and those on the stack. -/
theorem exists_searchFor {nodes : List α} (hnodes : ∀ a, a ∉ nodes → next a = []) (fuel : ℕ)
    (stack seen : List α) (hfuel : stack.length + unseenSteps next nodes seen < fuel)
    (hgoal : goal ∉ seen) (hclosed : ∀ a ∈ seen, ∀ b ∈ next a, b ∈ seen ∨ b ∈ stack) :
    ∃ found, searchFor next goal fuel stack seen = some found ∧
      (found = true ↔ ∃ a ∈ seen ++ stack, ReflTransGen (fun a b ↦ b ∈ next a) a goal) := by
  induction fuel generalizing stack seen with
  | zero => exact absurd hfuel (Nat.not_lt_zero _)
  | succ fuel ih =>
    cases stack with
    | nil =>
      refine ⟨false, rfl, iff_of_false Bool.false_ne_true ?_⟩
      rintro ⟨a, ha, hreach⟩
      rw [List.append_nil] at ha
      -- What has been seen is closed, so that the goal would have been seen.
      refine hgoal (hreach.head_induction_on (motive := fun a _ ↦ a ∈ seen → goal ∈ seen) id ?_ ha)
      intro a b hstep _ hb ha
      exact hb ((hclosed a ha b hstep).resolve_right List.not_mem_nil)
    | cons current stack =>
      rw [searchFor]
      by_cases hcurrent : current = goal
      · rw [if_pos hcurrent]
        exact ⟨true, rfl, iff_of_true rfl ⟨current, by simp, hcurrent ▸ .refl⟩⟩
      rw [if_neg hcurrent]
      rw [List.length_cons] at hfuel
      by_cases hseen : current ∈ seen
      · rw [if_pos hseen]
        obtain ⟨found, heq, hfound⟩ := ih stack _ (by omega) hgoal fun a ha b hb ↦ by
          rcases hclosed a ha b hb with hb | hb
          · exact .inl hb
          · rcases List.mem_cons.mp hb with rfl | hb
            · exact .inl hseen
            · exact .inr hb
        refine ⟨found, heq, hfound.trans (exists_congr fun a ↦ and_congr_left fun _ ↦ ?_)⟩
        simp only [List.mem_append, List.mem_cons]
        constructor
        · exact Or.imp_right .inr
        · rintro (ha | rfl | ha)
          · exact .inl ha
          · exact .inl hseen
          · exact .inr ha
      · rw [if_neg hseen]
        have hsteps : unseenSteps next nodes (current :: seen) + (next current).length ≤
            unseenSteps next nodes seen := by
          by_cases hmem : current ∈ nodes
          · exact unseenSteps_cons_of_mem hmem hseen
          · rw [hnodes current hmem]
            exact unseenSteps_cons_le next nodes seen current
        obtain ⟨found, heq, hfound⟩ := ih ((next current).reverse ++ stack) (current :: seen)
          (by rw [List.length_append, List.length_reverse]; omega)
          (by simp [Ne.symm hcurrent, hgoal]) fun a ha b hb ↦ by
            rcases List.mem_cons.mp ha with rfl | ha
            · exact .inr (by simp [hb])
            · rcases hclosed a ha b hb with hb | hb
              · exact .inl (.tail _ hb)
              · rcases List.mem_cons.mp hb with rfl | hb
                · exact .inl List.mem_cons_self
                · exact .inr (by simp [hb])
        refine ⟨found, heq, hfound.trans ⟨?_, ?_⟩⟩
        · rintro ⟨a, ha, hreach⟩
          by_cases hnext : a ∈ next current
          · exact ⟨current, by simp, .head hnext hreach⟩
          · refine ⟨a, ?_, hreach⟩
            simp only [List.mem_append, List.mem_cons, List.mem_reverse] at ha ⊢
            grind
        · rintro ⟨a, ha, hreach⟩
          refine ⟨a, ?_, hreach⟩
          simp only [List.mem_append, List.mem_cons, List.mem_reverse] at ha ⊢
          grind

/-- A search from one element finds the goal exactly when the element reaches it. -/
theorem searchFor_start {nodes : List α} (hnodes : ∀ a, a ∉ nodes → next a = []) {fuel : ℕ}
    (hfuel : (nodes.map fun a ↦ (next a).length).sum + 1 < fuel) (a goal : α) :
    ∃ found, searchFor next goal fuel [a] [] = some found ∧
      (found = true ↔ ReflTransGen (fun a b ↦ b ∈ next a) a goal) := by
  obtain ⟨found, heq, hfound⟩ := exists_searchFor hnodes fuel [a] []
    (by simpa [unseenSteps, Nat.add_comm] using hfuel) List.not_mem_nil nofun
  exact ⟨found, heq, by simpa using hfound⟩

end EeEditor
