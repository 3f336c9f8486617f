import EeEditor.Orchestrator.Text
import Mathlib.Data.List.Infix
import Mathlib.Tactic.Linarith

/-!
# Write scopes of concurrent subagents

The model of `ee-agent-orchestrator/src/write_conflicts.rs`. Scopes of two subagents never overlap.
A grant replaces the scope that its subagent held before, although conflicts are searched over all
holders: the paths granted first are held by nobody after that.
-/

namespace EeEditor.Orchestrator

abbrev SubagentId := String

inductive WriteScopeError where
  | invalidState (message : String)
  | policyDenied (message : String)
deriving DecidableEq

/-- The scopes by the ids of their holders, in the order of the ids. -/
structure WriteScopeConflictDetector where
  held : Std.TreeMap SubagentId (List PathBuf)

namespace WriteScopeConflictDetector

def new : WriteScopeConflictDetector := ⟨∅⟩

/-- Equal paths, or one an ancestor of the other. -/
def overlaps (a b : PathBuf) : Bool := a.startsWith b || b.startsWith a

/-- The first overlap, in the order of the holders and of their paths. -/
def findConflict (self : WriteScopeConflictDetector) (scope : List PathBuf) :
    Option (SubagentId × PathBuf) :=
  self.held.toList.findSome? fun (holder, paths) ↦
    (paths.find? fun heldPath ↦ scope.any (overlaps heldPath)).map (holder, ·)

def acquire (self : WriteScopeConflictDetector) (subagent : SubagentId) (scope : List PathBuf) :
    Except WriteScopeError Unit × WriteScopeConflictDetector :=
  if scope.isEmpty then (.ok (), self)
  else
    match scope.find? fun path ↦ !path.isAbsolute with
    | some path =>
      (.error (.invalidState ("write scope paths must be absolute; got " ++ path.text)), self)
    | none =>
      match self.findConflict scope with
      | some (holder, heldPath) =>
        (.error (.policyDenied ("write scope overlap: " ++ subagent
          ++ " conflicts with concurrent subagent " ++ holder ++ " at " ++ heldPath.text)), self)
      | none => (.ok (), ⟨self.held.insert subagent scope⟩)

def release (self : WriteScopeConflictDetector) (subagent : SubagentId) :
    Bool × WriteScopeConflictDetector :=
  (self.held.contains subagent, ⟨self.held.erase subagent⟩)

def clear (_ : WriteScopeConflictDetector) : WriteScopeConflictDetector := ⟨∅⟩

def heldScope (self : WriteScopeConflictDetector) (subagent : SubagentId) : Option (List PathBuf) :=
  self.held[subagent]?

/-! ## Grants -/

variable {self : WriteScopeConflictDetector} {subagent : SubagentId} {scope : List PathBuf}

theorem overlaps_self (path : PathBuf) : overlaps path path = true := by
  rw [overlaps, PathBuf.startsWith, List.isPrefixOf_iff_prefix.mpr (List.prefix_refl _),
    Bool.true_or]

theorem overlaps_comm (a b : PathBuf) : overlaps a b = overlaps b a := Bool.or_comm _ _

/-- No conflict is found exactly when no path that is held overlaps one of the scope. -/
theorem findConflict_eq_none_iff : self.findConflict scope = none ↔
    ∀ holder paths, self.heldScope holder = some paths → ∀ p ∈ paths, ∀ q ∈ scope,
      overlaps p q = false := by
  rw [findConflict, List.findSome?_eq_none_iff]
  constructor
  · intro h holder paths hheld p hp q hq
    have hmem : (holder, paths) ∈ self.held.toList :=
      Std.TreeMap.mem_toList_iff_getElem?_eq_some.mpr hheld
    have hnone := Option.map_eq_none_iff.mp (h _ hmem)
    have hany := List.find?_eq_none.mp hnone p hp
    rw [List.any_eq_true, not_exists] at hany
    exact Bool.eq_false_iff.mpr fun hover ↦ hany q ⟨hq, hover⟩
  · rintro h ⟨holder, paths⟩ hmem
    have hheld := Std.TreeMap.mem_toList_iff_getElem?_eq_some.mp hmem
    refine Option.map_eq_none_iff.mpr (List.find?_eq_none.mpr fun p hp hany ↦ ?_)
    obtain ⟨q, hq, hover⟩ := List.any_eq_true.mp hany
    rw [h holder paths hheld p hp q hq] at hover
    cases hover

/-- The scope is not empty, and is granted. -/
def Grants (self : WriteScopeConflictDetector) (scope : List PathBuf) : Prop :=
  scope ≠ [] ∧ (∀ p ∈ scope, p.isAbsolute = true) ∧ self.findConflict scope = none

/-- What an acquisition does. -/
theorem acquire_cases (self : WriteScopeConflictDetector) (subagent : SubagentId)
    (scope : List PathBuf) :
    (self.Grants scope ∧ self.acquire subagent scope
      = (.ok (), ⟨self.held.insert subagent scope⟩)) ∨
    (scope = [] ∧ self.acquire subagent scope = (.ok (), self)) ∨
    (scope ≠ [] ∧ ¬ self.Grants scope ∧ ∃ e, self.acquire subagent scope = (.error e, self)) := by
  rw [acquire]
  split
  · next hempty => exact .inr (.inl ⟨List.isEmpty_iff.mp hempty, rfl⟩)
  next hempty =>
  have hne : scope ≠ [] := fun h ↦ hempty (List.isEmpty_iff.mpr h)
  split
  · next path hpath =>
    refine .inr (.inr ⟨hne, fun hgrants ↦ ?_, _, rfl⟩)
    have habs := hgrants.2.1 path (List.mem_of_find?_eq_some hpath)
    have hrel := List.find?_some hpath
    rw [habs] at hrel
    cases hrel
  next habs =>
  have habs' : ∀ p ∈ scope, p.isAbsolute = true := fun p hp ↦ by
    simpa using List.find?_eq_none.mp habs p hp
  split
  · next holder heldPath hconflict =>
    refine .inr (.inr ⟨hne, fun hgrants ↦ ?_, _, rfl⟩)
    rw [hgrants.2.2] at hconflict
    cases hconflict
  · next hconflict => exact .inl ⟨⟨hne, habs', hconflict⟩, rfl⟩

/-! ## Runs -/

inductive Op where
  | acquire (subagent : SubagentId) (scope : List PathBuf)
  | release (subagent : SubagentId)
  | clear

def step (self : WriteScopeConflictDetector) : Op → WriteScopeConflictDetector
  | .acquire subagent scope => (self.acquire subagent scope).2
  | .release subagent => (self.release subagent).2
  | .clear => self.clear

/-- The detector after some operations. -/
def after (ops : List Op) : WriteScopeConflictDetector := ops.foldl step new

theorem after_append_singleton (ops : List Op) (op : Op) :
    after (ops ++ [op]) = (after ops).step op := List.foldl_concat _ _ _ _

/-- The operation gives up the scope of a subagent. -/
def Op.Frees (subagent : SubagentId) : Op → Prop
  | .acquire _ _ => False
  | .release holder => holder = subagent
  | .clear => True

/-- No path of a subagent overlaps one of another. -/
def Exclusive (self : WriteScopeConflictDetector) : Prop :=
  ∀ a b pathsA pathsB, a ≠ b → self.heldScope a = some pathsA → self.heldScope b = some pathsB →
    ∀ p ∈ pathsA, ∀ q ∈ pathsB, overlaps p q = false

theorem heldScope_step (self : WriteScopeConflictDetector) (op : Op) (a : SubagentId) :
    (¬ op.Frees a ∧ (self.step op).heldScope a = self.heldScope a) ∨
    (∃ scope, op = .acquire a scope ∧ self.Grants scope ∧
      (self.step op).heldScope a = some scope) ∨
    (op.Frees a ∧ (self.step op).heldScope a = none) := by
  cases op with
  | acquire b scope =>
    rcases self.acquire_cases b scope with ⟨hgrants, heq⟩ | ⟨-, heq⟩ | ⟨-, -, e, heq⟩
    · rw [step, heq, heldScope, Std.TreeMap.getElem?_insert]
      by_cases hab : b = a
      · subst hab
        exact .inr (.inl ⟨scope, rfl, hgrants, by simp⟩)
      · exact .inl ⟨id, if_neg (by simpa using hab)⟩
    · exact .inl ⟨id, by rw [step, heq]⟩
    · exact .inl ⟨id, by rw [step, heq]⟩
  | release b =>
    rw [step, release, heldScope, Std.TreeMap.getElem?_erase]
    by_cases hab : b = a
    · subst hab
      exact .inr (.inr ⟨rfl, by simp⟩)
    · exact .inl ⟨hab, if_neg (by simpa using hab)⟩
  | clear => exact .inr (.inr ⟨trivial, Std.TreeMap.getElem?_emptyc⟩)

theorem Exclusive.step (h : self.Exclusive) (op : Op) : (self.step op).Exclusive := by
  intro a b pathsA pathsB hab hA hB p hp q hq
  rcases self.heldScope_step op a with ⟨-, ha⟩ | ⟨scope, rfl, hgrants, ha⟩ | ⟨-, ha⟩
  · rw [ha] at hA
    rcases self.heldScope_step op b with ⟨-, hb⟩ | ⟨scope, rfl, hgrants, hb⟩ | ⟨-, hb⟩
    · exact h a b pathsA pathsB hab hA (hb ▸ hB) p hp q hq
    · obtain rfl := Option.some.inj (hb.symm.trans hB)
      exact findConflict_eq_none_iff.mp hgrants.2.2 a pathsA hA p hp q hq
    · rw [hb] at hB
      cases hB
  · obtain rfl := Option.some.inj (ha.symm.trans hA)
    rcases self.heldScope_step (.acquire a scope) b with ⟨-, hb⟩ | ⟨scope', heq, -, -⟩ | ⟨hfrees, -⟩
    · rw [overlaps_comm]
      exact findConflict_eq_none_iff.mp hgrants.2.2 b pathsB (hb ▸ hB) q hq p hp
    · exact absurd (Op.acquire.inj heq).1 hab
    · exact hfrees.elim
  · rw [ha] at hA
    cases hA

theorem exclusive_after (ops : List Op) : (after ops).Exclusive := by
  induction ops using List.reverseRecOn with
  | nil =>
    intro a b pathsA pathsB _ hA
    rw [heldScope, after, List.foldl_nil, new, Std.TreeMap.getElem?_emptyc] at hA
    cases hA
  | append_singleton ops op ih =>
    rw [after_append_singleton]
    exact ih.step op

/-- What a subagent holds was granted to it, and not given up since. -/
theorem exists_grant {ops : List Op} {a : SubagentId} {paths : List PathBuf}
    (h : (after ops).heldScope a = some paths) :
    ∃ pre post, ops = pre ++ .acquire a paths :: post ∧ (after pre).Grants paths ∧
      ∀ op ∈ post, ¬ op.Frees a := by
  induction ops using List.reverseRecOn with
  | nil =>
    rw [heldScope, after, List.foldl_nil, new, Std.TreeMap.getElem?_emptyc] at h
    cases h
  | append_singleton ops op ih =>
    rw [after_append_singleton] at h
    rcases (after ops).heldScope_step op a with ⟨hkeeps, heq⟩ | ⟨scope, rfl, hgrants,
      heq⟩ | ⟨-, heq⟩
    · obtain ⟨pre, post, rfl, hgrants, hpost⟩ := ih (heq ▸ h)
      refine ⟨pre, post ++ [op], by simp, hgrants, fun x hx ↦ ?_⟩
      rcases List.mem_append.mp hx with hx | hx
      · exact hpost x hx
      · rwa [List.mem_singleton.mp hx]
    · obtain rfl := Option.some.inj (heq.symm.trans h)
      exact ⟨ops, [], rfl, hgrants, nofun⟩
    · rw [heq] at h
      cases h

/-- A path that is granted stays with its subagent until it is given up. -/
def KeepsGrants (ops : List Op) : Prop :=
  ∀ pre a scope mid post, ops = pre ++ .acquire a scope :: (mid ++ post) →
    ((after pre).acquire a scope).1 = .ok () → (∀ op ∈ mid, ¬ op.Frees a) →
    ∀ p ∈ scope, ∃ paths, (after (pre ++ .acquire a scope :: mid)).heldScope a = some paths ∧
      p ∈ paths

/-- An acquisition that fails changes nothing. -/
def FailuresChangeNothing (ops : List Op) : Prop :=
  ∀ pre a scope post e, ops = pre ++ .acquire a scope :: post →
    ((after pre).acquire a scope).1 = .error e → ((after pre).acquire a scope).2 = after pre

/-- No subagent that holds a scope is granted another one. -/
def GrantsOnce (ops : List Op) : Prop :=
  ∀ pre a scope post, ops = pre ++ .acquire a scope :: post → (after pre).Grants scope →
    (after pre).heldScope a = none

theorem failuresChangeNothing (ops : List Op) : FailuresChangeNothing ops := by
  intro pre a scope post e _ herr
  rcases (after pre).acquire_cases a scope with ⟨-, heq⟩ | ⟨-, heq⟩ | ⟨-, -, e', heq⟩
  · rw [heq] at herr
    cases herr
  · rw [heq] at herr
    cases herr
  · rw [heq]

theorem GrantsOnce.prefix {ops post : List Op} (h : GrantsOnce (ops ++ post)) : GrantsOnce ops :=
  fun pre a scope rest heq ↦ h pre a scope (rest ++ post) (by rw [heq]; simp)

/-- A scope that is held stays the same while it is not given up, if no holder is granted
another. -/
theorem GrantsOnce.heldScope_append {pre mid : List Op} (h : GrantsOnce (pre ++ mid))
    {a : SubagentId} {paths : List PathBuf} (hheld : (after pre).heldScope a = some paths)
    (hmid : ∀ op ∈ mid, ¬ op.Frees a) : (after (pre ++ mid)).heldScope a = some paths := by
  induction mid using List.reverseRecOn with
  | nil => rwa [List.append_nil]
  | append_singleton mid op ih =>
    rw [← List.append_assoc] at h ⊢
    have hprev := ih h.prefix fun x hx ↦ hmid x (List.mem_append_left _ hx)
    rw [after_append_singleton]
    rcases (after (pre ++ mid)).heldScope_step op a with
      ⟨-, heq⟩ | ⟨scope, rfl, hgrants, -⟩ | ⟨hfrees, -⟩
    · rw [heq, hprev]
    · rw [h (pre ++ mid) a scope [] rfl hgrants] at hprev
      cases hprev
    · exact absurd hfrees (hmid op (by simp))

theorem GrantsOnce.keepsGrants {ops : List Op} (h : GrantsOnce ops) : KeepsGrants ops := by
  rintro pre a scope mid post rfl hok hmid p hp
  have hgrants : (after pre).Grants scope := by
    rcases (after pre).acquire_cases a scope with ⟨hgrants, -⟩ | ⟨rfl, -⟩ | ⟨-, -, e, heq⟩
    · exact hgrants
    · cases hp
    · rw [heq] at hok
      cases hok
  have hheld : (after (pre ++ [.acquire a scope])).heldScope a = some scope := by
    rw [after_append_singleton]
    rcases (after pre).acquire_cases a scope with ⟨-, heq⟩ | ⟨rfl, -⟩ | ⟨-, hnot, -⟩
    · rw [step, heq, heldScope, Std.TreeMap.getElem?_insert_self]
    · cases hp
    · exact absurd hgrants hnot
  refine ⟨scope, ?_, hp⟩
  rw [List.append_cons] at h ⊢
  rw [← List.append_assoc] at h
  exact h.prefix.heldScope_append hheld hmid

theorem KeepsGrants.grantsOnce {ops : List Op} (h : KeepsGrants ops) : GrantsOnce ops := by
  rintro pre a scope post rfl hgrants
  by_contra hheld
  obtain ⟨paths, hpaths⟩ := Option.ne_none_iff_exists'.mp hheld
  obtain ⟨pre₀, mid, rfl, hgrants₀, hmid⟩ := exists_grant hpaths
  obtain ⟨p, hp⟩ := List.exists_mem_of_ne_nil paths hgrants₀.1
  have hok : ((after pre₀).acquire a paths).1 = .ok () := by
    rcases (after pre₀).acquire_cases a paths with ⟨-, heq⟩ | ⟨rfl, -⟩ | ⟨-, hnot, -⟩
    · rw [heq]
    · cases hp
    · exact absurd hgrants₀ hnot
  -- The path granted first is held after the second grant, and so it is in the second scope,
  -- with which it was not to overlap.
  obtain ⟨paths', hpaths', hp'⟩ := h pre₀ a paths (mid ++ [.acquire a scope]) post (by simp) hok
    (fun op hop ↦ by
      rcases List.mem_append.mp hop with hop | hop
      · exact hmid op hop
      · rw [List.mem_singleton.mp hop]
        exact id) p hp
  have hafter : (after (pre₀ ++ .acquire a paths :: (mid ++ [.acquire a scope]))).heldScope a
      = some scope := by
    rw [show pre₀ ++ Op.acquire a paths :: (mid ++ [.acquire a scope])
      = (pre₀ ++ .acquire a paths :: mid) ++ [.acquire a scope] by simp, after_append_singleton]
    rcases (after (pre₀ ++ .acquire a paths :: mid)).acquire_cases a scope with
      ⟨-, heq⟩ | ⟨rfl, -⟩ | ⟨-, hnot, -⟩
    · rw [step, heq, heldScope, Std.TreeMap.getElem?_insert_self]
    · exact absurd rfl hgrants.1
    · exact absurd hgrants hnot
  obtain rfl := Option.some.inj (hafter.symm.trans hpaths')
  have hover := findConflict_eq_none_iff.mp hgrants.2.2 a paths hpaths p hp p hp'
  rw [overlaps_self] at hover
  cases hover

/-- In every run scopes are exclusive and acquisitions that fail change nothing. No path that is
granted is dropped early exactly when no subagent that holds a scope is granted another one. -/
theorem keepsScopes_iff (ops : List Op) :
    ((∀ pre post, ops = pre ++ post → (after pre).Exclusive) ∧ KeepsGrants ops ∧
      FailuresChangeNothing ops) ↔ GrantsOnce ops :=
  ⟨fun h ↦ h.2.1.grantsOnce, fun h ↦
    ⟨fun pre _ _ ↦ exclusive_after pre, h.keepsGrants, failuresChangeNothing ops⟩⟩

/-- The subagent `a` is granted `/x` and then `/y`, and `/x` is held by nobody. -/
theorem second_grant_drops_first :
    ¬ KeepsGrants [.acquire "a" [⟨"/x"⟩], .acquire "a" [⟨"/y"⟩]] := by
  intro h
  have hgrants := h.grantsOnce [.acquire "a" [⟨"/x"⟩]] "a" [⟨"/y"⟩] [] rfl
    ⟨by decide, by decide, rfl⟩
  exact absurd hgrants (by decide +kernel)

end WriteScopeConflictDetector

end EeEditor.Orchestrator
