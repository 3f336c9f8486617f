import Mathlib.Data.Finset.SymmDiff
import Mathlib.Data.Finset.Max
import Mathlib.Data.Prod.Lex
import EeEditor.Rope.Delta

/-!
# The engine: data model

The model of `xi-rope/src/engine/mod.rs`: revisions, the state of an engine, and the functions
that move characters between text and tombstones. A rope is the sequence of its elements, a set
of undo groups is a `Finset ℕ`, and a function that may panic returns an `Option`.
-/

namespace EeEditor

variable {α : Type}

/-- The session ID component of a `RevId`. -/
abbrev SessionId : Type := ℕ × ℕ

/-- The identity of a revision, which it keeps when it is rebased or merged. -/
structure RevId where
  session1 : ℕ
  session2 : ℕ
  num : ℕ
deriving DecidableEq, Repr

def RevId.sessionId (self : RevId) : SessionId := (self.session1, self.session2)

/-- A hash of a `RevId`. The hash function is a parameter of the functions that look up a
revision by its token. -/
abbrev RevToken : Type := ℕ

/-- The order of concurrent insertions: by priority, then by session. -/
structure FullPriority where
  priority : ℕ
  sessionId : SessionId
deriving DecidableEq, Repr

namespace FullPriority

/-- The derived order is the lexicographic one. -/
def key (p : FullPriority) : ℕ ×ₗ ℕ ×ₗ ℕ := toLex (p.priority, toLex p.sessionId)

theorem key_injective : Function.Injective key := by
  rintro ⟨p, s⟩ ⟨q, t⟩ h
  have h' : (p, toLex s) = (q, toLex t) := toLex.injective h
  rw [Prod.mk.injEq] at h'
  rw [h'.1, toLex.injective h'.2]

instance : LinearOrder FullPriority := LinearOrder.lift' key key_injective

end FullPriority

/-- What a revision does. -/
inductive Contents where
  /-- The characters of the union string after the revision that it added, and those that it
  deleted. -/
  | edit (priority undoGroup : ℕ) (inserts deletes : Subset)
  /-- The groups toggled between undone and done, and a reversible difference between the old and
  the new deletions. -/
  | undo (toggledGroups : Finset ℕ) (deletesBitxor : Subset)
deriving DecidableEq

/-- Neither inserts nor deletes anything. -/
def Contents.isNoop : Contents → Bool
  | .edit _ _ inserts deletes => inserts.isEmpty && deletes.isEmpty
  | .undo .. => false

def Contents.isEdit : Contents → Bool
  | .edit .. => true
  | .undo .. => false

structure Revision where
  revId : RevId
  /-- The largest undo group of any edit up to this point. -/
  maxUndoSoFar : ℕ
  edit : Contents
deriving DecidableEq

/-- The state of a document and all of its history. -/
structure Engine (α : Type) where
  session : SessionId
  revIdCounter : ℕ
  /-- The current contents. -/
  text : List α
  /-- The deleted characters. -/
  tombstones : List α
  /-- How many times each character of the union string is deleted. -/
  deletesFromUnion : Subset
  undoneGroups : Finset ℕ
  revs : List Revision
deriving DecidableEq

inductive Error where
  | missingRevision (rev : RevToken)
  | malformedDelta (revLen deltaLen : ℕ)
deriving DecidableEq, Repr

/-- The text shown for an error. -/
def Error.message : Error → String
  | missingRevision _ => "Revision not found"
  | malformedDelta revLen deltaLen =>
    "Delta base_len " ++ toString deltaLen ++ " does not match revision length " ++ toString revLen

def defaultSession : SessionId := (1, 0)

/-- The suffix of a vector from index `i`. Panics when `i` is out of range. -/
def sliceFrom {β : Type} (l : List β) (i : ℕ) : Option (List β) :=
  if i ≤ l.length then some (l.drop i) else none

/-- The tombstones for a new set of deletions: the deltas for the tombstones are those of the text
with both sets complemented. -/
def shuffleTombstones (text tombstones : List α)
    (oldDeletesFromUnion newDeletesFromUnion : Subset) : Option (List α) := do
  let inverseTombstonesMap ← oldDeletesFromUnion.complement
  let newComplement ← newDeletesFromUnion.complement
  let moveDelta ← Delta.synthesize text inverseTombstonesMap newComplement
  moveDelta.apply tombstones

/-- Move sections from text to tombstones and back, for a new set of deletions. -/
def shuffle (text tombstones : List α) (oldDeletesFromUnion newDeletesFromUnion : Subset) :
    Option (List α × List α) := do
  let delDelta ← Delta.synthesize tombstones oldDeletesFromUnion newDeletesFromUnion
  let newText ← delDelta.apply text
  let newTombstones ←
    shuffleTombstones text tombstones oldDeletesFromUnion newDeletesFromUnion
  return (newText, newTombstones)

end EeEditor
