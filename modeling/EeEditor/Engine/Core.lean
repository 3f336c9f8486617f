import EeEditor.Engine.Basic

/-!
# The engine: lifecycle and revision lookup

The model of `xi-rope/src/engine/core.rs` and `engine/edit.rs`: the walk backwards through the
history, the contents of old revisions, and new edits based on any revision. `token` is the hash
of a revision ID.
-/

namespace EeEditor

variable {α : Type}

namespace Engine

/-- The empty document. Revision 0 is an undo of no groups. -/
def empty : Engine α where
  session := defaultSession
  revIdCounter := 1
  text := []
  tombstones := []
  deletesFromUnion := Subset.new 0
  undoneGroups := ∅
  revs := [⟨⟨0, 0, 0⟩, 0, .undo ∅ (Subset.new 0)⟩]

def nextRevId (self : Engine α) : RevId :=
  ⟨self.session.1, self.session.2, self.revIdCounter⟩

/-- The index of the last revision that satisfies `p`. -/
def rfindIdx (p : Revision → Bool) (revs : List Revision) : Option ℕ :=
  (revs.reverse.findIdx? p).map fun i ↦ revs.length - 1 - i

def findRev (self : Engine α) (revId : RevId) : Option ℕ :=
  rfindIdx (fun rev ↦ rev.revId = revId) self.revs

def findRevToken (token : RevId → RevToken) (self : Engine α) (revToken : RevToken) : Option ℕ :=
  rfindIdx (fun rev ↦ token rev.revId = revToken) self.revs

/-! ## The walk backwards -/

/-- Invert one revision in a set of deletions, given the groups undone after it. -/
def unapply (invertUndos : Bool) (rev : Revision) (st : Subset × Finset ℕ) :
    Option (Subset × Finset ℕ) :=
  match rev.edit with
  | .edit _ undoGroup inserts deletes =>
    if undoGroup ∈ st.2 then do
      -- undone inserts are shrunk out, there is no need to un-delete them
      let dels ← st.1.transformShrink inserts
      return (dels, st.2)
    else do
      let unDeleted ← st.1.subtract deletes
      let dels ← unDeleted.transformShrink inserts
      return (dels, st.2)
  | .undo toggledGroups deletesBitxor =>
    if invertUndos then do
      let dels ← st.1.bitxor deletesBitxor
      return (dels, symmDiff st.2 toggledGroups)
    else some st

/-- Invert revisions, the last one first. -/
def unapplyAll (invertUndos : Bool) (revs : List Revision) (st : Subset × Finset ℕ) :
    Option (Subset × Finset ℕ) :=
  revs.reverse.foldlM (fun st rev ↦ unapply invertUndos rev st) st

def deletesFromUnionBeforeIndex (self : Engine α) (revIndex : ℕ) (invertUndos : Bool) :
    Option Subset := do
  let revs ← sliceFrom self.revs revIndex
  let st ← unapplyAll invertUndos revs (self.deletesFromUnion, self.undoneGroups)
  return st.1

/-- What `deletes_from_union` would have been at the time of a revision. -/
def deletesFromUnionForIndex (self : Engine α) (revIndex : ℕ) : Option Subset :=
  self.deletesFromUnionBeforeIndex (revIndex + 1) true

/-- Extend a set of deletions by the insertions of a later revision, as deleted. -/
def hideInserts (dels : Subset) (rev : Revision) : Option Subset :=
  match rev.edit with
  | .edit _ _ inserts _ => if !inserts.isEmpty then dels.transformUnion inserts else some dels
  | .undo .. => some dels

/-- What to delete from the current union string to obtain the contents of a revision. -/
def deletesFromCurUnionForIndex (self : Engine α) (revIndex : ℕ) : Option Subset := do
  let dels ← self.deletesFromUnionForIndex revIndex
  let revs ← sliceFrom self.revs (revIndex + 1)
  revs.foldlM hideInserts dels

/-- The contents of the document at a revision. -/
def revContentForIndex (self : Engine α) (revIndex : ℕ) : Option (List α) := do
  let oldDeletesFromUnion ← self.deletesFromCurUnionForIndex revIndex
  let delta ← Delta.synthesize self.tombstones self.deletesFromUnion oldDeletesFromUnion
  delta.apply self.text

/-- The largest undo group used so far. -/
def maxUndoGroupId (self : Engine α) : Option ℕ := self.revs.getLast?.map Revision.maxUndoSoFar

def getHeadRevId (self : Engine α) : Option RevId := self.revs.getLast?.map Revision.revId

def getHead (self : Engine α) : List α := self.text

/-- The text of a revision, if it can be found. The outer `Option` is a panic. -/
def getRev (token : RevId → RevToken) (self : Engine α) (rev : RevToken) :
    Option (Option (List α)) :=
  match self.findRevToken token rev with
  | none => some none
  | some revIndex => do
    let contents ← self.revContentForIndex revIndex
    return some contents

/-- A delta that turns a revision into the current head. -/
def tryDeltaRevHead (token : RevId → RevToken) (self : Engine α) (baseRev : RevToken) :
    Option (Except Error (Delta α)) :=
  match self.findRevToken token baseRev with
  | none => some (.error (.missingRevision baseRev))
  | some ix => do
    let prevFromUnion ← self.deletesFromCurUnionForIndex ix
    let oldTombstones ←
      shuffleTombstones self.text self.tombstones self.deletesFromUnion prevFromUnion
    let delta ← Delta.synthesize oldTombstones prevFromUnion self.deletesFromUnion
    return .ok delta

/-! ## Edits -/

/-- Rebase the two halves of an edit over a later revision. -/
def expandOver (newFullPriority : FullPriority) (st : InsertDelta α × Subset) (rev : Revision) :
    Option (InsertDelta α × Subset) :=
  match rev.edit with
  | .edit priority _ inserts _ =>
    if !inserts.isEmpty then do
      let fullPriority : FullPriority := ⟨priority, rev.revId.sessionId⟩
      let after := decide (newFullPriority ≥ fullPriority)
      let unionInsDelta ← st.1.transformExpand inserts after
      let newDeletes ← st.2.transformExpand inserts
      return (unionInsDelta, newDeletes)
    else some st
  | .undo .. => some st

/-- What a new revision makes of the engine. -/
structure NewRev (α : Type) where
  rev : Revision
  text : List α
  tombstones : List α
  deletesFromUnion : Subset

/-- The revision for a delta based on `baseRev`, rebased to the head. -/
def mkNewRev (token : RevId → RevToken) (self : Engine α) (newPriority undoGroup : ℕ)
    (baseRev : RevToken) (delta : Delta α) : Option (Except Error (NewRev α)) :=
  match self.findRevToken token baseRev with
  | none => some (.error (.missingRevision baseRev))
  | some ix => do
    let (insDelta, deletes) ← delta.factor
    -- rebase the delta from the text to the union string of the base revision
    let deletesAtRev ← self.deletesFromUnionForIndex ix
    if insDelta.delta.baseLen ≠ deletesAtRev.lenAfterDelete then
      return .error (.malformedDelta deletesAtRev.lenAfterDelete insDelta.delta.baseLen)
    else
      let unionInsDelta ← insDelta.transformExpand deletesAtRev true
      let newDeletes ← deletes.transformExpand deletesAtRev
      -- rebase it to the union string of the head
      let later ← sliceFrom self.revs (ix + 1)
      let (unionInsDelta, newDeletes) ←
        later.foldlM (expandOver ⟨newPriority, self.session⟩) (unionInsDelta, newDeletes)
      -- rebase the deletion to be after the inserts
      let newInserts ← unionInsDelta.insertedSubset
      let newDeletes ←
        (if !newInserts.isEmpty then newDeletes.transformExpand newInserts else some newDeletes)
      -- rebase the insertions on the text and apply them
      let textInsDelta ← unionInsDelta.transformShrink self.deletesFromUnion
      let textWithInserts ← textInsDelta.delta.apply self.text
      let rebasedDeletesFromUnion ← self.deletesFromUnion.transformExpand newInserts
      -- the group may already be undone, due to concurrency
      let undone := decide (undoGroup ∈ self.undoneGroups)
      let newDeletesFromUnion ←
        rebasedDeletesFromUnion.union (if undone then newInserts else newDeletes)
      let (newText, newTombstones) ←
        shuffle textWithInserts self.tombstones rebasedDeletesFromUnion newDeletesFromUnion
      let headMax ← self.maxUndoGroupId
      return .ok
        { rev := ⟨self.nextRevId, max undoGroup headMax,
            .edit newPriority undoGroup newInserts newDeletes⟩
          text := newText
          tombstones := newTombstones
          deletesFromUnion := newDeletesFromUnion }

/-- Apply an edit based on any revision. An edit without effect adds no revision. -/
def tryEditRev (token : RevId → RevToken) (self : Engine α) (priority undoGroup : ℕ)
    (baseRev : RevToken) (delta : Delta α) : Option (Except Error (Engine α)) := do
  match ← self.mkNewRev token priority undoGroup baseRev delta with
  | .error err => return .error err
  | .ok new =>
    if new.rev.edit.isNoop then return .ok self
    else
      return .ok { self with
        revIdCounter := self.revIdCounter + 1
        revs := self.revs ++ [new.rev]
        text := new.text
        tombstones := new.tombstones
        deletesFromUnion := new.deletesFromUnion }

/-- Panics on an error. -/
def editRev (token : RevId → RevToken) (self : Engine α) (priority undoGroup : ℕ)
    (baseRev : RevToken) (delta : Delta α) : Option (Engine α) := do
  match ← self.tryEditRev token priority undoGroup baseRev delta with
  | .error _ => none
  | .ok self => some self

/-- A document with initial contents, inserted by a first edit of group 0. -/
def new (token : RevId → RevToken) (initialContents : List α) : Option (Engine α) :=
  if initialContents.isEmpty then some empty
  else do
    let headRevId ← (empty : Engine α).getHeadRevId
    (empty : Engine α).editRev token 0 0 (token headRevId)
      (Delta.simpleEdit 0 0 initialContents 0)

end Engine

end EeEditor
