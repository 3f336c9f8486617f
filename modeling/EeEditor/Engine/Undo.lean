import EeEditor.Engine.Core

/-!
# The engine: undo and garbage collection

The model of `xi-rope/src/engine/undo.rs` and `engine/gc.rs`. Undo recomputes the deletions for a
new set of undone groups; garbage collection removes characters for good, shrinks every revision
and drops some of them.
-/

namespace EeEditor

variable {α : Type}

namespace Engine

/-! ## Undo -/

/-- The empty deletion set before the first revision. Panics without revisions. -/
def emptySubsetBeforeFirstRev (self : Engine α) : Option Subset :=
  match self.revs with
  | [] => none
  | firstRev :: _ =>
    match firstRev.edit with
    | .edit _ _ inserts _ => some (Subset.new (inserts.count .zero))
    | .undo _ deletesBitxor => some (Subset.new (deletesBitxor.count .all))

/-- The loop of `find_first_undo_candidate_index` over the first `n` revisions, the last first. -/
def firstUndoCandidate (revs : List Revision) (lowestGroup : ℕ) : ℕ :=
  match revs.reverse.findIdx? fun rev ↦ rev.maxUndoSoFar < lowestGroup with
  | some i => revs.length - i
  | none => 0

/-- The first revision that toggling a set of groups could affect. -/
def findFirstUndoCandidateIndex (self : Engine α) (toggledGroups : Finset ℕ) : ℕ :=
  match toggledGroups.min with
  | some lowestGroup => firstUndoCandidate self.revs lowestGroup
  | none => self.revs.length

/-- Apply one revision to a set of deletions, for a given set of undone groups. -/
def reapply (groups : Finset ℕ) (dels : Subset) (rev : Revision) : Option Subset :=
  match rev.edit with
  | .edit _ undoGroup inserts deletes =>
    if undoGroup ∈ groups then
      if !inserts.isEmpty then dels.transformUnion inserts else some dels
    else do
      let dels ← (if !inserts.isEmpty then dels.transformExpand inserts else some dels)
      if !deletes.isEmpty then dels.union deletes else some dels
  | .undo .. => some dels

/-- The deletions for a set of undone groups, computed from the beginning. -/
def deletesFromUnionForUndoneGroups (self : Engine α) (groups : Finset ℕ) : Option Subset := do
  let dels ← self.emptySubsetBeforeFirstRev
  self.revs.foldlM (reapply groups) dels

/-- The undo revision and the deletions for a new set of undone groups. Only the revisions from
the first candidate on are un-applied and replayed. -/
def computeUndo (self : Engine α) (groups : Finset ℕ) : Option (Revision × Subset) := do
  let toggledGroups := symmDiff self.undoneGroups groups
  let firstCandidate := self.findFirstUndoCandidateIndex toggledGroups
  -- undos are not inverted, the candidate is based on the current undo set
  let dels ← self.deletesFromUnionBeforeIndex firstCandidate false
  let revs ← sliceFrom self.revs firstCandidate
  let dels ← revs.foldlM (reapply groups) dels
  let deletesBitxor ← self.deletesFromUnion.bitxor dels
  let maxUndoSoFar ← self.maxUndoGroupId
  return (⟨self.nextRevId, maxUndoSoFar, .undo toggledGroups deletesBitxor⟩, dels)

/-- An undo that changes no deletion. -/
def isSilent (rev : Revision) : Bool :=
  match rev.edit with
  | .undo _ deletesBitxor => deletesBitxor.isEmpty
  | .edit .. => false

/-- Make `groups` the set of undone groups. When the deletions do not change, no revision is
recorded. -/
def undo (self : Engine α) (groups : Finset ℕ) : Option (Engine α) := do
  let (newRev, newDeletesFromUnion) ← self.computeUndo groups
  if isSilent newRev then return { self with undoneGroups := groups }
  else
    let (newText, newTombstones) ←
      shuffle self.text self.tombstones self.deletesFromUnion newDeletesFromUnion
    return { self with
      text := newText
      tombstones := newTombstones
      deletesFromUnion := newDeletesFromUnion
      undoneGroups := groups
      revs := self.revs ++ [newRev]
      revIdCounter := self.revIdCounter + 1 }

/-- Whether two revisions delete the same characters of the current union string. -/
def isEquivalentRevision (self : Engine α) (baseRev otherRev : RevId) : Option Bool :=
  let subset (rev : RevId) : Option (Option Subset) :=
    match self.findRev rev with
    | none => some none
    | some revIndex => (self.deletesFromCurUnionForIndex revIndex).map some
  do
    let baseSubset ← subset baseRev
    let otherSubset ← subset otherRev
    return baseSubset.isSome && baseSubset = otherSubset

/-! ## Garbage collection -/

/-- One step of the loop that collects the characters to remove: those inserted by undone groups
and those deleted by the others, for revisions of a collected group that are not retained. -/
def gcDelsStep (undoneGroups gcGroups : Finset ℕ) (retainRevs : List RevId) (gcDels : Subset)
    (rev : Revision) : Option Subset :=
  match rev.edit with
  | .edit _ undoGroup inserts deletes =>
    if rev.revId ∉ retainRevs ∧ undoGroup ∈ gcGroups then
      if undoGroup ∈ undoneGroups then
        if !inserts.isEmpty then gcDels.transformUnion inserts else some gcDels
      else do
        let gcDels ← (if !inserts.isEmpty then gcDels.transformExpand inserts else some gcDels)
        if !deletes.isEmpty then gcDels.union deletes else some gcDels
    else if !inserts.isEmpty then gcDels.transformExpand inserts
    else some gcDels
  | .undo .. => some gcDels

/-- One step of the loop that shrinks the revisions, the last one first. `gcDels` are the
characters to remove from the union string after the revision. Returns the characters to remove
before it, and what is kept of the revision. -/
def gcRevStep (gcGroups : Finset ℕ) (retainRevs : List RevId) (gcDels : Subset)
    (rev : Revision) : Option (Subset × Option Revision) :=
  match rev.edit with
  | .edit priority undoGroup inserts deletes => do
    let newGcDels ← (if inserts.isEmpty then some gcDels else gcDels.transformShrink inserts)
    let (inserts, deletes) ←
      (if gcDels.isEmpty then some (inserts, deletes)
      else do
        let inserts ← inserts.transformShrink gcDels
        let deletes ← deletes.transformShrink gcDels
        return (inserts, deletes))
    let retainVisibleInsert := decide (undoGroup ∈ gcGroups) && !inserts.isEmpty
    let dropGcOnlyDelete := decide (undoGroup ∈ gcGroups) && inserts.isEmpty
    let kept :=
      (decide (rev.revId ∈ retainRevs) || !decide (undoGroup ∈ gcGroups) || retainVisibleInsert)
        && (!dropGcOnlyDelete && (!inserts.isEmpty || !deletes.isEmpty))
    return (newGcDels,
      if kept then
        some ⟨rev.revId, rev.maxUndoSoFar, .edit priority undoGroup inserts deletes⟩
      else none)
  | .undo toggledGroups deletesBitxor =>
    if rev.revId ∈ retainRevs then do
      let newDeletesBitxor ←
        (if gcDels.isEmpty then some deletesBitxor else deletesBitxor.transformShrink gcDels)
      return (gcDels,
        some ⟨rev.revId, rev.maxUndoSoFar, .undo (toggledGroups \ gcGroups) newDeletesBitxor⟩)
    else some (gcDels, none)

/-- Shrink the revisions, the last one first. -/
def gcRevs (gcGroups : Finset ℕ) (retainRevs : List RevId) :
    List Revision → Subset → Option (List Revision)
  | [], _ => some []
  | rev :: older, gcDels => do
    let (gcDels, kept) ← gcRevStep gcGroups retainRevs gcDels rev
    let revs ← gcRevs gcGroups retainRevs older gcDels
    return kept.toList ++ revs

/-- Collect the groups `gcGroups`. -/
def gc (self : Engine α) (gcGroups : Finset ℕ) : Option (Engine α) := do
  let gcDels ← self.emptySubsetBeforeFirstRev
  let retainRevs :=
    (self.revs.head?.map Revision.revId).toList ++ (self.revs.getLast?.map Revision.revId).toList
  let gcDels ← self.revs.foldlM (gcDelsStep self.undoneGroups gcGroups retainRevs) gcDels
  let (tombstones, deletesFromUnion) ←
    (if !gcDels.isEmpty then do
      let notInTombstones ← self.deletesFromUnion.complement
      let delsFromTombstones ← gcDels.transformShrink notInTombstones
      let tombstones ← delsFromTombstones.deleteFrom self.tombstones
      let deletesFromUnion ← self.deletesFromUnion.transformShrink gcDels
      return (tombstones, deletesFromUnion)
    else some (self.tombstones, self.deletesFromUnion))
  let revs ← gcRevs gcGroups retainRevs self.revs.reverse gcDels
  let revs := revs.reverse
  if !revs.any fun rev ↦ rev.edit.isEdit then
    return { self with
      text := []
      tombstones := []
      deletesFromUnion := Subset.new 0
      undoneGroups := ∅
      revs := revs }
  else
    return { self with
      tombstones := tombstones
      deletesFromUnion := deletesFromUnion
      revs := revs }

end Engine

end EeEditor
