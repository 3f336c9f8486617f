import EeEditor.Engine.Undo
import EeEditor.View.Selection

/-!
# The editor

The model of `xi-core-lib/src/editor.rs` for rope-backed buffers: the undo groups of the editor,
its saved revision, and the operations of the engine that they drive. The operations take the
hash of a revision ID as a parameter, and a panic is `none`.
-/

namespace EeEditor

variable {α : Type}

inductive EditType where
  | other
  | insertChars
  | insertNewline
  | indent
  | delete
  | undo
  | redo
  | transpose
  | surround
deriving DecidableEq, Repr

/-- Whether a new undo group is created between two edits. -/
def EditType.breaksUndoGroup (self previous : EditType) : Bool :=
  self = .other || self = .transpose || self ≠ previous

/-- Maximum retained undo groups before garbage collection. -/
def maxUndos : ℕ := 100

def coreEditPriority : ℕ := 0x10000

def maxPluginPriority : ℕ := coreEditPriority - 1

/-- Plugin edits use bounded bands on either side of the priority of core edits. -/
def pluginEditPriority (priority : ℕ) (afterCursor : Bool) : ℕ :=
  let priority := min priority maxPluginPriority
  if afterCursor then coreEditPriority + 1 + priority else priority

structure PluginEdit (α : Type) where
  rev : RevToken
  delta : Delta α
  priority : ℕ
  afterCursor : Bool
  undoGroup : Option ℕ

structure PluginEditAck where
  applied : Bool
  rev : RevToken
  reason : Option String
deriving DecidableEq, Repr

structure Editor (α : Type) where
  /-- The contents of the buffer. -/
  text : List α
  engine : Engine α
  /-- The most recent revision committed to views, and its text. -/
  lastRevId : RevId
  lastText : List α
  /-- The revision of the last save. -/
  pristineRevId : RevId
  undoGroupId : ℕ
  /-- Undo groups that may still be toggled. -/
  liveUndos : List ℕ
  /-- The index of the current undo: later groups are undone, but may be redone. -/
  curUndo : ℕ
  /-- Undo groups that are undone. -/
  undos : Finset ℕ
  /-- Undo groups that are no longer live and should be collected. -/
  gcUndos : Finset ℕ
  forceUndoGroup : Bool
  thisEditType : EditType
  lastEditType : EditType
  revsInFlight : ℕ

namespace Editor

variable (token : RevId → RevToken)

def withText (text : List α) : Option (Editor α) := do
  let engine ← Engine.new token text
  let headRevId ← engine.getHeadRevId
  return {
    text := engine.getHead
    engine := engine
    lastRevId := headRevId
    lastText := engine.getHead
    pristineRevId := headRevId
    undoGroupId := 1
    -- initial file loading can create an edit with undo group 0
    liveUndos := [0]
    curUndo := 1
    undos := ∅
    gcUndos := ∅
    forceUndoGroup := false
    thisEditType := .other
    lastEditType := .other
    revsInFlight := 0 }

def updateEditType (self : Editor α) : Editor α :=
  { self with lastEditType := self.thisEditType, thisEditType := .other }

def commitUndoCheckpoint (self : Editor α) : Editor α :=
  { self with lastEditType := .other, thisEditType := .other }

def setPristine (self : Editor α) : Option (Editor α) := do
  let headRevId ← self.engine.getHeadRevId
  return { self with pristineRevId := headRevId }

def isPristine (self : Editor α) : Option Bool := do
  let headRevId ← self.engine.getHeadRevId
  self.engine.isEquivalentRevision self.pristineRevId headRevId

/-- A save is done: the head is the saved revision if the text has not changed since. -/
def setPristineIfEquivalentRevision (self : Editor α) (savedRevId : RevId) :
    Option (Editor α × Bool) := do
  let headRevId ← self.engine.getHeadRevId
  if ← self.engine.isEquivalentRevision savedRevId headRevId then
    return ({ self with pristineRevId := headRevId }, true)
  else return (self, false)

/-- The undo group of a new edit: the last live one, or a new one. A new group discards the
groups that could be redone, and the oldest one when there are too many. -/
def calculateUndoGroup (self : Editor α) : Option (Editor α × ℕ) :=
  let isUnbrokenGroup := !self.thisEditType.breaksUndoGroup self.lastEditType
  match self.liveUndos.getLast? with
  | some lastUndo =>
    if self.forceUndoGroup || isUnbrokenGroup then some (self, lastUndo) else newGroup
  | none => newGroup
where
  newGroup : Option (Editor α × ℕ) := do
    let undoGroup := self.undoGroupId
    let discarded ← sliceFrom self.liveUndos self.curUndo
    let gcUndos := self.gcUndos ∪ discarded.toFinset
    let liveUndos := self.liveUndos.take self.curUndo ++ [undoGroup]
    let self := { self with gcUndos := gcUndos, undoGroupId := self.undoGroupId + 1 }
    if liveUndos.length ≤ maxUndos then
      return ({ self with liveUndos := liveUndos, curUndo := self.curUndo + 1 }, undoGroup)
    else
      let oldest ← liveUndos.head?
      return ({ self with liveUndos := liveUndos.tail, gcUndos := insert oldest gcUndos },
        undoGroup)

/-- Apply a delta to the text, and update the undo state. -/
def addDelta (self : Editor α) (delta : Delta α) : Option (Editor α) := do
  let headRevId ← self.engine.getHeadRevId
  let (self, undoGroup) ← self.calculateUndoGroup
  let engine ← self.engine.editRev token coreEditPriority undoGroup (token headRevId) delta
  return { self with
    lastEditType := self.thisEditType
    engine := engine
    text := engine.getHead }

def applyDirectDelta (self : Editor α) (editType : EditType) (delta : Delta α) :
    Option (Editor α) :=
  addDelta token { self with thisEditType := editType } delta

/-- Apply the edit of a plugin, based on any revision. -/
def applyPluginEdit (self : Editor α) (edit : PluginEdit α) :
    Option (Editor α × PluginEditAck) := do
  let priority := pluginEditPriority edit.priority edit.afterCursor
  let (self, undoGroup) ←
    (match edit.undoGroup with
    | some undoGroup => some (self, undoGroup)
    | none => self.calculateUndoGroup)
  match ← self.engine.tryEditRev token priority undoGroup edit.rev edit.delta with
  | .error err => return (self, ⟨false, edit.rev, some err.message⟩)
  | .ok engine =>
    return ({ self with engine := engine, text := engine.getHead }, ⟨true, edit.rev, none⟩)

/-- Commit the changes since the last commit, if there are any. -/
def commitDelta (self : Editor α) :
    Option (Editor α × Option (Delta α × List α × InsertDrift)) := do
  let headRevId ← self.engine.getHeadRevId
  if headRevId = self.lastRevId then return (self, none)
  else
    -- panics when the last revision is not found
    match ← self.engine.tryDeltaRevHead token (token self.lastRevId) with
    | .error _ => none
    | .ok delta =>
      let drift : InsertDrift :=
        match self.thisEditType with
        | .transpose => .inside
        | .surround => .outside
        | _ => .default
      return ({ self with lastRevId := headRevId, lastText := self.text },
        some (delta, self.lastText, drift))

/-- Collect the groups that are no longer live, unless a plugin holds a revision. -/
def runGcUndos (self : Editor α) : Option (Editor α) :=
  if self.revsInFlight = 0 ∧ self.gcUndos ≠ ∅ then do
    let engine ← self.engine.gc self.gcUndos
    return { self with engine := engine, undos := self.undos \ self.gcUndos, gcUndos := ∅ }
  else some self

def incrementRevsInFlight (self : Editor α) : Editor α :=
  { self with revsInFlight := self.revsInFlight + 1 }

/-- Panics without a revision in flight. -/
def decRevsInFlight (self : Editor α) : Option (Editor α) :=
  if self.revsInFlight = 0 then none
  else runGcUndos { self with revsInFlight := self.revsInFlight - 1 }

def updateUndos (self : Editor α) : Option (Editor α) := do
  let engine ← self.engine.undo self.undos
  return { self with engine := engine, text := engine.getHead }

/-- Undo the last group that is done. The first live group is never undone. -/
def doUndo (self : Editor α) : Option (Editor α) :=
  if self.curUndo > 1 then do
    let curUndo := self.curUndo - 1
    let undoGroup ← self.liveUndos[curUndo]?
    if undoGroup ∈ self.undos then none
    else updateUndos { self with
      curUndo := curUndo
      undos := insert undoGroup self.undos
      thisEditType := .undo }
  else some self

/-- Redo the first group that is undone. -/
def doRedo (self : Editor α) : Option (Editor α) :=
  if self.curUndo < self.liveUndos.length then do
    let undoGroup ← self.liveUndos[self.curUndo]?
    if undoGroup ∉ self.undos then none
    else updateUndos { self with
      undos := self.undos.erase undoGroup
      curUndo := self.curUndo + 1
      thisEditType := .redo }
  else some self

end Editor

end EeEditor
