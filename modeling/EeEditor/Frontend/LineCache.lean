import EeEditor.Frontend.Update
import EeEditor.Sequence.FirstOfKey
import EeEditor.Tree.Node

/-!
# The line cache of a frontend

The model of `ee-cli/src/buffer/apply.rs`, of `vlf_window_from_ops` in `buffer/mod.rs` and of
`BufState::apply_update` in `buffer/bufstate.rs`. The cache of a loaded file holds all its lines;
that of a very large file holds a window, which the inserted rows of an update replace.
-/

namespace EeEditor.Frontend

open BTree (usizeMax)

/-! ## Loaded files -/

def checkedAdvance (current amount len : ℕ) (op : String) : Except String ℕ :=
  if usizeMax < current + amount then .error s!"{op} op overflowed source index"
  else if len < current + amount then .error s!"{op} op exceeded cached line count"
  else .ok (current + amount)

/-- A row that is copied may have lost its cursors. -/
def LineSlot.clearCursors : LineSlot → LineSlot
  | .known line => .known { line with cursors := [] }
  | .invalid => .invalid

/-- The rows of an `insert`. -/
def insertRows (scopes : List String) : List CoreLine → List (Option (List UInt8)) →
    Except String (List LineSlot)
  | [], _ => .ok []
  | line :: lines, opRows => do
    let slot ← LineSlot.fromCoreLine line scopes opRows.head?.join
    let slots ← insertRows scopes lines opRows.tail
    return slot :: slots

/-- The rows of an `update` of some slots. -/
def mergeRows (scopes : List String) : List LineSlot → List CoreLine →
    List (Option (List UInt8)) → Except String (List LineSlot)
  | slot :: slots, line :: lines, opRows => do
    let slot ← slot.merge line scopes opRows.head?.join
    let merged ← mergeRows scopes slots lines opRows.tail
    return slot :: merged
  | _, _, _ => .ok []

/-- The slots that an operation adds to the next cache, and the source index after it. -/
def opSlots (previous : List LineSlot) (scopes : List String) (opRows : List (Option (List UInt8)))
    (sourceIndex : ℕ) (op : CoreUpdateOp) : Except String (List LineSlot × ℕ) :=
  match op.op with
  | .insert =>
    if op.lines.length ≠ op.n then
      .error s!"insert op length mismatch: expected {op.n}, got {op.lines.length}"
    else do
      let slots ← insertRows scopes op.lines opRows
      return (slots, sourceIndex)
  | .skip => do
    let sourceIndex ← checkedAdvance sourceIndex op.n previous.length "skip"
    return ([], sourceIndex)
  | .invalidate => .ok (List.replicate op.n .invalid, sourceIndex)
  | .copy => do
    let end_ ← checkedAdvance sourceIndex op.n previous.length "copy"
    return (((previous.take end_).drop sourceIndex).map (·.clearCursors), end_)
  | .update =>
    if op.lines.length ≠ op.n then
      .error s!"update op length mismatch: expected {op.n}, got {op.lines.length}"
    else do
      let end_ ← checkedAdvance sourceIndex op.n previous.length "update"
      let slots ← mergeRows scopes ((previous.take end_).drop sourceIndex) op.lines opRows
      return (slots, end_)

/-- The loop of `rope_update`. -/
def ropeLoop (previous : List LineSlot) (scopes : List String) :
    BlobRows → ℕ → List CoreUpdateOp → Except String (List LineSlot)
  | _, _, [] => .ok []
  | frameRows, sourceIndex, op :: ops => do
    let (opRows, frameRows) := takeOpRows op.blob frameRows op.lines
    let (slots, sourceIndex) ← opSlots previous scopes opRows sourceIndex op
    let rest ← ropeLoop previous scopes frameRows sourceIndex ops
    return slots ++ rest

def ropeUpdate (ops : List CoreUpdateOp) (previous : List LineSlot) (scopes : List String)
    (blob : Option (List UInt8)) : Except String (List LineSlot) := do
  let frameRows ← validateBlobOps ops blob
  ropeLoop previous scopes frameRows 0 ops

def lineTextForSlot : LineSlot → List UInt8
  | .known line => line.text
  | .invalid => []

def lineTextsForCache (lineCache : List LineSlot) : List (List UInt8) :=
  match lineCache with
  | [.known line] => if line.text = [] then [] else [line.text]
  | _ => lineCache.map lineTextForSlot

/-! ## Windows of very large files -/

def windowOverscan : ℕ := 512

def saturatingAdd (a b : ℕ) : ℕ := min (a + b) usizeMax

/-- The rows of an `insert`, with their numbers. -/
def windowInsertRows (scopes : List String) : List CoreLine → List (Option (List UInt8)) →
    Except String (List (Option ℕ × LineSlot))
  | [], _ => .ok []
  | line :: lines, opRows => do
    let slot ← LineSlot.fromCoreLine line scopes opRows.head?.join
    let rows ← windowInsertRows scopes lines opRows.tail
    return (line.logicalLine, slot) :: rows

/-- The loop of a `copy` or `update` over `k`, of which `n` rounds are left: a row goes after the
last one, or to its place in the previous window. -/
def windowCopyRows (old : List LineSlot) (oldStart sourceIndex : ℕ) :
    (n k : ℕ) → (last : Option (Option ℕ)) → List (Option ℕ × LineSlot)
  | 0, _, _ => []
  | n + 1, k, last =>
    let pos := match last.join with
      | some prev => saturatingAdd prev 1
      | none => saturatingAdd oldStart (saturatingAdd sourceIndex k)
    if pos < oldStart then []
    else
      match old[pos - oldStart]? with
      | none => []
      | some slot =>
        (some pos, slot) :: windowCopyRows old oldStart sourceIndex n (k + 1) (some (some pos))

/-- The loop over the operations: the rows that are positioned, after `rows`. -/
def windowLoop (old : List LineSlot) (oldStart : ℕ) (scopes : List String) :
    BlobRows → ℕ → List (Option ℕ × LineSlot) → List CoreUpdateOp →
      Except String (List (Option ℕ × LineSlot))
  | _, _, rows, [] => .ok rows
  | frameRows, sourceIndex, rows, op :: ops => do
    let (opRows, frameRows) := takeOpRows op.blob frameRows op.lines
    match op.op with
    | .insert =>
      let inserted ← windowInsertRows scopes op.lines opRows
      windowLoop old oldStart scopes frameRows sourceIndex (rows ++ inserted) ops
    | .skip =>
      windowLoop old oldStart scopes frameRows (saturatingAdd sourceIndex op.n) rows ops
    | .copy | .update =>
      let copied := windowCopyRows old oldStart sourceIndex op.n 0 (rows.getLast?.map Prod.fst)
      windowLoop old oldStart scopes frameRows (saturatingAdd sourceIndex op.n) (rows ++ copied) ops
    | .invalidate => windowLoop old oldStart scopes frameRows sourceIndex rows ops

/-- The lines of the inserts, of which `insert_min`, `insert_max` and `insert_count` tell. -/
def insertedLines (ops : List CoreUpdateOp) : List CoreLine :=
  (ops.filter (·.op = .insert)).flatMap (·.lines)

/-- The window of rows that are all logical lines. -/
def unwrappedWindow (rows : List (ℕ × LineSlot)) : Option (ℕ × ℕ × List LineSlot) :=
  let window := dedupByKey Prod.fst (sortByKey Prod.fst rows)
  match window.head?, window.getLast? with
  | some first, some last =>
    let start := first.1
    let end_ := last.1 + 1
    some (start, end_, fillFrom start (List.replicate (end_ - start) .invalid) window)
  | _, _ => none

/-- The rows that are kept about the inserted ones. -/
def trimRows (ops : List CoreUpdateOp) (rows : List (ℕ × LineSlot)) : List (ℕ × LineSlot) :=
  let numbers := (insertedLines ops).filterMap (·.logicalLine)
  match numbers.min?, numbers.max? with
  | some min, some max =>
    let keepStart := min - windowOverscan
    let keepEnd := saturatingAdd (saturatingAdd max 1) windowOverscan
    rows.filter fun row ↦ keepStart ≤ row.1 ∧ row.1 < keepEnd
  | _, _ => rows

/-- The window of rows of which some are continuations: as they are displayed. -/
def wrappedWindow (ops : List CoreUpdateOp) (rows : List (Option ℕ × LineSlot)) :
    ℕ × ℕ × List LineSlot :=
  let maxRows := (insertedLines ops).length + windowOverscan * 2
  let rows := rows.drop (rows.length - maxRows)
  let start := (rows.findSome? Prod.fst).getD 0
  (start, start + rows.length, rows.map Prod.snd)

/-- The numbers of the rows, if none is missing. -/
def logicalRows : List (Option ℕ × LineSlot) → Option (List (ℕ × LineSlot))
  | [] => some []
  | (ln, slot) :: rows => do
    let ln ← ln
    let rows ← logicalRows rows
    return (ln, slot) :: rows

/-- The window as its start, its end and its slots. Numbers of lines are bounded only where the
source saturates. -/
def vlfWindowFromOps (ops : List CoreUpdateOp) (old : List LineSlot) (oldStart : ℕ)
    (scopes : List String) (blob : Option (List UInt8)) :
    Except String (Option (ℕ × ℕ × List LineSlot)) :=
  if !ops.any (·.op = .insert) then .ok none
  else do
    let frameRows ← (blob.map BlobRows.decode).getD (.ok ⟨[], 0⟩)
    let rows ← windowLoop old oldStart scopes frameRows 0 [] ops
    if rows = [] then .ok none
    else
      match logicalRows rows with
      | some rows => .ok (unwrappedWindow (trimRows ops rows))
      | none => .ok (some (wrappedWindow ops rows))

/-- The bounds of the window, the line cache and the texts of the lines. On an error the cache is
put back. -/
def replaceVlfWindow (lineCache : List LineSlot) (lines : List (List UInt8))
    (ops : List CoreUpdateOp) (windowStart : ℕ) (scopes : List String)
    (blob : Option (List UInt8)) :
    Except String (Option (ℕ × ℕ)) × List LineSlot × List (List UInt8) :=
  match validateBlobOps ops blob with
  | .error e => (.error e, lineCache, lines)
  | .ok _ =>
    match vlfWindowFromOps ops lineCache windowStart scopes blob with
    | .ok (some (start, end_, cache)) => (.ok (some (start, end_)), cache,
                                           cache.map lineTextForSlot)
    | .ok none => (.ok none, lineCache, lines)
    | .error e => (.error e, lineCache, lines)

/-! ## Buffers -/

/-- What an update of a buffer reads and writes. -/
structure BufState (A P : Type) where
  lineCache : List LineSlot
  lines : List (List UInt8)
  cursorLine : ℕ
  cursorCol : ℕ
  pristine : Bool
  lastScroll : Option (ℕ × ℕ)
  annotations : List A
  isVlf : Bool
  vlfCacheStartLine : ℕ
  vlfApproxLineCount : ℕ
  vlfLineCountExact : Bool
  vlfIndexProgress : P
  pendingVlfTailJump : Bool
  vlfTailJumpCursor : Option ℕ

def charBoundaryBefore (line : List UInt8) : ℕ → ℕ
  | 0 => 0
  | col + 1 => if isCharBoundary line (col + 1) then col + 1 else charBoundaryBefore line col

def previousCharBoundary (line : List UInt8) (col : ℕ) : ℕ :=
  charBoundaryBefore line (min col line.length)

namespace BufState

variable {A P : Type}

def lineCount (self : BufState A P) : ℕ :=
  if self.isVlf then
    let reported := min self.vlfApproxLineCount usizeMax
    if self.vlfLineCountExact ∧ 0 < reported then reported
    else max reported (saturatingAdd self.vlfCacheStartLine self.lineCache.length)
  else self.lines.length

def lineSlot (self : BufState A P) (idx : ℕ) : Option LineSlot :=
  if self.isVlf then
    if idx < self.vlfCacheStartLine then none else self.lineCache[idx - self.vlfCacheStartLine]?
  else self.lineCache[idx]?

def clampCursor (self : BufState A P) : BufState A P :=
  if self.isVlf then
    let cursorLine := min self.cursorLine (self.lineCount - 1)
    match self.lineSlot cursorLine with
    | some (.known line) =>
      { self with cursorLine, cursorCol := previousCharBoundary line.text self.cursorCol }
    | _ => { self with cursorLine }
  else
    let cursorLine := min self.cursorLine (self.lines.length - 1)
    match self.lines[cursorLine]? with
    | none => { self with cursorLine := 0, cursorCol := 0 }
    | some line => { self with cursorLine, cursorCol := previousCharBoundary line self.cursorCol }

/-- The first line of the cache with a cursor, and the column of that. -/
def cachedCursor : ℕ → List LineSlot → Option (ℕ × ℕ)
  | _, [] => none
  | index, .known line :: slots =>
    match line.cursors.head? with
    | some cursorCol => some (index, previousCharBoundary line.text cursorCol)
    | none => cachedCursor (index + 1) slots
  | index, .invalid :: slots => cachedCursor (index + 1) slots

def syncCursorFromCache (self : BufState A P) : BufState A P :=
  if self.isVlf then self.clampCursor
  else
    match cachedCursor 0 self.lineCache with
    | some (cursorLine, cursorCol) => clampCursor { self with cursorLine, cursorCol }
    | none => self.clampCursor

/-- The pending jump to the tail, when a window has landed that ends at `end_`. -/
def landTailJump (self : BufState A P) (previousCount end_ : ℕ) : BufState A P :=
  if self.pendingVlfTailJump then
    let count := min self.vlfApproxLineCount usizeMax
    let previous := min previousCount usizeMax
    let self := if (0 < count ∧ count ≤ end_) ∨ (0 < previous ∧ previous ≤ end_) then
        { self with vlfTailJumpCursor := some (end_ - 1), cursorLine := end_ - 1, cursorCol := 0 }
      else self
    let atTail : Bool := self.vlfLineCountExact ∧ 0 < count ∧ count ≤ end_
    { self with
      pendingVlfTailJump := !atTail
      vlfTailJumpCursor := if atTail then none else self.vlfTailJumpCursor }
  else self

/-- The fields that an update of a very large file sets before its window is looked at. -/
def setHeader (self : BufState A P) (update : CoreUpdate A P) : BufState A P :=
  let self := { self with pristine := update.pristine, annotations := update.annotations }
  match update.vlfTotalLines with
  | some total => { self with
      vlfApproxLineCount := total.count
      vlfLineCountExact := total.exact_
      vlfIndexProgress := total.indexProgress }
  | none => self

def applyVlfUpdateWindow (self : BufState A P) (update : CoreUpdate A P) :
    Except String Unit × BufState A P :=
  let previousCount := self.vlfApproxLineCount
  let self := self.setHeader update
  let (result, lineCache, lines) := replaceVlfWindow self.lineCache self.lines update.ops
    self.vlfCacheStartLine update.scopes update.blob
  let self := { self with lineCache, lines }
  match result with
  | .error e => (.error e, self)
  | .ok none => (.ok (), self)
  | .ok (some (start, end_)) =>
    let self := { self with vlfCacheStartLine := start, lastScroll := some (start, end_) }
    (.ok (), (self.landTailJump previousCount end_).syncCursorFromCache)

def applyUpdate (self : BufState A P) (update : CoreUpdate A P) :
    Except String Unit × BufState A P :=
  if self.isVlf then self.applyVlfUpdateWindow update
  else
    match ropeUpdate update.ops self.lineCache update.scopes update.blob with
    | .error e => (.error e, self)
    | .ok lineCache =>
      (.ok (), syncCursorFromCache { self with
        lineCache
        lines := lineTextsForCache lineCache
        pristine := update.pristine
        annotations := update.annotations })

end BufState

end EeEditor.Frontend
