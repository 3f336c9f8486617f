import Mathlib.Data.Nat.Find
import EeEditor.Buffer.TextBlob
import EeEditor.Sequence.Utf8

/-!
# Update payloads

The model of `ee-cli/src/backend/update.rs`: the operations by which the core changes the line cache
of a frontend, the spans of their lines and the frame that carries texts. The row of a line is taken
from the frame if the operation sets its flag and the line has no text of its own.
-/

namespace EeEditor.Frontend

/-! ## Payloads -/

inductive CoreUpdateKind
  | insert
  | skip
  | invalidate
  | copy
  | update
deriving DecidableEq

structure CoreLine where
  text : Option (List UInt8)
  cursor : List ℕ
  spans : Option (List ℕ)
  logicalLine : Option ℕ
deriving DecidableEq

structure CoreUpdateOp where
  op : CoreUpdateKind
  n : ℕ
  lines : List CoreLine
  blob : Bool
deriving DecidableEq

structure VlfTotalLines (P : Type) where
  count : ℕ
  exact_ : Bool
  indexProgress : P

/-- Annotations and the progress of the index are only carried along. -/
structure CoreUpdate (A P : Type) where
  ops : List CoreUpdateOp
  pristine : Bool
  annotations : List A
  vlfTotalLines : Option (VlfTotalLines P)
  scopes : List String
  blob : Option (List UInt8)

structure CoreSyntaxSpan where
  startByte : ℕ
  endByte : ℕ
  scope : String
deriving DecidableEq

structure CachedLine where
  text : List UInt8
  cursors : List ℕ
  syntaxSpans : List CoreSyntaxSpan
  logicalLine : Option ℕ
deriving DecidableEq

inductive LineSlot
  | known (line : CachedLine)
  | invalid
deriving DecidableEq

/-! ## Text -/

/-- `str::strip_suffix` with one ASCII character. -/
def stripSuffix (text : List UInt8) (b : UInt8) : List UInt8 :=
  if text.getLast? = some b then text.dropLast else text

def stripLineEnding (text : List UInt8) : List UInt8 := stripSuffix (stripSuffix text 10) 13

def normalizeLineText (text : Option (List UInt8)) : List UInt8 :=
  (text.map stripLineEnding).getD []

/-- `str::from_utf8`, as a check. -/
def isUtf8 (bytes : List UInt8) : Bool := bytes.toByteArray.validateUTF8

/-- `Utf8Error::valid_up_to`. -/
def validUpTo (bytes : List UInt8) : ℕ :=
  Nat.findGreatest (fun k ↦ isUtf8 (bytes.take k)) bytes.length

/-- The second bytes that may follow a first byte of three or four. -/
def secondByte (first second : UInt8) : Bool :=
  if first = 0xE0 then 0xA0 ≤ second ∧ second ≤ 0xBF
  else if first = 0xED then 0x80 ≤ second ∧ second ≤ 0x9F
  else if first = 0xF0 then 0x90 ≤ second ∧ second ≤ 0xBF
  else if first = 0xF4 then 0x80 ≤ second ∧ second ≤ 0x8F
  else isContinuation second

/-- `Utf8Error::error_len` of the bytes from the error on; it is missing if they end too early. -/
def errorLen : List UInt8 → Option ℕ
  | [] => none
  | first :: rest =>
    let needed := if 0xC2 ≤ first ∧ first ≤ 0xDF then 1 else if 0xE0 ≤ first ∧ first ≤ 0xEF then 2
      else if 0xF0 ≤ first ∧ first ≤ 0xF4 then 3 else 0
    if needed = 0 then some 1
    else match rest with
      | [] => none
      | second :: rest =>
        if !secondByte first second then some 1
        else
          let good := (rest.take (needed - 1)).takeWhile isContinuation
          if good.length < min rest.length (needed - 1) then some (2 + good.length) else none

/-- The text of a `Utf8Error`. -/
def utf8Error (bytes : List UInt8) : String :=
  match errorLen (bytes.drop (validUpTo bytes)) with
  | some len => s!"invalid utf-8 sequence of {len} bytes from index {validUpTo bytes}"
  | none => s!"incomplete utf-8 byte sequence from index {validUpTo bytes}"

/-! ## Spans -/

def trailingLineEndingBytes : ℕ := 2

/-- The loop of `decode_spans` over the triples; `cursor` is the end of the last span that is
kept. -/
def decodeTriples (scopes : List String) (lineLen : ℕ) :
    ℕ → List ℕ → Except String (List CoreSyntaxSpan)
  | cursor, start :: end_ :: scopeId :: rest =>
    if end_ < start then .error s!"span range inverted: {start}..{end_}"
    else if lineLen + trailingLineEndingBytes < start then
      .error s!"span start {start} beyond line length {lineLen}"
    else
      match scopes[scopeId]? with
      | none => .error s!"span scope id {scopeId} out of range ({scopes.length})"
      | some scope =>
        let end_ := min end_ lineLen
        if end_ ≤ start then decodeTriples scopes lineLen cursor rest
        else if start < cursor then
          .error s!"span range overlaps the previous span: {start} < {cursor}"
        else (decodeTriples scopes lineLen end_ rest).map (⟨start, end_, scope⟩ :: ·)
  | _, _ => .ok []

def decodeSpans (flat : List ℕ) (scopes : List String) (lineLen : ℕ) :
    Except String (List CoreSyntaxSpan) :=
  if flat.length % 3 ≠ 0 then
    .error s!"spans array is not [start, end, scope_id] triples: {flat.length} entries"
  else decodeTriples scopes lineLen 0 flat

/-- The spans of a line; it keeps those it had if the operation says nothing about them. -/
def spansOr (kept : List CoreSyntaxSpan) (spans : Option (List ℕ)) (scopes : List String)
    (lineLen : ℕ) : Except String (List CoreSyntaxSpan) :=
  match spans with
  | some flat => decodeSpans flat scopes lineLen
  | none => .ok kept

/-! ## Frame rows -/

/-- The rows of a frame; `next` is the first one that has not been handed out. -/
structure BlobRows where
  rows : List (List UInt8)
  next : ℕ
deriving DecidableEq

namespace BlobRows

def decode (frame : List UInt8) : Except String BlobRows :=
  (decodeFrame frame).map fun rows ↦ ⟨rows, 0⟩

def take (self : BlobRows) (takesBytes : Bool) : Except String (Option (List UInt8) × BlobRows) :=
  if !takesBytes then .ok (none, self)
  else
    match self.rows[self.next]? with
    | none => .error s!"text frame has {self.rows.length} rows but the payload references more"
    | some row => .ok (some row, { self with next := self.next + 1 })

end BlobRows

/-- The loop of `validate_blob_ops` over the lines of an operation that sets its flag. -/
def validateLines : BlobRows → List CoreLine → Except String BlobRows
  | rows, [] => .ok rows
  | rows, line :: lines => do
    let (bytes, rows) ← rows.take line.text.isNone
    match bytes with
    | some bytes =>
      if isUtf8 bytes then validateLines rows lines
      else .error s!"text frame row is not UTF-8: {utf8Error bytes}"
    | none =>
      if line.text.isNone then .error "blob op has a row with neither `text` nor a frame row"
      else validateLines rows lines

/-- The loop of `validate_blob_ops` over the operations. -/
def validateOps : BlobRows → List CoreUpdateOp → Except String BlobRows
  | rows, [] => .ok rows
  | rows, op :: ops => do
    let rows ← if op.blob then validateLines rows op.lines else .ok rows
    validateOps rows ops

def declaresBlob (ops : List CoreUpdateOp) : Bool := ops.any (·.blob)

def validateBlobOps (ops : List CoreUpdateOp) (frame : Option (List UInt8)) :
    Except String BlobRows :=
  if !declaresBlob ops then .ok ⟨[], 0⟩
  else
    match frame with
    | none => .error "update declares a text frame but none was carried"
    | some frame => do
      let rows ← BlobRows.decode frame
      let rows ← validateOps rows ops
      if rows.next ≠ rows.rows.length then
        .error s!"text frame has {rows.rows.length} rows but the payload consumed {rows.next}"
      else .ok { rows with next := 0 }

def rowText (text bytes : Option (List UInt8)) (op : String) :
    Except String (Option (List UInt8)) :=
  match text, bytes with
  | some _, some _ => .error s!"{op}: line carries both `text` and a frame row"
  | some text, none => .ok (some text)
  | none, some bytes =>
    if isUtf8 bytes then .ok (some bytes)
    else .error s!"{op}: text frame row is not UTF-8: {utf8Error bytes}"
  | none, none => .ok none

/-- `take_op_rows`: an error of `take` counts as a line without a row. -/
def takeOpRows (blob : Bool) : BlobRows → List CoreLine → List (Option (List UInt8)) × BlobRows
  | rows, [] => ([], rows)
  | rows, line :: lines =>
    let (bytes, rows) := match if blob then rows.take line.text.isNone else .ok (none, rows) with
      | .ok taken => taken
      | .error _ => (none, rows)
    let (rest, rows) := takeOpRows blob rows lines
    (bytes :: rest, rows)

/-! ## Slots -/

namespace LineSlot

def fromCoreLine (line : CoreLine) (scopes : List String) (bytes : Option (List UInt8)) :
    Except String LineSlot := do
  let text ← rowText line.text bytes "insert"
  let lineLen := (text.map fun text ↦ (stripLineEnding text).length).getD 0
  let syntaxSpans ← spansOr [] line.spans scopes lineLen
  return .known ⟨normalizeLineText text, line.cursor, syntaxSpans, line.logicalLine⟩

def merge (self : LineSlot) (update : CoreLine) (scopes : List String)
    (bytes : Option (List UInt8)) : Except String LineSlot :=
  match self with
  | .known line => do
    let text ← rowText update.text bytes "update"
    let lineLen := (text.map fun text ↦ (stripLineEnding text).length).getD line.text.length
    let syntaxSpans ← spansOr line.syntaxSpans update.spans scopes lineLen
    return .known ⟨(text.map stripLineEnding).getD line.text, update.cursor, syntaxSpans,
      update.logicalLine.or line.logicalLine⟩
  | .invalid =>
    if update.text.isNone then .error "update op cannot patch invalid line without text"
    else fromCoreLine update scopes bytes

end LineSlot

end EeEditor.Frontend
