import EeEditor.Sequence.Leb128

/-!
# Text frames

The model of `xi-core-lib/src/text_blob.rs`: the rows of an update in one frame, as their number,
their lengths and their bytes. The numbers are of 64 bits: a length that is read from more bits than
that loses those past the end, so that a frame can be accepted that does not describe its rows.
-/

namespace EeEditor

def maxBlobBytes : ℕ := 4 * 1024 * 1024

structure TextBlob where
  bytes : List UInt8
  lengths : List ℕ
  full : Bool

/-! ## Writing -/

/-- The loop of `write_varint`. -/
def writeVarintFrom (value : ℕ) : List UInt8 :=
  if value >>> 7 = 0 then [UInt8.ofNat (value &&& 0x7F)]
  else (UInt8.ofNat (value &&& 0x7F) ||| 0x80) :: writeVarintFrom (value >>> 7)
termination_by value
decreasing_by
  rw [Nat.shiftRight_eq_div_pow] at *
  omega

def writeVarint (value : ℕ) : List UInt8 := writeVarintFrom (value % 2 ^ 64)

namespace TextBlob

def new : TextBlob := ⟨[], [], false⟩

/-- A row that is refused sets `full`, so that all later ones are refused. -/
def pushBytes (self : TextBlob) (bytes : List UInt8) : TextBlob × Bool :=
  if self.full ∨ maxBlobBytes < self.bytes.length + bytes.length then
    ({ self with full := true }, false)
  else
    ({ self with lengths := self.lengths ++ [bytes.length], bytes := self.bytes ++ bytes }, true)

def intoFrame (self : TextBlob) : List UInt8 :=
  writeVarint self.lengths.length ++ self.lengths.flatMap writeVarint ++ self.bytes

/-- The rows of an update, pushed in order, with the answers. -/
def pushAll : TextBlob → List (List UInt8) → TextBlob × List Bool
  | self, [] => (self, [])
  | self, row :: rows =>
    let (self, pushed) := self.pushBytes row
    let (self, answers) := pushAll self rows
    (self, pushed :: answers)

end TextBlob

/-! ## Reading -/

/-- The loop of `read_varint`: a shift of 64 bits or more is refused. -/
def readVarintFrom : List UInt8 → ℕ → ℕ → Option (ℕ × List UInt8)
  | [], _, _ => none
  | byte :: rest, value, shift =>
    let value := value ||| (((byte &&& 0x7F).toNat <<< shift) % 2 ^ 64)
    if byte &&& 0x80 = 0 then some (value, rest)
    else if 64 ≤ shift + 7 then none
    else readVarintFrom rest value (shift + 7)

/-- The number at the beginning of some bytes, and the bytes after it. -/
def readVarint (bytes : List UInt8) : Option (ℕ × List UInt8) := readVarintFrom bytes 0 0

def readLengths (count : ℕ) : ℕ → List UInt8 → Except String (List ℕ × List UInt8)
  | 0, rest => .ok ([], rest)
  | n + 1, rest =>
    match readVarint rest with
    | none => .error s!"text frame: truncated length for row {count - (n + 1)}"
    | some (length, rest) => (readLengths count n rest).map fun (lengths, rest) ↦
      (length :: lengths, rest)

/-- The loop over the lengths; `frameLen` is the length of the whole frame and `index` the row. -/
def takeRows (frameLen : ℕ) : ℕ → List ℕ → List UInt8 →
    Except String (List (List UInt8) × List UInt8)
  | _, [], rest => .ok ([], rest)
  | index, length :: lengths, rest =>
    if 2 ^ 64 ≤ frameLen - rest.length + length then
      .error s!"text frame: row {index} length overflows"
    else if rest.length < length then .error s!"text frame: row {index} runs past the frame"
    else (takeRows frameLen (index + 1) lengths (rest.drop length)).map fun (rows, rest') ↦
      (rest.take length :: rows, rest')

def decodeFrame (frame : List UInt8) : Except String (List (List UInt8)) :=
  match readVarint frame with
  | none => .error "text frame: truncated row count"
  | some (count, rest) => do
    let (lengths, rest) ← readLengths count count rest
    let (rows, rest) ← takeRows frame.length 0 lengths rest
    if rest ≠ [] then
      .error s!"text frame: {rest.length} trailing bytes not described by the lengths"
    else .ok rows

end EeEditor
