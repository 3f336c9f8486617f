import EeEditor.Sequence.Utf8
import EeEditor.Tree.Node

/-!
# Ropes and their metrics

The model of `xi-rope/src/rope/metrics.rs`. The leaf of a rope is a `String`: its characters are
given, and what the metrics look at are the bytes of their encoding.
-/

namespace EeEditor.BTree

/-- The leaf of a rope. -/
abbrev Text := List Char

/-- `as_bytes`. -/
def bytes (s : Text) : List UInt8 := s.flatMap String.utf8EncodeChar

@[simp] theorem bytes_nil : bytes [] = [] := rfl

@[simp] theorem bytes_cons (c : Char) (s : Text) :
    bytes (c :: s) = String.utf8EncodeChar c ++ bytes s := List.flatMap_cons

@[simp] theorem bytes_append (s t : Text) : bytes (s ++ t) = bytes s ++ bytes t :=
  List.flatMap_append

theorem length_bytes_replicate (n : ℕ) (c : Char) :
    (bytes (List.replicate n c)).length = n * (String.utf8EncodeChar c).length := by
  induction n with
  | zero => exact (Nat.zero_mul _).symm
  | succ n ih =>
    rw [List.replicate_succ, bytes_cons, List.length_append, ih, Nat.succ_mul, Nat.add_comm]

theorem isUtf8_bytes (s : Text) : IsUtf8 (bytes s) := ⟨s, rfl⟩

instance : Leaf Text where
  len s := (bytes s).length
  empty := []
  append s t := s ++ t
  len_empty := rfl
  len_append s t := by rw [bytes_append, List.length_append]

/-- A rope of four leaves. -/
def fourLeaves : Tree Text :=
  .tower (List.replicate 1000 'a') ((length_bytes_replicate 1000 'a').trans_gt (by decide)) 1

theorem len_fourLeaves : fourLeaves.len = 4000 := by
  have hlen : Leaf.len (List.replicate 1000 'a') = 1000 := length_bytes_replicate 1000 'a'
  rw [Tree.len, fourLeaves, Tree.tower, Node.len_tower, hlen]
  exact Nat.mul_comm 4 1000

/-! ## Character boundaries -/

/-- The loop of `prev` down to a character boundary. -/
def prevCharBoundary (s : Text) : ℕ → ℕ
  | 0 => 0
  | offset + 1 => if isCharBoundary (bytes s) offset then offset else prevCharBoundary s offset

def lenUtf8FromFirstByte (b : UInt8) : ℕ :=
  if b < 0x80 then 1 else if b < 0xe0 then 2 else if b < 0xf0 then 3 else 4

/-- `prev` and `next` of the metrics whose boundaries are those of the characters. -/
def charsPrev (s : Text) (offset : ℕ) : Option ℕ :=
  if offset = 0 then none else some (prevCharBoundary s offset)

/-- The byte at the offset is missing at the end of the leaf; past it the source panics. -/
def charsNext (s : Text) (offset : ℕ) : Option ℕ :=
  ((bytes s)[offset]?).map fun b ↦ offset + lenUtf8FromFirstByte b

/-- A metric of whole characters. -/
def charMetric (measure : Text → ℕ) (toBaseUnits fromBaseUnits : Text → ℕ → Option ℕ) :
    Metric Text where
  measure := measure
  toBaseUnits := toBaseUnits
  fromBaseUnits := fromBaseUnits
  isBoundary s offset := isCharBoundary (bytes s) offset
  prev := charsPrev
  next := charsNext
  canFragment := false

/-- The conversions of `BaseMetric` assert that the offset is a boundary. -/
def atBoundary (s : Text) (offset : ℕ) : Option ℕ :=
  if isCharBoundary (bytes s) offset then some offset else none

def baseMetric : Metric Text := charMetric Leaf.len atBoundary atBoundary

/-- `char_indices().nth(n)`, or the length of the text. -/
def charToBase : Text → ℕ → ℕ
  | [], _ => 0
  | _ :: _, 0 => 0
  | c :: s, n + 1 => (String.utf8EncodeChar c).length + charToBase s n

/-- The loop of `CharsMetric::from_base_units` down to a character boundary. -/
def clampBoundary (s : Text) (offset : ℕ) : ℕ :=
  if isCharBoundary (bytes s) (min offset (bytes s).length) then min offset (bytes s).length
  else prevCharBoundary s (min offset (bytes s).length)

/-- The characters of `s[..offset]`. -/
def charsBefore : Text → ℕ → Text
  | [], _ => []
  | c :: s, offset => if offset = 0 then [] else
    c :: charsBefore s (offset - (String.utf8EncodeChar c).length)

/-- `compute_info` does not count the characters of an ASCII leaf. -/
def isAscii (bs : List UInt8) : Bool := bs.all fun b ↦ b < 0x80

def charsMetric : Metric Text := charMetric
  (fun s ↦ if isAscii (bytes s) then (bytes s).length else countChars (bytes s))
  (fun s inMeasuredUnits ↦ some (charToBase s inMeasuredUnits))
  (fun s inBaseUnits ↦ some (charsBefore s (clampBoundary s inBaseUnits)).length)

/-- `count_utf16_code_units`: a byte that begins a character counts once, one that begins a
surrogate pair twice. -/
@[grind =] def countUtf16CodeUnits (bs : List UInt8) : ℕ :=
  (bs.map fun b ↦ (if isContinuation b then 0 else 1) + if 0xf0 ≤ b then 1 else 0).sum

/-- `len_utf16`. -/
@[grind =] def lenUtf16 (c : Char) : ℕ := if c.val < 0x10000 then 1 else 2

/-- The loop of `Utf16CodeUnitsMetric::to_base_units`. -/
def utf16ToBase (inMeasuredUnits : ℕ) : Text → ℕ → ℕ → ℕ
  | [], _, curLenUtf8 => curLenUtf8
  | u :: s, curLenUtf16, curLenUtf8 =>
    if inMeasuredUnits ≤ curLenUtf16 then curLenUtf8
    else utf16ToBase inMeasuredUnits s (curLenUtf16 + lenUtf16 u)
      (curLenUtf8 + (String.utf8EncodeChar u).length)

def utf16CodeUnitsMetric : Metric Text := charMetric
  (fun s ↦ if isAscii (bytes s) then (bytes s).length else countUtf16CodeUnits (bytes s))
  (fun s inMeasuredUnits ↦ some (utf16ToBase inMeasuredUnits s 0 0))
  (fun s inBaseUnits ↦ (sliceStr (bytes s) 0 inBaseUnits).map countUtf16CodeUnits)

/-! ## Lines -/

/-- `memchr` for a newline. -/
def memchr (bs : List UInt8) : Option ℕ := bs.findIdx? isNewline

/-- `memrchr` for a newline. -/
def memrchr : List UInt8 → Option ℕ
  | [] => none
  | b :: bs =>
    match memrchr bs with
    | some pos => some (pos + 1)
    | none => if isNewline b then some 0 else none

/-- The loop of `LinesMetric::to_base_units`, which panics when there are too few newlines. -/
def linesToBase (bs : List UInt8) : ℕ → ℕ → Option ℕ
  | 0, offset => some offset
  | n + 1, offset => (memchr (bs.drop offset)).bind fun pos ↦ linesToBase bs n (offset + pos + 1)

def linesMetric : Metric Text where
  measure s := countNewlines (bytes s)
  toBaseUnits s inMeasuredUnits := linesToBase (bytes s) inMeasuredUnits 0
  fromBaseUnits s inBaseUnits := (sliceStr (bytes s) 0 inBaseUnits).map countNewlines
  isBoundary s offset := offset != 0 && ((bytes s)[offset - 1]?).any isNewline
  prev s offset := (memrchr ((bytes s).take (offset - 1))).map fun pos ↦ pos + 1
  next s offset := (memchr ((bytes s).drop offset)).map fun pos ↦ offset + pos + 1
  canFragment := true

/-- The metrics of a rope. -/
def textMetrics : List (Metric Text) := [baseMetric, charsMetric, utf16CodeUnitsMetric, linesMetric]

end EeEditor.BTree
