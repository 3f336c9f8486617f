import EeEditor.Tree.Convert
import EeEditor.Tree.Cursor
import EeEditor.Tree.Text

/-!
# Finding a text in a rope

The model of `xi-rope/src/find.rs` for patterns that are not regular expressions. A scanner goes
through one leaf for the beginning of the pattern, a matcher tells whether the pattern is there. The
loops of the matchers are given a number of rounds; the steps of `find_progress` are counted by the
source itself.
-/

namespace EeEditor.BTree

inductive FindResult
  | found (pos : ℕ)
  | notFound
  | tryAgain
  deriving DecidableEq

inductive CaseMatching
  | exact
  | caseInsensitive
  deriving DecidableEq

/-- The case conversions of the standard library: `char::to_lowercase` and `str::to_lowercase`. -/
structure LowercaseMapping where
  char : Char → Text
  str : Text → Text

/-- `&s[offset..]`, which panics off a boundary. -/
def strFrom : Text → ℕ → Option Text
  | s, 0 => some s
  | [], _ + 1 => none
  | c :: s, offset + 1 =>
    if (String.utf8EncodeChar c).length ≤ offset + 1 then
      strFrom s (offset + 1 - (String.utf8EncodeChar c).length)
    else none

/-! ## Scanners -/

/-- `memchr`, `memchr2` and `memchr3`. -/
def memchrOf (needles : List UInt8) (s : Text) : Option ℕ :=
  (bytes s).findIdx? fun b ↦ needles.contains b

def isAsciiLowercase (b : UInt8) : Bool := 97 ≤ b && b ≤ 122

/-- `scan_lowercase`. -/
def scanLowercase (lower : LowercaseMapping) (probe : Char) : Text → Option ℕ
  | [] => none
  | c :: s =>
    if (lower.char c).head? = some probe then some 0
    else (scanLowercase lower probe s).map fun i ↦ (String.utf8EncodeChar c).length + i

/-- The bytes to scan for if the pattern in lowercase begins with `b`: that is ASCII. `0xC4` and
`0xE2` begin the codepoints outside ASCII whose lowercase begins with `i` and `k`. -/
def needlesFor (b : UInt8) : Option (List UInt8) :=
  if b = 105 then some [105, 73, 0xC4]
  else if b = 107 then some [107, 75, 0xE2]
  else if isAsciiLowercase b then some [b, b - 0x20]
  else if b < 0x80 then some [b]
  else none

/-- The scanner for a pattern that begins with `c`, and with the byte `b` in lowercase. -/
def scannerFor (lower : LowercaseMapping) (c : Char) (b : UInt8) : Text → Option ℕ :=
  match needlesFor b with
  | some needles => memchrOf needles
  | none => scanLowercase lower c

/-! ## Matchers -/

variable {h : ℕ} {root : Node Text h}

/-- What a matcher does to a cursor, given a number of rounds. -/
abbrev Matcher (root : Node Text h) := Cursor root → ℕ → Outcome (Cursor root × Option ℕ)

namespace Cursor

def nextCodepoint (self : Cursor root) : Outcome (Cursor root × Option Char) :=
  match self.getLeaf with
  | some (l, offset) =>
    (Outcome.ofOption (strFrom l offset)).bind fun s ↦ .done ((self.next baseMetric).1, s.head?)
  | none => .done (self, none)

/-- The cursor of a match that fails: on the codepoint after the one where it began. -/
def giveUp (self : Cursor root) (startPosition : ℕ) : Cursor root :=
  ((self.set startPosition).next baseMetric).1

end Cursor

/-- The loop of `compare_cursor_str`, leaf by leaf. -/
def compareLoop (startPosition successPos : ℕ) :
    ℕ → Text → Cursor root → Outcome (Cursor root × Option ℕ)
  | 0, _, _ => .running
  | fuel + 1, pat, self =>
    match self.getLeaf with
    | none => .done (self.giveUp startPosition, none)
    | some (leaf, posInLeaf) =>
      let n := min (bytes pat).length ((bytes leaf).length - posInLeaf)
      if ((bytes leaf).drop posInLeaf).take n ≠ (bytes pat).take n then
        .done (self.giveUp startPosition, none)
      else (Outcome.ofOption (strFrom pat n)).bind fun pat ↦
        if pat.isEmpty then .done (self.set successPos, some startPosition)
        else compareLoop startPosition successPos fuel pat self.nextLeaf

def compareCursorStr (pat : Text) : Matcher root := fun self fuel ↦
  if pat.isEmpty then .done (self, some self.pos)
  else compareLoop self.pos (self.pos + (bytes pat).length) fuel pat self

/-- How far the lowercase of a codepoint takes a match of the rest of the pattern. -/
inductive Compared
  | differs
  | complete
  | continues (pat : Text)

/-- The loop over the lowercase of a codepoint. -/
def compareLower : Text → Text → Compared
  | [], pat => .continues pat
  | _ :: _, [] => .complete
  | lc :: lcs, c :: pat =>
    if c ≠ lc then .differs else if pat.isEmpty then .complete else compareLower lcs pat

/-- The loop of `compare_cursor_str_casei`, codepoint by codepoint. -/
def compareCaseiLoop (lower : LowercaseMapping) (startPosition : ℕ) :
    ℕ → Text → Cursor root → Outcome (Cursor root × Option ℕ)
  | 0, _, _ => .running
  | fuel + 1, pat, self => self.nextCodepoint.bind fun (self, ropeC) ↦
    match ropeC with
    | none => .done (self.giveUp startPosition, none)
    | some ropeC =>
      match compareLower (lower.char ropeC) pat with
      | .differs => .done (self.giveUp startPosition, none)
      | .complete => .done (self, some startPosition)
      | .continues pat => compareCaseiLoop lower startPosition fuel pat self

/-- `compare_cursor_str_casei`, which panics on an empty pattern. -/
def compareCursorStrCasei (lower : LowercaseMapping) (pat : Text) : Matcher root := fun self fuel ↦
  if pat.isEmpty then .panicked else compareCaseiLoop lower self.pos fuel pat self

/-! ## Steps -/

/-- What a step answers that has tried a candidate. -/
def FindResult.ofMatch : Option ℕ → FindResult
  | some pos => .found pos
  | none => .tryAgain

def findCore (scanner : Text → Option ℕ) (matcher : Matcher root) (self : Cursor root) (fuel : ℕ) :
    Outcome (Cursor root × FindResult) :=
  if self.pos = self.totalLen then .done (self, .notFound)
  else
    match self.getLeaf with
    | some (leaf, posInLeaf) => (Outcome.ofOption (strFrom leaf posInLeaf)).bind fun s ↦
      match scanner s with
      | some off => (matcher (self.set (self.pos + off)) fuel).bind fun (self, actualPos) ↦
        .done (self, .ofMatch actualPos)
      | none => .done (self.nextLeaf, .tryAgain)
    | none => .done (self, .notFound)

def findProgressIter (scanner : Text → Option ℕ) (matcher : Matcher root) :
    ℕ → Cursor root → ℕ → Outcome (Cursor root × FindResult)
  | 0, self, _ => .done (self, .tryAgain)
  | numSteps + 1, self, fuel => (findCore scanner matcher self fuel).bind fun (self, result) ↦
    if result = .tryAgain then findProgressIter scanner matcher numSteps self fuel
    else .done (self, result)

/-- `find_progress` without a regular expression. -/
def findProgress (lower : LowercaseMapping) (cm : CaseMatching) (pat : Text) (numSteps : ℕ)
    (self : Cursor root) (fuel : ℕ) : Outcome (Cursor root × FindResult) :=
  match pat with
  | [] => .done (self, .notFound)
  | c :: _ =>
    match cm with
    | .exact =>
      match bytes pat with
      | [] => .panicked
      | b :: _ => findProgressIter (memchrOf [b]) (compareCursorStr pat) numSteps self fuel
    | .caseInsensitive =>
      match bytes (lower.str pat) with
      | [] => .panicked
      | b :: _ => findProgressIter (scannerFor lower c b)
          (compareCursorStrCasei lower (lower.str pat)) numSteps self fuel

/-- `find` panics when the search has not ended within the greatest number of steps. -/
def find (lower : LowercaseMapping) (cm : CaseMatching) (pat : Text) (self : Cursor root)
    (fuel : ℕ) : Outcome (Cursor root × Option ℕ) :=
  (findProgress lower cm pat usizeMax self fuel).bind fun (self, result) ↦
    match result with
    | .found start => .done (self, some start)
    | .notFound => .done (self, none)
    | .tryAgain => .panicked

/-- Calls of `find_progress` for as long as it answers `TryAgain`, of which some number is made. -/
def findRepeatedly (lower : LowercaseMapping) (cm : CaseMatching) (pat : Text) (numSteps : ℕ) :
    ℕ → Cursor root → ℕ → Outcome (Cursor root × FindResult)
  | 0, self, _ => .done (self, .tryAgain)
  | calls + 1, self, fuel =>
    (findProgress lower cm pat numSteps self fuel).bind fun (self, result) ↦
      if result = .tryAgain then findRepeatedly lower cm pat numSteps calls self fuel
      else .done (self, result)

end EeEditor.BTree
