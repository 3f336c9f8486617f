import Mathlib.Data.List.Dedup
import Mathlib.Data.String.Basic

/-!
# Texts and paths of the orchestrator

The parts of the standard library that the orchestrator uses on texts: `str::trim` as far as it
tells whether anything is left, and `std::path` on a system whose separator is the slash.

## Redaction

The model of `ee-agent-orchestrator/src/sensitive_data.rs` is on characters. All bytes that the
scans look for are ASCII, so that they never stop inside a character, and a token is as long in
bytes as in characters.
-/

namespace EeEditor.Orchestrator

/-- The characters with the property `White_Space`. -/
def isWhitespace (c : Char) : Bool :=
  let n := c.toNat
  (9 ≤ n && n ≤ 13) || n = 32 || n = 133 || n = 160 || n = 5760 || (8192 ≤ n && n ≤ 8202) ||
    n = 8232 || n = 8233 || n = 8239 || n = 8287 || n = 12288

/-- `text.trim().is_empty()`. -/
def isBlank (text : String) : Bool := text.toList.all isWhitespace

inductive Component where
  | rootDir
  | curDir
  | parentDir
  | normal (name : String)
deriving DecidableEq

structure PathBuf where
  text : String
deriving DecidableEq

namespace PathBuf

def isAbsolute (path : PathBuf) : Bool := path.text.toList.head? = some '/'

/-- `Path::components`: repeated separators and inner dots are dropped. -/
def components (path : PathBuf) : List Component :=
  let parts := (path.text.toList.splitOn '/').map String.ofList
  let rest := (parts.filter fun part ↦ part ≠ "" && part ≠ ".").map fun part ↦
    if part = ".." then .parentDir else .normal part
  if path.isAbsolute then .rootDir :: rest
  else if parts.head? = some "." then .curDir :: rest
  else rest

/-- `Path::starts_with`, by components. -/
def startsWith (path base : PathBuf) : Bool := base.components.isPrefixOf path.components

end PathBuf

/-! ## Redaction -/

def redacted : List Char := "[redacted]".toList

def sensitiveKeyMarkers : List String :=
  ["api_key", "apikey", "token", "secret", "password", "passwd", "authorization", "credential"]

@[grind =] def trim (text : List Char) : List Char :=
  ((text.dropWhile isWhitespace).reverse.dropWhile isWhitespace).reverse

@[grind =] def isSensitiveKey (key : List Char) : Bool :=
  let lower := key.map Char.toLower
  sensitiveKeyMarkers.any fun marker ↦ lower.tails.any marker.toList.isPrefixOf

def isAsciiWhitespace (c : Char) : Bool :=
  c = ' ' || c = '\t' || c = '\n' || c = '\r' || c.toNat = 12

/-- The characters that end the value of an assignment. -/
@[grind =] def endsValue (c : Char) : Bool := isAsciiWhitespace c || c = ',' || c = '"' || c = '\''

/-- `skipping` inside a value that is masked. The segment is what was read since the last one. -/
@[grind =] def redactAssignmentsFrom (skipping : Bool) (segment : List Char) : List Char → List Char
  | [] => segment
  | c :: text =>
    if skipping && !endsValue c then redactAssignmentsFrom true [] text
    else if c = '=' && isSensitiveKey (trim segment) then
      segment ++ '=' :: redacted ++ redactAssignmentsFrom true [] text
    else redactAssignmentsFrom false (segment ++ [c]) text

@[grind =]
def redactAssignments (text : List Char) : List Char := redactAssignmentsFrom false [] text

@[grind =] def isSecretLike (token : List Char) : Bool :=
  (["sk-", "pk-", "rk-", "ghp_", "gho_", "xoxb-", "xoxp-", "AKIA"].any fun pre ↦
    token.length ≥ pre.length + 4 && pre.toList.isPrefixOf token) ||
  (token.length ≥ 32 && token.dedup.length ≥ 5)

@[grind =] def isTokenChar (c : Char) : Bool := c.isAlphanum || c = '_' || c = '-'

@[grind =] def isJwtChar (c : Char) : Bool := isTokenChar c || c = '.'

@[grind =] def isJwt (span : List Char) : Bool := span.length ≥ 24 && span.contains '.'

/-- Each step consumes a character, so that a fuel of the length is enough. -/
@[grind =] def redactValuesFrom : ℕ → List Char → List Char
  | 0, text => text
  | _ + 1, [] => []
  | fuel + 1, c :: text =>
    if "eyJ".toList.isPrefixOf (c :: text) then
      let span := (c :: text).takeWhile isJwtChar
      (if isJwt span then redacted else span) ++
        redactValuesFrom fuel ((c :: text).dropWhile isJwtChar)
    else if isTokenChar c then
      let token := (c :: text).takeWhile isTokenChar
      (if isSecretLike token then redacted else token) ++
        redactValuesFrom fuel ((c :: text).dropWhile isTokenChar)
    else c :: redactValuesFrom fuel text

@[grind =] def redactValues (text : List Char) : List Char := redactValuesFrom text.length text

/-- Sensitive assignments first, then standalone token-like values. -/
def redact (text : String) : String :=
  String.ofList (redactValues (redactAssignments text.toList))

end EeEditor.Orchestrator
