import EeEditor.Orchestrator.Text

/-!
# Targets of deletions

The model of `is_catastrophic_target` in `ee-cli/src/policy/safeguards.rs`, the test that a literal
target of a recursive deletion is put to. Texts are lists of characters.

A path is the list of its components, by which paths are compared. The operations of `std::path` are
those of a system whose separator is the slash.
-/

namespace EeEditor.Safeguards

open EeEditor.Orchestrator (Component)

/-! ## Paths by their components -/

abbrev Path := List Component

namespace Path

/-- `Path::new`. -/
def ofChars (s : List Char) : Path := (Orchestrator.PathBuf.mk (String.ofList s)).components

def isAbsolute (path : Path) : Bool := path.head? = some .rootDir

/-- `Path::parent`. -/
def parent (path : Path) : Option Path :=
  match path.getLast? with
  | none => none
  | some .rootDir => none
  | some _ => some path.dropLast

/-- `PathBuf::push` of a path: an absolute one replaces what there is. -/
def join (path other : Path) : Path := if isAbsolute other then other else path ++ other

def pop (path : Path) : Path := (parent path).getD path

end Path

/-- `lexical_normalize`. -/
def lexicalNormalize (path : Path) : Path :=
  path.foldl (fun normalized component ↦ match component with
    | .curDir => normalized
    | .parentDir => normalized.pop
    | .rootDir => normalized.join [.rootDir]
    | .normal name => normalized.join [.normal name]) []

/-- `lexical_absolute`. -/
def lexicalAbsolute (path cwd : Path) : Path :=
  if path.isAbsolute then lexicalNormalize path else lexicalNormalize (cwd.join path)

abbrev Token := List Char

/-! ## The test -/

/-- What a target is tested against. -/
structure Surroundings where
  /-- The working directory. -/
  cwd : Path
  /-- The roots of the workspace. -/
  workspaceRoots : List Path
  /-- The home directory, when there is one. -/
  home : Option Path

/-- `strip_suffix`. -/
def stripSuffix (suffix target : Token) : Option Token :=
  if suffix.isSuffixOf target then some (target.take (target.length - suffix.length)) else none

def wildcardBase (target : Token) : Token × Bool :=
  if target = ['*'] ∨ target = ['?'] ∨ target = "{*,.*}".toList then (['.'], true)
  else match (stripSuffix "/*".toList target).or (stripSuffix "/?".toList target) with
    | some base => (base, true)
    | none => (target, false)

def expandHome (target : Token) (home : Option Path) : Path :=
  match home with
  | some home =>
    if target = ['~'] then home
    else if "~/".toList.isPrefixOf target then home.join (.ofChars (target.drop 2))
    else .ofChars target
  | none => .ofChars target

def isCatastrophicTarget (self : Surroundings) (target : Token) : Bool :=
  let (base, wildcardAll) := wildcardBase target
  let resolved := lexicalAbsolute (expandHome base self.home) self.cwd
  let cwd := lexicalNormalize self.cwd
  let isProtected := resolved.parent = none ∨ resolved = cwd ∨
    cwd.parent.map lexicalNormalize = some resolved ∨
    self.home.map lexicalNormalize = some resolved ∨
    resolved ∈ self.workspaceRoots.map lexicalNormalize
  isProtected ∨ (wildcardAll ∧ (base = [] ∨ base = ['.']))

end EeEditor.Safeguards
