import Mathlib.Data.List.AList
import Mathlib.Data.List.MinMax
import Mathlib.Data.String.Basic

/-!
# Trust rules

The model of the rules of `ee-cli/src/policy`: normalized operations, the scope that every rule
carries, and the matchers of the twelve shapes of a rule (`rules/evaluate.rs`). Times are integers,
and the sizes and counts of the source, which are only compared, are natural numbers.
-/

namespace EeEditor.Policy

/-- The digest of the canonical root of a workspace. -/
structure WorkspaceIdentity where
  digest : Vector UInt8 32
deriving DecidableEq

abbrev SystemTime := ℤ

inductive TrustCategory where
  | read
  | writeCreate
  | writeModify
  | delete
  | execute
  | network
  | unknown
deriving DecidableEq

inductive TransportKind where
  | acp
  | mcpStdio
  | mcpAcp
deriving DecidableEq

inductive FilesystemOperationKind where
  | read
  | create
  | modify
  | delete
  | rename
  | chmod
  | symlink
deriving DecidableEq

inductive NetworkScheme where
  | http
  | https
  | ws
  | wss
deriving DecidableEq

inductive NetworkMethodClass where
  | read
  | write
  | connect
deriving DecidableEq

inductive BrowserActionClass where
  | navigate
  | fetch
  | download
  | upload
  | webSocket
deriving DecidableEq

/-! ## Operations -/

inductive OperationIdentity where
  | command (executable : String) (argv : List String)
  | mcp (server transportIdentity tool : String) (toolSchemaVersion : ℕ) (argumentsJson : String)
  | readPath (relativePath : String) (byteCount : Option ℕ)
  | mcpRead (server transportIdentity tool : String) (toolSchemaVersion : ℕ)
      (relativePath : String) (byteCount : Option ℕ)
  | profile (profile : String)
  | write (relativePath : String) (fileCount : ℕ) (totalBytes maxFileBytes : Option ℕ)
  | filesystem (operation : FilesystemOperationKind) (sourcePath destinationPath : Option String)
  | network (scheme : NetworkScheme) (host : String) (port : UInt16) (method : NetworkMethodClass)
      (browserAction : BrowserActionClass)
  | nativeTool (tool : String)
  | unknown
deriving DecidableEq

structure TrustOperation where
  workspace : WorkspaceIdentity
  agent : Option String
  transport : TransportKind
  category : TrustCategory
  identity : OperationIdentity
deriving DecidableEq

def TrustOperation.isUnknown (operation : TrustOperation) : Bool :=
  operation.category = .unknown || operation.identity = .unknown

/-! ## Rules -/

structure TrustRuleScope where
  workspace : WorkspaceIdentity
  agent : Option String
  expiresAt : Option SystemTime
  maxUses : Option ℕ
deriving DecidableEq

inductive TrustEffect where
  | allow
  | deny
  | confirm
deriving DecidableEq

inductive MatchMode where
  | argvExact
  | argvPrefix
deriving DecidableEq

inductive WriteOperationKind where
  | create
  | modify
deriving DecidableEq

inductive HostMatchMode where
  | exact
  | suffix
deriving DecidableEq

/-- The segments of a path inside the workspace. -/
structure PathPrefix where
  segments : List String
deriving DecidableEq

/-- The fields of every rule. -/
structure RuleHead where
  id : String
  effect : TrustEffect
  scope : TrustRuleScope
deriving DecidableEq

structure CommandRule extends RuleHead where
  executable : String
  matchMode : MatchMode
  argv : List String
deriving DecidableEq

structure McpRule extends RuleHead where
  server : String
  transportIdentity : String
  tool : String
  toolSchemaVersion : ℕ
  argumentsJson : String
deriving DecidableEq

structure McpDenyRule extends RuleHead where
  server : String
  transportIdentity : String
  tool : String
  toolSchemaVersion : ℕ
  category : Option TrustCategory
deriving DecidableEq

structure ReadPathRule extends RuleHead where
  pathPrefix : PathPrefix
  maxBytes : ℕ
deriving DecidableEq

structure McpReadRule extends RuleHead where
  server : String
  transportIdentity : String
  tool : String
  toolSchemaVersion : ℕ
  pathPrefix : PathPrefix
  maxBytes : ℕ
deriving DecidableEq

structure McpReadProfileRule extends RuleHead where
  server : String
  transportIdentity : String
  toolSchemaVersion : ℕ
  profile : String
deriving DecidableEq

structure ProfileRule extends RuleHead where
  profile : String
deriving DecidableEq

structure WriteRule extends RuleHead where
  operation : WriteOperationKind
  pathPrefix : PathPrefix
  maxFiles : ℕ
  maxTotalBytes : ℕ
  maxFileBytes : ℕ
deriving DecidableEq

structure NetworkRule extends RuleHead where
  scheme : NetworkScheme
  host : String
  hostMatch : HostMatchMode
  port : UInt16
  method : NetworkMethodClass
  browserAction : BrowserActionClass
deriving DecidableEq

structure FilesystemRule extends RuleHead where
  operations : List FilesystemOperationKind
  pathPrefix : PathPrefix
deriving DecidableEq

inductive ToolRuleIdentity where
  | native (tool : String)
  | mcp (server transportIdentity tool : String) (toolSchemaVersion : ℕ)
deriving DecidableEq

structure ToolRule extends RuleHead where
  identity : ToolRuleIdentity
  category : Option TrustCategory
deriving DecidableEq

inductive TrustRule where
  | command (rule : CommandRule)
  | mcp (rule : McpRule)
  | readPath (rule : ReadPathRule)
  | mcpRead (rule : McpReadRule)
  | mcpReadProfile (rule : McpReadProfileRule)
  | profile (rule : ProfileRule)
  | write (rule : WriteRule)
  | network (rule : NetworkRule)
  | mcpDeny (rule : McpDenyRule)
  | filesystem (rule : FilesystemRule)
  | tool (rule : ToolRule)
  | template (templateId : String) (rule : TrustRule)

/-- The common fields, those of the wrapped rule for a template. -/
def TrustRule.head : TrustRule → RuleHead
  | command rule => rule.toRuleHead
  | mcp rule => rule.toRuleHead
  | readPath rule => rule.toRuleHead
  | mcpRead rule => rule.toRuleHead
  | mcpReadProfile rule => rule.toRuleHead
  | profile rule => rule.toRuleHead
  | write rule => rule.toRuleHead
  | network rule => rule.toRuleHead
  | mcpDeny rule => rule.toRuleHead
  | filesystem rule => rule.toRuleHead
  | tool rule => rule.toRuleHead
  | template _ rule => rule.head

def TrustRule.id (rule : TrustRule) : String := rule.head.id

def TrustRule.scope (rule : TrustRule) : TrustRuleScope := rule.head.scope

def TrustRule.effect (rule : TrustRule) : TrustEffect := rule.head.effect

/-! ## Matchers -/

/-- The path starts with the segments of the prefix. -/
def PathPrefix.matches (pathPrefix : PathPrefix) (relative : String) : Bool :=
  let operationSegments := (relative.toList.splitOn '/').map String.ofList
  relative ≠ "" && operationSegments.length ≥ pathPrefix.segments.length &&
    (pathPrefix.segments.zip operationSegments).all fun (a, b) ↦ a = b

def CommandRule.matchesArgv (rule : CommandRule) (argv : List String) : Bool :=
  match rule.matchMode with
  | .argvExact => rule.argv = argv
  | .argvPrefix => argv.length ≥ rule.argv.length && (rule.argv.zip argv).all fun (a, b) ↦ a = b

/-- A size that is known is within a bound. -/
def sizeOk (maxBytes : ℕ) (byteCount : Option ℕ) : Bool := byteCount.all (· ≤ maxBytes)

/-- The host itself, or a name under it. -/
def hostMatches (expected : String) (mode : HostMatchMode) (host : String) : Bool :=
  match mode with
  | .exact => expected = host
  | .suffix =>
    let expectedBytes := expected.toUTF8.toList
    let hostBytes := host.toUTF8.toList
    host = expected || (hostBytes.length > expectedBytes.length &&
      expectedBytes.isSuffixOf hostBytes &&
      hostBytes[hostBytes.length - expectedBytes.length - 1]? = some 46)

def eeMcpSafeReadProfile : String := "ee_mcp_safe_read"

def safeReadProfile : String := "safe_read"

def eeMcpSafeReadTools : List String :=
  ["ee_workspace_roots", "ee_list_directory", "ee_list_directory_all", "ee_search_files",
    "ee_search_files_all", "ee_search_text", "ee_search_text_regex", "ee_search_text_in_files",
    "ee_read_buffer", "ee_read_buffer_lines", "ee_open_buffers", "ee_get_diagnostics",
    "ee_get_file_diagnostics", "ee_document_symbols", "ee_references", "ee_list_code_actions",
    "ee_preview_rename_symbol", "ee_read_text_file", "ee_terminal_output",
    "ee_terminal_output_since", "ee_terminal_wait", "ee_terminal_wait_long", "ee_git_status",
    "ee_git_diff", "ee_git_diff_staged", "ee_git_diff_file", "ee_changed_files",
    "ee_review_context", "ee_tools_manifest", "ee_project_instructions", "ee_read_notes",
    "ee_read_note", "ee_file_dependency_map", "ee_symbol_dependency_map", "ee_diagnostics"]

def mcpReadProfileMatches (profile tool : String) : Bool :=
  profile = eeMcpSafeReadProfile && eeMcpSafeReadTools.contains tool

def isSafeReadProfile (profile : String) : Bool := profile = safeReadProfile

def NetworkRule.matches (rule : NetworkRule) (operation : TrustOperation) : Bool :=
  operation.category = .network &&
    match operation.identity with
    | .network scheme host port method browserAction =>
      rule.scheme = scheme && hostMatches rule.host rule.hostMatch host && rule.port = port &&
        rule.method = method && rule.browserAction = browserAction
    | _ => false

def McpDenyRule.matches (rule : McpDenyRule) (operation : TrustOperation) : Bool :=
  match operation.identity with
  | .mcp server transportIdentity tool toolSchemaVersion _
  | .mcpRead server transportIdentity tool toolSchemaVersion _ _ =>
    rule.server = server && rule.transportIdentity = transportIdentity && rule.tool = tool &&
      rule.toolSchemaVersion = toolSchemaVersion && rule.category.all (· = operation.category)
  | _ => false

def FilesystemRule.matches (rule : FilesystemRule) (operation : TrustOperation) : Bool :=
  match operation.identity with
  | .filesystem filesystemOperation sourcePath destinationPath =>
    rule.operations.contains filesystemOperation &&
      (sourcePath.toList ++ destinationPath.toList).any rule.pathPrefix.matches
  | _ => false

def ToolRule.matches (rule : ToolRule) (operation : TrustOperation) : Bool :=
  !rule.category.any (· ≠ operation.category) &&
    match rule.identity, operation.identity with
    | .native expected, .nativeTool tool => expected = tool
    | .mcp expectedServer expectedTransport expectedTool expectedSchema,
        .mcp server transportIdentity tool toolSchemaVersion _
    | .mcp expectedServer expectedTransport expectedTool expectedSchema,
        .mcpRead server transportIdentity tool toolSchemaVersion _ _ =>
      expectedServer = server && expectedTransport = transportIdentity && expectedTool = tool &&
        expectedSchema = toolSchemaVersion
    | _, _ => false

def CommandRule.matches (rule : CommandRule) (operation : TrustOperation) : Bool :=
  operation.category = .execute &&
    match operation.identity with
    | .command executable argv => rule.executable = executable && rule.matchesArgv argv
    | _ => false

def McpRule.matches (rule : McpRule) (operation : TrustOperation) : Bool :=
  match operation.identity with
  | .mcp server transportIdentity tool toolSchemaVersion argumentsJson =>
    rule.server = server && rule.transportIdentity = transportIdentity && rule.tool = tool &&
      rule.toolSchemaVersion = toolSchemaVersion && rule.argumentsJson = argumentsJson
  | _ => false

def ReadPathRule.matches (rule : ReadPathRule) (operation : TrustOperation) : Bool :=
  operation.category = .read &&
    match operation.identity with
    | .readPath relativePath byteCount => rule.pathPrefix.matches relativePath &&
      (rule.effect ≠ .allow || sizeOk rule.maxBytes byteCount)
    | _ => false

def McpReadRule.matches (rule : McpReadRule) (operation : TrustOperation) : Bool :=
  operation.category = .read &&
    match operation.identity with
    | .mcpRead server transportIdentity tool toolSchemaVersion relativePath byteCount =>
      rule.server = server && rule.transportIdentity = transportIdentity && rule.tool = tool &&
        rule.toolSchemaVersion = toolSchemaVersion && rule.pathPrefix.matches relativePath &&
        (rule.effect ≠ .allow || sizeOk rule.maxBytes byteCount)
    | _ => false

def McpReadProfileRule.matches (rule : McpReadProfileRule) (operation : TrustOperation) : Bool :=
  operation.category = .read &&
    match operation.identity with
    | .mcpRead server transportIdentity tool toolSchemaVersion _ _
    | .mcp server transportIdentity tool toolSchemaVersion _ =>
      rule.server = server && rule.transportIdentity = transportIdentity &&
        rule.toolSchemaVersion = toolSchemaVersion && mcpReadProfileMatches rule.profile tool
    | _ => false

def ProfileRule.matches (rule : ProfileRule) (operation : TrustOperation) : Bool :=
  match operation.identity with
  | .profile profile => rule.profile = profile
  | _ => false

def WriteRule.matches (rule : WriteRule) (operation : TrustOperation) : Bool :=
  match operation.identity with
  | .write relativePath fileCount totalBytes maxFileBytes =>
    (match rule.operation with
      | .create => operation.category = .writeCreate
      | .modify => operation.category = .writeModify) &&
      rule.pathPrefix.matches relativePath &&
      (rule.effect ≠ .allow || (fileCount ≤ rule.maxFiles &&
        totalBytes.all (· ≤ rule.maxTotalBytes) && maxFileBytes.all (· ≤ rule.maxFileBytes)))
  | _ => false

/-- The comparison with the operation alone, without the scope. -/
def TrustRule.matches : TrustRule → TrustOperation → Bool
  | command rule, operation => rule.matches operation
  | mcp rule, operation => rule.matches operation
  | readPath rule, operation => rule.matches operation
  | mcpRead rule, operation => rule.matches operation
  | mcpReadProfile rule, operation => rule.matches operation
  | profile rule, operation => rule.matches operation
  | write rule, operation => rule.matches operation
  | network rule, operation => rule.matches operation
  | mcpDeny rule, operation => rule.matches operation
  | filesystem rule, operation => rule.matches operation
  | tool rule, operation => rule.matches operation
  | template _ rule, operation => rule.matches operation

end EeEditor.Policy
