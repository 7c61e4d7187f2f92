import TinyCortex.Lib.Chrono
import TinyCortex.Lib.Decimal
import TinyCortex.Lib.FirstMatch
import TinyCortex.Lib.FrontMatter
import TinyCortex.Lib.JsonString
import TinyCortex.Lib.OrderedMap

/-! The file of a time-tree node (`tree/runtime/store/nodes.rs`): a header of quoted and bare scalars that is
written and read by hand, and the summary behind it. -/

namespace TinyCortex.TimeTree.NodeFile

open FirstMatch FrontMatter Lines

/-! ### Node ids -/

def invalidNodeId (nodeId reason : String) : Except String Unit :=
  .error ("invalid node_id '" ++ nodeId ++ "': " ++ reason)

/-- A segment as `str::parse::<u32>` reads it. -/
def segmentValue (parts : List (List Char)) (i default : Nat) : Nat :=
  ((parts[i]?).bind (Decimal.parseUnsigned (2 ^ 32))).getD default

/-- What is wrong with a segment by itself. -/
def segmentError (part : List Char) (i : Nat) : Option String :=
  if part = [] then some ("empty segment at position " ++ toString i)
  else if part.all Char.isDigit then none
  else some ("non-numeric segment '" ++ String.ofList part ++ "' at position " ++ toString i)

def validateNodeId (nodeId : String) : Except String Unit :=
  let chars := nodeId.toList
  let parts := chars.splitOn '/'
  let month := segmentValue parts 1 0
  let day := segmentValue parts 2 0
  let hour := segmentValue parts 3 99
  if nodeId = "root" then .ok ()
  else if ['.', '.'] <:+: chars ∨ chars.head? = some '/' ∨ chars.getLast? = some '/' then
    invalidNodeId nodeId "contains path traversal or leading/trailing slashes"
  else if 4 < parts.length then invalidNodeId nodeId "expected 1-4 segments (YYYY[/MM[/DD[/HH]]])"
  else match parts.zipIdx.findSome? fun entry => segmentError entry.1 entry.2 with
    | some reason => invalidNodeId nodeId reason
    | none =>
        if 2 ≤ parts.length ∧ ¬(1 ≤ month ∧ month ≤ 12) then
          invalidNodeId nodeId ("month " ++ toString month ++ " out of range 1-12")
        else if 3 ≤ parts.length ∧ ¬(1 ≤ day ∧ day ≤ 31) then
          invalidNodeId nodeId ("day " ++ toString day ++ " out of range 1-31")
        else if 4 ≤ parts.length ∧ 23 < hour then
          invalidNodeId nodeId ("hour " ++ toString hour ++ " out of range 0-23")
        else .ok ()

/-! ### What comes from other crates -/

/-- The node value types and the paths of nodes: the label of a level is a word and is read back, and the
parent of a valid id is one. -/
structure NodeTypes (Level : Type) where
  nodeFilePath : String → String → String
  asStr : Level → String
  fromStrLabel : String → Option Level
  levelFromNodeId : String → Level
  deriveParentId : String → Option String
  estimateTokens : String → UInt32
  label : ∀ level, fromStrLabel (asStr level) = some level
  word : ∀ level, asStr level ≠ "" ∧ ∀ c ∈ (asStr level).toList, c.isAlpha
  parent_valid : ∀ id pid, validateNodeId id = .ok () → deriveParentId id = some pid → validateNodeId pid = .ok ()

/-! ### Nodes and their files -/

structure TreeNode (Level τ : Type) where
  nodeId : String
  namespaceId : String
  level : Level
  parentId : Option String
  summary : String
  tokenCount : UInt32
  childCount : UInt32
  createdAt : τ
  updatedAt : τ
  metadata : Option String

variable {Level τ : Type} (types : NodeTypes Level) (chrono : Chrono τ)

/-- A JSON string literal. -/
def yamlString (value : String) : List Char := JsonString.encode value.toList

/-- The header by its keys and the texts behind them. -/
def header (node : TreeNode Level τ) : List (String × List Char) :=
  [("node_id", yamlString node.nodeId), ("namespace", yamlString node.namespaceId),
    ("level", (types.asStr node.level).toList), ("parent_id", node.parentId.elim ['~'] yamlString),
    ("token_count", (toString node.tokenCount.toNat).toList), ("child_count", (toString node.childCount.toNat).toList),
    ("created_at", chrono.toRfc3339 node.createdAt), ("updated_at", chrono.toRfc3339 node.updatedAt)] ++
    node.metadata.elim [] fun m => [("metadata", yamlString m)]

def headerLine (entry : String × List Char) : List Char := entry.1.toList ++ ':' :: ' ' :: entry.2

/-- The text of a node file. -/
def nodeText (node : TreeNode Level τ) : List Char :=
  "---\n".toList ++ joined '\n' ((header types chrono node).map headerLine) ++ "---\n\n".toList ++
    node.summary.toList ++ ['\n']

/-- `str::trim_matches` of quotes. -/
def trimQuotes (text : List Char) : List Char := (text.dropWhile (· = '"')).rdropWhile (· = '"')

/-- The value of a scalar: a JSON string, or else the text without the quotes around it. -/
def scalarValue (raw : List Char) : String := String.ofList ((JsonString.decode raw).getD (trimQuotes raw))

def parseHeaderLine (line : List Char) : Option (String × String) :=
  let line := trim line
  if line = [] then none
  else if ':' ∈ line then
    some (String.ofList (trim (line.takeWhile (· ≠ ':'))), scalarValue (trim ((line.dropWhile (· ≠ ':')).drop 1)))
  else none

def splitFrontmatter (raw : List Char) : OrderedMap String String × List Char :=
  let trimmed := raw.dropWhile Text.isWhitespace
  if "---".toList <+: trimmed then
    match splitOnce "\n---".toList (trimmed.drop 3) with
    | some (block, rest) =>
        (((lines block).filterMap parseHeaderLine).foldl
          (fun (map : OrderedMap String String) entry => map.insert entry.1 entry.2) [], rest.dropWhile (· = '\n'))
    | none => ([], raw)
  else ([], raw)

def parseU32 (text : String) : Option UInt32 :=
  (Decimal.parseUnsigned (2 ^ 32) text.toList).map UInt32.ofNat

/-- The parent a header names; none for a tilde. -/
def parentOf (value : String) : Option String :=
  let trimmed := trimQuotes (trim value.toList)
  if trimmed = ['~'] ∨ trimmed = [] then none else some (String.ofList trimmed)

def parseNodeMarkdown (raw : List Char) (namespaceId nodeId : String) : TreeNode Level τ :=
  let frontmatter := (splitFrontmatter raw).1
  let body := String.ofList ((splitFrontmatter raw).2.rdropWhile Text.isWhitespace)
  let time (key : String) : Option τ := (frontmatter.get key).bind fun v => chrono.parseFromRfc3339 v.toList
  let createdAt := (time "created_at").getD chrono.unixEpoch
  { nodeId := nodeId
    namespaceId := namespaceId
    level := ((frontmatter.get "level").bind types.fromStrLabel).getD (types.levelFromNodeId nodeId)
    parentId := ((frontmatter.get "parent_id").bind parentOf).or (types.deriveParentId nodeId)
    summary := body
    tokenCount := ((frontmatter.get "token_count").bind parseU32).getD (types.estimateTokens body)
    childCount := ((frontmatter.get "child_count").bind parseU32).getD 0
    createdAt := createdAt
    updatedAt := (time "updated_at").getD createdAt
    metadata := frontmatter.get "metadata" }

/-- The files by their paths. -/
abbrev NodeFiles := String → Option (List Char)

def writeNode (node : TreeNode Level τ) (files : NodeFiles) : NodeFiles :=
  Function.update files (types.nodeFilePath node.namespaceId node.nodeId) (some (nodeText types chrono node))

def readNode (files : NodeFiles) (namespaceId nodeId : String) : Option (TreeNode Level τ) :=
  (files (types.nodeFilePath namespaceId nodeId)).map fun raw =>
    parseNodeMarkdown types chrono raw namespaceId nodeId

/-- The metadata that a node had before the fold whose receipt a text is. -/
abbrev Receipts := String → Option (Option String)

/-- Nodes with a fold receipt get the metadata back that they had before. -/
def clearPendingFoldReceipts (receipts : Receipts) (namespaceId : String) (hourIds : List String) (files : NodeFiles) :
    NodeFiles :=
  hourIds.foldl (fun files hourId =>
    match readNode types chrono files namespaceId hourId with
    | none => files
    | some node =>
        match node.metadata.bind receipts with
        | none => files
        | some previous => writeNode types chrono { node with metadata := previous } files) files

end TinyCortex.TimeTree.NodeFile
