import TinyCortex.Lib.Chrono
import TinyCortex.Lib.FrontMatter

/-! Entities and their files (`entities/types.rs`, `entities/frontmatter.rs`): a header of scalar and list lines that
is written and read by hand, and the notes behind it. -/

namespace TinyCortex.Entities

open Lines FrontMatter

inductive EntityKind
  | person | organization | topic | email | url | handle | hashtag | location | event | product
  | datetime | technology | artifact | quantity | misc
  deriving DecidableEq, Repr

def EntityKind.asStr : EntityKind → String
  | .person => "person"
  | .organization => "organization"
  | .topic => "topic"
  | .email => "email"
  | .url => "url"
  | .handle => "handle"
  | .hashtag => "hashtag"
  | .location => "location"
  | .event => "event"
  | .product => "product"
  | .datetime => "datetime"
  | .technology => "technology"
  | .artifact => "artifact"
  | .quantity => "quantity"
  | .misc => "misc"

def EntityKind.all : List EntityKind :=
  [.person, .organization, .topic, .email, .url, .handle, .hashtag, .location, .event, .product,
    .datetime, .technology, .artifact, .quantity, .misc]

/-- The kind whose wire string it is; any other text is an error. -/
def EntityKind.parse (s : String) : Option EntityKind := EntityKind.all.find? fun kind => kind.asStr = s

structure EntityHandle where
  kind : String
  value : String
  deriving DecidableEq, Repr

/-- One entity, with its timestamps in a type of their own. -/
structure Entity (τ : Type) where
  id : String
  kind : EntityKind
  displayName : Option String
  aliases : List String
  emails : List String
  handles : List EntityHandle
  createdAt : τ
  updatedAt : τ
  deriving DecidableEq

/-! ### Scalars -/

def needsQuote (s : List Char) : Bool :=
  s.any fun c => [':', '#', '\n', '"', '\'', '[', ']', '{', '}'].contains c

/-- `replace('\\', "\\\\").replace('"', "\\\"")`. -/
def escape (s : List Char) : List Char :=
  (s.flatMap fun c => if c = '\\' then ['\\', '\\'] else [c]).flatMap fun c => if c = '"' then ['\\', '"'] else [c]

def yamlString (s : List Char) : List Char :=
  if needsQuote s then '"' :: escape s ++ ['"'] else s

/-- `str::replace` of a pair of characters by one, from the left. -/
def replacePair (a b r : Char) : List Char → List Char
  | [] => []
  | [c] => [c]
  | c :: d :: rest => if c = a ∧ d = b then r :: replacePair a b r rest else c :: replacePair a b r (d :: rest)

def unescape (s : List Char) : List Char := replacePair '\\' '\\' '\\' (replacePair '\\' '"' '"' s)

/-- The text between surrounding double quotes, if there are two. -/
def between (s : List Char) : Option (List Char) :=
  (s.dropPrefix? ['"']).bind fun inner => inner.dropSuffix? ['"']

def unquote (s : List Char) : List Char := ((between s).map unescape).getD s

/-! ### Writing -/

def item (s : String) : List Char := "  - ".toList ++ yamlString s.toList

def listLines (header : String) (items : List String) : List (List Char) :=
  if items = [] then [] else header.toList :: items.map item

def handleLines (h : EntityHandle) : List (List Char) :=
  ["  - kind: ".toList ++ yamlString h.kind.toList, "    value: ".toList ++ yamlString h.value.toList]

section Compose

variable {τ : Type} (chrono : Chrono τ)

def headerLines (entity : Entity τ) : List (List Char) :=
  ["id: ".toList ++ entity.id.toList, "kind: ".toList ++ entity.kind.asStr.toList] ++
    (entity.displayName.toList.map fun name => "display_name: ".toList ++ yamlString name.toList) ++
    listLines "aliases:" entity.aliases ++ listLines "emails:" entity.emails ++
    (if entity.handles = [] then [] else "handles:".toList :: entity.handles.flatMap handleLines) ++
    ["created_at: ".toList ++ chrono.toRfc3339 entity.createdAt,
      "updated_at: ".toList ++ chrono.toRfc3339 entity.updatedAt]

def compose (entity : Entity τ) (notes : List Char) : List Char :=
  "---\n".toList ++ joined '\n' (headerLines chrono entity) ++ "---\n\n".toList ++ notes ++
    if notes.getLast? = some '\n' then [] else ['\n']

end Compose

/-! ### Reading -/

/-- The header and the notes; the closing fence may end the file. -/
def splitFrontMatter (text : List Char) : Option (List Char × List Char) :=
  (text.dropPrefix? "---\n".toList).bind fun rest =>
    match rest.dropInfix? "\n---\n".toList with
    | some parts => some parts
    | none => (rest.dropSuffix? "\n---".toList).map fun yaml => (yaml, [])

def notesBody (text : List Char) : Option (List Char) := (splitFrontMatter text).map Prod.snd

/-- `str::trim_start_matches`: every copy of the prefix goes; the fuel is the length of the text. -/
def trimStartMatches (pre : List Char) : Nat → List Char → List Char
  | 0, text => text
  | fuel + 1, text =>
      match text.dropPrefix? pre with
      | some rest => trimStartMatches pre fuel rest
      | none => text

inductive ListName
  | aliases | emails | handles
  deriving DecidableEq, Repr

/-- What the loop over the header lines has read. -/
structure ParseState (τ : Type) where
  id : String
  kind : Option EntityKind
  displayName : Option String
  aliases : List String
  emails : List String
  handles : List EntityHandle
  createdAt : Option τ
  updatedAt : Option τ
  currentList : Option ListName
  handleBuf : Option EntityHandle

def ParseState.start (τ : Type) : ParseState τ := ⟨"", none, none, [], [], [], none, none, none, none⟩

section Parse

variable {τ : Type} (chrono : Chrono τ)

/-- Push the handle in progress. -/
def ParseState.flush (st : ParseState τ) : ParseState τ :=
  { st with handles := st.handles ++ st.handleBuf.toList, handleBuf := none }

def parseField (st : ParseState τ) (key : String) (v : List Char) : ParseState τ :=
  match key with
  | "id" => { st with id := String.ofList (unquote v) }
  | "kind" => { st with kind := EntityKind.parse (String.ofList (unquote v)) }
  | "display_name" => { st with displayName := some (String.ofList (unquote v)) }
  | "aliases" => { st with currentList := some .aliases }
  | "emails" => { st with currentList := some .emails }
  | "handles" => { st with currentList := some .handles }
  | "created_at" => { st with createdAt := chrono.parseFromRfc3339 (unquote v) }
  | "updated_at" => { st with updatedAt := chrono.parseFromRfc3339 (unquote v) }
  | _ => st

def parseLine (st : ParseState τ) (raw : List Char) : ParseState τ :=
  if "  - kind:".toList <+: raw then
    let v := trim (trimStartMatches "  - kind:".toList raw.length raw)
    { st.flush with handleBuf := some ⟨String.ofList (unquote v), ""⟩, currentList := some .handles }
  else if "    value:".toList <+: raw then
    let v := trim (trimStartMatches "    value:".toList raw.length raw)
    { st with handleBuf := st.handleBuf.map fun h => { h with value := String.ofList (unquote v) } }
  else
    match raw.dropPrefix? "  - ".toList with
    | some rest =>
        let v := String.ofList (unquote (trim rest))
        match st.currentList with
        | some .aliases => { st with aliases := st.aliases ++ [v] }
        | some .emails => { st with emails := st.emails ++ [v] }
        | _ => st
    | none =>
        let left := if raw.head? ≠ some ' ' then { st.flush with currentList := none } else st
        match raw.dropInfix? [':'] with
        | some (k, v) => parseField chrono left (String.ofList (trim k)) (trim v)
        | none => left

/-- The entity of a file; a missing timestamp is the time of reading. -/
def parse (now : τ) (text : List Char) : Option (Entity τ) :=
  (splitFrontMatter text).bind fun parts =>
    let st := ((lines parts.1).foldl (parseLine chrono) (ParseState.start τ)).flush
    st.kind.map fun kind =>
      ⟨st.id, kind, st.displayName, st.aliases, st.emails, st.handles,
        st.createdAt.getD now, st.updatedAt.getD now⟩

end Parse

end TinyCortex.Entities
