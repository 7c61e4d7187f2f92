import TinyCortex.Content.Yaml
import TinyCortex.Ingest.Messages
import TinyCortex.Lib.Decimal

/-! Content files of chunks and summaries, and the rewriting of their tags (`store/content/compose/chunk.rs`,
`summary.rs`). Texts are their characters. -/

namespace TinyCortex.Content

open Lines FrontMatter Chunks

abbrev Line := List Char

abbrev Chunk := Chunks.Produce.Chunk Ingest.Messages.SourceMetadata

/-- Timestamps as chrono writes them; RFC 3339 has neither blanks nor quotes. -/
structure Chrono where
  toRfc3339 : Int → List Char
  formatDate : Int → List Char
  plain : ∀ t, ∀ c ∈ toRfc3339 t, Text.isWhitespace c = false ∧ c ≠ '"'

/-- Milliseconds in digits are such texts. -/
instance : Inhabited Chrono where
  default :=
    { toRfc3339 := fun t => (toString t).toList
      formatDate := fun t => (toString t).toList
      plain := fun t c hc => by
        rcases Decimal.isDigit_of_mem hc with rfl | hdigit
        · decide
        · refine ⟨Text.isWhitespace_digit hdigit, ?_⟩
          rintro rfl
          cases hdigit }

def field (key : String) (v : List Char) : Line := key.toList ++ ':' :: ' ' :: v

def item (v : List Char) : Line := ' ' :: ' ' :: '-' :: ' ' :: yamlScalar v

def digits (n : Nat) : List Char := Nat.toDigits 10 n

def fenced (header : List Line) : List Char := fence ++ ['\n'] ++ joined '\n' header ++ (fence ++ ['\n'])

/-! ### Chunks -/

def parseGmailParticipantsSourceId (sourceId : String) : Option (List (List Char)) :=
  (sourceId.toList.dropInfix? [':']).bind fun parts =>
    if parts.1 ≠ "gmail".toList ∨ parts.2 = [] then none
    else
      let addrs := ((parts.2.splitOn '|').map trim).filter (· ≠ [])
      if addrs = [] then none else some addrs

def buildParticipantsAlias (addrs : List (List Char)) (seq : Nat) : List Char :=
  (match addrs with
    | [] => "unknown".toList
    | [only] => only
    | [first, second] => first ++ " <-> ".toList ++ second
    | first :: rest => first ++ " <-> ".toList ++ digits rest.length ++ " others".toList) ++
  ": chunk ".toList ++ digits seq

section Chunk

variable (chrono : Chrono) (chunk : Chunk)

def seededTags : List String :=
  withSourceTag (chunk.metadata.pathScope.getD chunk.metadata.sourceId) chunk.metadata.tags

def emailLines : List Line :=
  if chunk.metadata.sourceKind = .email then
    match parseGmailParticipantsSourceId chunk.metadata.sourceId with
    | some addrs =>
        "participants:".toList :: addrs.map item ++
          ["aliases:".toList, item (buildParticipantsAlias addrs chunk.seqInSource)]
    | none => []
  else []

def chunkLines : List Line :=
  [field "source_kind" chunk.metadata.sourceKind.asStr.toList,
    field "source_id" (yamlScalar chunk.metadata.sourceId.toList)] ++
  chunk.metadata.pathScope.toList.map (fun pathScope => field "path_scope" (yamlScalar pathScope.toList)) ++
  [field "seq" (digits chunk.seqInSource), field "owner" (yamlScalar chunk.metadata.owner.toList),
    field "timestamp" (chrono.toRfc3339 chunk.metadata.timestampMs),
    field "time_range_start" (chrono.toRfc3339 chunk.metadata.timeRangeStartMs),
    field "time_range_end" (chrono.toRfc3339 chunk.metadata.timeRangeEndMs)] ++
  chunk.metadata.sourceRef.toList.map (fun sr => field "source_ref" (yamlScalar sr.toList)) ++
  ("tags:".toList :: (seededTags chunk).map fun tag => item tag.toList) ++ emailLines chunk

def buildFrontMatter : List Char := fenced (chunkLines chrono chunk)

/-- The whole file, and the body that the hash is taken of. -/
def composeChunkFile : List Char × List Char := (buildFrontMatter chrono chunk ++ chunk.content, chunk.content)

end Chunk

/-! ### Tag rewriting -/

def isItem (line : Line) : Bool := "  - ".toList.isPrefixOf line

def tagsEmpty : Line := "tags: []".toList

def tagsHead : Line := "tags:".toList

/-- The loop that leaves the tags out; behind a `tags:` line it skips the items. -/
def withoutTags : Bool → List Line → List Line
  | _, [] => []
  | skipping, line :: rest =>
      if skipping ∧ isItem line then withoutTags true rest
      else if line = tagsEmpty then withoutTags false rest
      else if line = tagsHead then withoutTags true rest
      else line :: withoutTags false rest

/-- The lines before the last fence, and all of them where there is none. -/
def beforeFence (ls : List Line) : List Line :=
  let front := ls.rdropWhile fun line => line ≠ fence
  if front = [] then ls else front.dropLast

def replacement (newTags : List String) : List Char :=
  if newTags = [] then tagsEmpty
  else tagsHead ++ newTags.flatMap fun tag => '\n' :: item tag.toList

def replaceTagsInFrontMatter (fm : List Char) (newTags : List String) : Except String (List Char) :=
  if (lines fm).any fun line => line = tagsEmpty ∨ line = tagsHead then
    .ok (List.intercalate ['\n'] (beforeFence (withoutTags false (lines fm)) ++ [replacement newTags, fence]) ++ ['\n'])
  else .error "tags: key not found in front-matter"

def rewriteTags (content : List Char) (newTags : List String) : Except String (List Char) :=
  match splitFrontMatter content with
  | some (frontMatter, body) => (replaceTagsInFrontMatter frontMatter newTags).map fun newFm => newFm ++ body
  | none => .error "cannot find front-matter delimiters"

/-! ### Summaries -/

inductive SummaryTreeKind
  | source | global | topic | flavoured
  deriving DecidableEq, Repr

def SummaryTreeKind.asStr : SummaryTreeKind → String
  | .source => "source"
  | .global => "global"
  | .topic => "topic"
  | .flavoured => "flavoured"

def memoryArtifactFormat : Nat := 2

/-- `CARGO_PKG_VERSION`. -/
def openhumanCoreVersion : String := "0.1.4"

structure SummaryComposeInput where
  summaryId : String
  treeKind : SummaryTreeKind
  treeId : String
  treeScope : String
  level : Nat
  childIds : List String
  childBasenames : Option (List (Option String))
  childCount : Nat
  timeRangeStart : Int
  timeRangeEnd : Int
  sealedAt : Int
  body : List Char

def illegalInFilename (c : Char) : Bool := ['\\', '/', ':', '*', '?', '"', '<', '>', '|'].contains c

def sanitizeFilename (s : List Char) : List Char := s.map fun c => if illegalInFilename c then '-' else c

def levelIsNumeric (level : List Char) : Bool :=
  level.head? = some 'L' && 1 < level.length && (level.drop 1).all Char.isDigit

/-- `<ms>:L<level>-<tail>`. -/
def datedFilename (rest : List Char) : Option (List Char) :=
  (rest.dropInfix? [':']).bind fun outer =>
    (outer.2.dropInfix? ['-']).bind fun inner =>
      if outer.1.length = 13 ∧ outer.1.all Char.isDigit ∧ levelIsNumeric inner.1 ∧ inner.2 ≠ [] ∧
          ¬inner.2.any illegalInFilename then
        some ("summary-".toList ++ outer.1 ++ '-' :: inner.1 ++ '-' :: inner.2)
      else none

/-- `L<level>:<tail>`. -/
def levelFilename (rest : List Char) : Option (List Char) :=
  (rest.dropInfix? [':']).bind fun parts =>
    if levelIsNumeric parts.1 ∧ parts.2 ≠ [] then
      some ("summary-".toList ++ parts.1 ++ '-' :: sanitizeFilename parts.2)
    else none

def summaryFilename (summaryId : String) : List Char :=
  let id := (summaryId.toList.dropSuffix? ".md".toList).getD summaryId.toList
  match (id.dropPrefix? "summary:".toList).bind fun rest => (datedFilename rest).or (levelFilename rest) with
  | some name => name
  | none => sanitizeFilename id

def scopeShortLabel (scope : String) : List Char :=
  match scope.toList.dropInfix? [':'] with
  | some (pre, participants) =>
      if pre = "gmail".toList ∧ participants ≠ [] then
        match participants.splitOn '|' with
        | [] => scope.toList
        | [only] => only
        | [first, second] => first ++ " \u2194 ".toList ++ second
        | first :: rest => first ++ " + ".toList ++ digits rest.length ++ " others".toList
      else scope.toList
  | none => scope.toList

section Summary

variable (chrono : Chrono) (r : SummaryComposeInput)

def formatDateRange (start stop : Int) : List Char :=
  if chrono.formatDate start = chrono.formatDate stop then chrono.formatDate start
  else chrono.formatDate start ++ '\u2013' :: chrono.formatDate stop

def buildSummaryAlias : List Char :=
  let dateRange := formatDateRange chrono r.timeRangeStart r.timeRangeEnd
  match r.treeKind with
  | .source =>
      'L' :: digits r.level ++ " \u00b7 ".toList ++ scopeShortLabel r.treeScope ++ " \u00b7 ".toList ++
        digits r.childCount ++ " children \u00b7 ".toList ++ dateRange
  | .global => 'L' :: digits r.level ++ " \u00b7 global digest \u00b7 ".toList ++ dateRange
  | .topic =>
      'L' :: digits r.level ++ " \u00b7 topic ".toList ++
        ((r.treeScope.toList.dropInfix? [':']).map Prod.snd).getD r.treeScope.toList ++ " \u00b7 ".toList ++
        digits r.childCount ++ " children".toList
  | .flavoured =>
      'L' :: digits r.level ++ " \u00b7 flavour ".toList ++ scopeShortLabel r.treeScope ++ " \u00b7 ".toList ++
        digits r.childCount ++ " children \u00b7 ".toList ++ dateRange

/-- The name that a child is linked by. -/
def childBasename (i : Nat) (id : String) : List Char :=
  match r.childBasenames.bind fun overrides => (overrides[i]?).bind fun slot => slot with
  | some b => b.toList
  | none => summaryFilename id

def wikilink (name : List Char) : List Char := '[' :: '[' :: name ++ [']', ']']

def childrenLines : List Line :=
  if r.childIds = [] then ["children: []".toList]
  else "children:".toList :: r.childIds.zipIdx.map fun child => item (wikilink (childBasename r child.2 child.1))

def provenance : List Line :=
  [field "openhuman_core_version" (yamlScalar openhumanCoreVersion.toList),
    field "memory_artifact_format" (digits memoryArtifactFormat)]

def summaryLines : List Line :=
  [field "id" (yamlScalar r.summaryId.toList), field "kind" "summary".toList,
    field "tree_kind" r.treeKind.asStr.toList, field "tree_id" (yamlScalar r.treeId.toList),
    field "tree_scope" (yamlScalar r.treeScope.toList), field "level" (digits r.level)] ++
  childrenLines r ++
  [field "child_count" (digits r.childCount),
    field "time_range_start" (chrono.toRfc3339 r.timeRangeStart),
    field "time_range_end" (chrono.toRfc3339 r.timeRangeEnd), field "sealed_at" (chrono.toRfc3339 r.sealedAt)] ++
  provenance ++ ["aliases:".toList, item (buildSummaryAlias chrono r)] ++
  if r.treeKind = .source then [tagsHead, item (sourceTag r.treeScope).toList] else [tagsEmpty]

def buildSummaryFrontMatter : List Char := fenced (summaryLines chrono r)

/-- The whole file, and the body that the hash is taken of. -/
def composeSummaryMd : List Char × List Char := (buildSummaryFrontMatter chrono r ++ r.body, r.body)

end Summary

def isProvenance (raw : Line) : Bool :=
  "openhuman_core_version: ".toList.isPrefixOf raw || "memory_artifact_format: ".toList.isPrefixOf raw

/-- The loop of `upsert_summary_provenance`: old lines are left out, and the current ones stand before the first
`aliases:`. -/
def upsertLoop : Bool → List Line → List Line
  | _, [] => []
  | inserted, raw :: rest =>
      if isProvenance raw then upsertLoop inserted rest
      else if ¬inserted ∧ raw = "aliases:".toList then provenance ++ raw :: upsertLoop true rest
      else raw :: upsertLoop inserted rest

/-- The lines from the last fence on, if there is one. -/
def fromFence (ls : List Line) : List Line := ls.drop (beforeFence ls).length

def upsertSummaryProvenance (frontMatter : List Char) : List Char :=
  let kept := upsertLoop false (lines frontMatter)
  let out :=
    if "aliases:".toList ∈ lines frontMatter then kept else beforeFence kept ++ provenance ++ fromFence kept
  List.intercalate ['\n'] out ++ ['\n']

def rewriteSummaryTags (content : List Char) (newTags : List String) : Except String (List Char) :=
  match rewriteTags content newTags with
  | .error e => .error e
  | .ok rewritten =>
      match splitFrontMatter rewritten with
      | some (frontMatter, body) => .ok (upsertSummaryProvenance frontMatter ++ body)
      | none => .error "cannot find front-matter delimiters"

end TinyCortex.Content
