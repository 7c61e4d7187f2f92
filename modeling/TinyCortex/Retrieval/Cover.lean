import TinyCortex.Chunks.List
import TinyCortex.Lib.Newest
import TinyCortex.Retrieval.Types

/-! `cover_window` (`retrieval/cover.rs`): the chunks of a window are scanned page by page and grouped by
tree scope; for each scope the topmost summaries that fit into the window stand in for the chunks under
them, and the other chunks are emitted raw. The source-scope allowlist of `cover_window_scoped` is left
out. -/

namespace TinyCortex.Retrieval

open Chunks SummaryTree Table

/-- The limits that a cover reads, and their part of the policy validation. -/
structure RetrievalLimits where
  coverDefaultLimit : Nat
  windowChunkPageSize : Nat
  deriving DecidableEq, Repr

def RetrievalLimits.Valid (limits : RetrievalLimits) : Prop :=
  0 < limits.coverDefaultLimit ∧ 0 < limits.windowChunkPageSize

/-- The arguments of a cover. -/
structure Window where
  sinceMs : Int
  untilMs : Int
  sourceId : Option String
  sourceKind : Option SourceKind
  deriving DecidableEq, Repr

/-- The tree scope a chunk seals under. -/
def chunkTreeScope (chunk : Chunk) : String := chunk.pathScope.getD chunk.sourceId

/-- Live summaries of a tree with their whole envelope in the window, the lowest first. -/
def listSummariesInWindow (db : Db) (treeId : String) (sinceMs untilMs : Int) : List SummaryNode :=
  (db.summaries.filter fun s => s.treeId == treeId && !s.deleted &&
      decide (sinceMs ≤ s.timeRangeStartMs) && decide (s.timeRangeEndMs ≤ untilMs)).mergeSort
    fun a b => decide (a.level < b.level) ||
      (a.level == b.level && decide (a.timeRangeStartMs ≤ b.timeRangeStartMs))

/-- The ids without a row among `rows` that a subtree ends in. Levels fall on the way down, so the level of
a node bounds the depth of its subtree. -/
def collectDescendantChunks (rows : List SummaryNode) : Nat → SummaryNode → List String
  | 0, _ => []
  | fuel + 1, node => node.childIds.flatMap fun child =>
      match lookup SummaryNode.id child rows with
      | some summary => collectDescendantChunks rows fuel summary
      | none => [child]

/-- The summaries below a node and the chunks they end in. -/
def collectSubtreeIds (rows : List SummaryNode) : Nat → SummaryNode → List String × List String
  | 0, _ => ([], [])
  | fuel + 1, node =>
      (node.childIds.flatMap fun child =>
        match lookup SummaryNode.id child rows with
        | some summary => child :: (collectSubtreeIds rows fuel summary).1
        | none => [],
      node.childIds.flatMap fun child =>
        match lookup SummaryNode.id child rows with
        | some summary => (collectSubtreeIds rows fuel summary).2
        | none => [child])

/-- The newest version of each document among the rows. -/
def newestVersions (rows : List SummaryNode) : String → Option Int :=
  rows.foldl (fun newest s => match s.docId with
    | none => newest
    | some docId => raiseTo newest docId (version s)) fun _ => none

/-- The rows that lose: outdated ones, and all but the first of a document's newest version. -/
def losers (newest : String → Option Int) : List SummaryNode → List String → List SummaryNode
  | [], _ => []
  | s :: rows, winnersSeen =>
      match s.docId with
      | none => losers newest rows winnersSeen
      | some docId =>
          if version s < (newest docId).getD I64.minValue ∨ docId ∈ winnersSeen then
            s :: losers newest rows winnersSeen
          else losers newest rows (docId :: winnersSeen)

/-- The rows without the losers' subtrees, and the chunks under the losers. -/
def filterSupersededDocVersions (eligible : List SummaryNode) : List SummaryNode × List String :=
  if eligible.all fun s => s.docId.isNone then (eligible, [])
  else
    let lost := losers (newestVersions eligible) eligible []
    let removed := lost.flatMap fun s => s.id :: (collectSubtreeIds eligible (s.level + 1) s).1
    (eligible.filter fun s => s.id ∉ removed,
      lost.flatMap fun s => (collectSubtreeIds eligible (s.level + 1) s).2)

structure CoverPlan where
  maximalIds : List String
  coveredChunkIds : List String
  deriving DecidableEq, Repr

/-- The parent of the row is not among the rows. -/
def isMaximal (rows : List SummaryNode) (node : SummaryNode) : Bool :=
  match node.parentId with
  | some parent => decide (parent ∉ rows.map SummaryNode.id)
  | none => true

/-- The topmost rows; with a restriction, only those all of whose chunks are present. -/
def maximalRows (rows : List SummaryNode) (restrictToPresent : Option (List String)) :
    List SummaryNode :=
  rows.filter fun node => isMaximal rows node &&
    (restrictToPresent.map fun present =>
      (collectDescendantChunks rows (node.level + 1) node).all (· ∈ present)).getD true

/-- The topmost rows and the chunks under them. -/
def planCover (rows : List SummaryNode) (restrictToPresent : Option (List String)) : CoverPlan :=
  let maximal := maximalRows rows restrictToPresent
  ⟨maximal.map SummaryNode.id,
    maximal.flatMap fun node => collectDescendantChunks rows (node.level + 1) node⟩

def coverOneSource (db : Db) (window : Window) (source : String) (chunks : List Chunk)
    (exactSource : Bool) : List RetrievalHit :=
  let tree := getTreeByScope db .source source
  let treeId := (tree.map Tree.id).getD ""
  let eligible := (tree.map fun t =>
    listSummariesInWindow db t.id window.sinceMs window.untilMs).getD []
  let filtered := filterSupersededDocVersions eligible
  let plan := planCover filtered.1 (if exactSource then some (chunks.map Chunk.id) else none)
  let summaryHits := plan.maximalIds.filterMap fun id =>
    (lookup SummaryNode.id id filtered.1).map fun node => hitFromSummary node source
  let rawHits := (chunks.filter fun chunk =>
    chunk.id ∉ plan.coveredChunkIds && chunk.id ∉ filtered.2).map fun chunk =>
      hitFromChunk chunk treeId source
  summaryHits ++ rawHits

/-- The listing that a window scan pages through. -/
def Window.query (window : Window) : ListChunksQuery :=
  ⟨window.sourceKind, window.sourceId, some window.sinceMs, some window.untilMs, none, none, true⟩

/-- The order in which the sources are taken does not matter: the hits are sorted afterwards. -/
def collectCover (limits : RetrievalLimits) (db : Db) (window : Window) : List RetrievalHit :=
  let chunks := scanPages window.query limits.windowChunkPageSize db.chunks (db.chunks.length + 1) []
  (chunks.map chunkTreeScope).dedup.flatMap fun source =>
    coverOneSource db window source (chunks.filter fun chunk => chunkTreeScope chunk == source)
      window.sourceId.isSome

/-- By source, then by start. -/
def bySource (a b : RetrievalHit) : Bool :=
  decide (a.treeScope < b.treeScope) ||
    (a.treeScope == b.treeScope && decide (a.timeRangeStartMs ≤ b.timeRangeStartMs))

/-- The cover before the final limit. -/
def coverHits (limits : RetrievalLimits) (db : Db) (window : Window) : List RetrievalHit :=
  (collectCover limits db window).mergeSort bySource

/-- `cover_window: until_ms ({until_ms}) precedes since_ms ({since_ms})` -/
inductive CoverError
  | untilPrecedesSince (untilMs sinceMs : Int)
  deriving DecidableEq, Repr

def coverWindow (limits : RetrievalLimits) (db : Db) (window : Window) (limit : Nat) :
    Except CoverError QueryResponse :=
  if window.untilMs < window.sinceMs then
    .error (.untilPrecedesSince window.untilMs window.sinceMs)
  else
    let hits := coverHits limits db window
    .ok (.new (hits.take (if limit = 0 then limits.coverDefaultLimit else limit)) hits.length)

end TinyCortex.Retrieval
