import TinyCortex.Graph.Bfs
import TinyCortex.Lib.Text
import TinyCortex.Retrieval.Policy
import TinyCortex.Retrieval.SourceQuery
import TinyCortex.Score.EntityIndex
import TinyCortex.Tree.Embeddings

/-! Graph-routed retrieval (`retrieval/fast.rs`), with `query_source` (`retrieval/source.rs`) and the leaf fetch
(`retrieval/fetch.rs`) that it calls. Scores of hits and the caches of neighbours and scopes are left out. -/

namespace TinyCortex.Retrieval

open Chunks Fallible TinyCortex.Graph Score SummaryTree Table

/-- The tables that retrieval reads. An id is the primary key of its table. -/
structure Tables where
  db : Db
  index : List IndexRow
  edges : List EdgeRow
  /-- The chunks whose last admission result is dropped (`mem_tree_score`). -/
  droppedChunkIds : List String
  /-- The entities column of a summary. -/
  entities : String → List String
  summaryIds : (db.summaries.map SummaryNode.id).Nodup

def usizeMax : Nat := 2 ^ 64 - 1

def dayMs : Int := 86400000

/-! ### Source scopes -/

/-- The text behind the collection prefix. -/
def stripMemSrc (value : String) : Option (List Char) :=
  if (value.toList.take 8).map Char.toLower = "mem_src:".toList then some (value.toList.drop 8) else none

def extractMemSrcId (value : String) : Option String :=
  match stripMemSrc value with
  | none => none
  | some rest =>
      let id := rest.takeWhile (· ≠ ':')
      if ':' ∈ rest ∧ id ≠ [] then some (String.ofList id) else none

def memSrcScopeSelectsId (value expectedId : String) : Bool :=
  match stripMemSrc value with
  | none => false
  | some rest =>
      let id := rest.takeWhile (· ≠ ':')
      decide (id ≠ []) && String.ofList id == expectedId

def sourceScopeAllows (scope : List String) (treeScope : String) : Bool :=
  scope.contains treeScope ||
    match extractMemSrcId treeScope with
    | none => false
    | some id => scope.contains id || scope.any fun allowed => memSrcScopeSelectsId allowed id

/-! ### `query_source` -/

section Query

variable {ρ σ : Type*} (toLowercase : String → String) (embedder : Embedder ρ σ)

def orderHits (scored : List (RetrievalHit × Option (List ρ))) (query : Option String) : List RetrievalHit :=
  match query with
  | some query => rerankBySemanticSimilarity embedder query scored
  | none => (scored.map Prod.fst).mergeSort fun a b => b.timeRangeEndMs ≤ a.timeRangeEndMs

/-- The clock of a call and the earliest time that it can go back to. -/
structure Clock where
  nowMs : Int
  earliestMs : Int
  deriving DecidableEq, Repr

def Clock.window (clock : Clock) (days : Nat) : Int × Int := (clock.nowMs - days * dayMs, clock.nowMs)

def Clock.checkedWindow (clock : Clock) : Option Nat → Except String (Option (Int × Int))
  | none => .ok none
  | some days =>
      if (clock.window days).1 < clock.earliestMs then
        .error "retrieval time window exceeds supported timestamp range"
      else .ok (some (clock.window days))

def querySource (policy : RetrievalPolicy) (db : Db) (clock : Clock) (sourceId : Option String)
    (sourceKind : Option SourceKind) (timeWindowDays : Option Nat) (query : Option String) (limit : Nat) :
    Except String QueryResponse := do
  let limit := if limit = usizeMax then usizeMax
    else if limit = 0 then policy.defaultLimit else min limit policy.maxLimit
  let window ← clock.checkedWindow timeWindowDays
  let scored := (collectSourceHits toLowercase db sourceId sourceKind window).map fun hit =>
    (hit, embedder.stored hit.nodeId)
  .ok (QueryResponse.new ((orderHits embedder scored query).take limit) scored.length)

/-! ### The dense and the occurrence route -/

def dense (policy : RetrievalPolicy) (tables : Tables) (clock : Clock) (query : String)
    (sourceScope : Option (List String)) (limit : Nat) (window : Option Nat) : Except String QueryResponse := do
  let response ← querySource toLowercase embedder policy tables.db clock none none window (some query) usizeMax
  let hits := response.hits.filter fun hit => sourceScope.all fun scope => sourceScopeAllows scope hit.treeScope
  .ok (QueryResponse.new (hits.take limit) hits.length)

def globalOccurrence (policy : RetrievalPolicy) (tables : Tables) (clock : Clock) (query : String)
    (entityIds : List String) (sourceScope : Option (List String)) (limit : Nat) (window : Option Nat) :
    Except String QueryResponse := do
  let response ← dense toLowercase embedder policy tables clock query sourceScope (min (limit * 2) usizeMax) window
  let matching := fun hit : RetrievalHit => (tables.entities hit.nodeId).countP entityIds.contains
  let hits := response.hits.mergeSort fun a b => matching b ≤ matching a
  .ok (QueryResponse.new (hits.take limit) response.total)

end Query

/-! ### The graph route -/

structure Candidate where
  nodeKind : String
  matched : List String
  latestTs : Int
  deriving DecidableEq, Repr

/-- Candidates by node id. -/
abbrev Candidates := List (String × Candidate)

/-- An occurrence of both entities of a pair on one node. -/
def addOccurrence (pair : PairDistance) (rightTs : Int) (hit : IndexRow) (output : Candidates) : Candidates :=
  let candidate := ((lookup Prod.fst hit.nodeId output).map Prod.snd).getD ⟨hit.nodeKind, [], 0⟩
  upsert Prod.fst (hit.nodeId,
    { candidate with
      matched := (candidate.matched.insert pair.a).insert pair.b
      latestTs := max (max candidate.latestTs hit.timestampMs) rightTs }) output

def localCandidates (policy : RetrievalPolicy) (tables : Tables) (pairs : List PairDistance) :
    Except String Candidates :=
  pairs.foldlM (fun output pair => do
    let left ← lookupEntity tables.index pair.a (some policy.occurrenceLookupLimit)
    let right ← lookupEntity tables.index pair.b (some policy.occurrenceLookupLimit)
    -- of several rows for one node the last one stays in the map
    .ok (left.foldl (fun output hit =>
      match lookup IndexRow.nodeId hit.nodeId right.reverse with
      | none => output
      | some row => addOccurrence pair row.timestampMs hit output) output)) []

/-- The loop of fewer and fewer hops: the candidates it ends with and the last ones that were not empty. -/
def narrow (candidatesAt : Nat → Except String Candidates) (limit : Nat) :
    Nat → Candidates → Candidates → Except String (Candidates × Candidates)
  | hops + 2, candidates, lastNonEmpty =>
      if limit < candidates.length then do
        let next ← candidatesAt (hops + 1)
        if next = [] then .ok (candidates, lastNonEmpty) else narrow candidatesAt limit (hops + 1) next next
      else .ok (candidates, lastNonEmpty)
  | _, candidates, lastNonEmpty => .ok (candidates, lastNonEmpty)

/-- The candidates that the graph gives, if it gives any. -/
def graphRoute (policy : RetrievalPolicy) (tables : Tables) (entityIds : List String) (limit maxHops : Nat) :
    Except String (Option Candidates) := do
  let pairs := pairDistances tables.edges entityIds maxHops
  if pairs = [] then .ok none
  else
    let first ← localCandidates policy tables pairs
    let (candidates, lastNonEmpty) ← narrow
      (fun hops => localCandidates policy tables (pairDistances tables.edges entityIds hops)) limit maxHops first first
    let candidates := if candidates = [] then lastNonEmpty else candidates
    .ok (if candidates = [] then none else some candidates)

/-- More of the query's entities first, then the newer ones, then by id. -/
def before (a b : String × Candidate) : Bool :=
  decide (b.2.matched.length < a.2.matched.length) ||
    (a.2.matched.length == b.2.matched.length &&
      (decide (b.2.latestTs < a.2.latestTs) || (a.2.latestTs == b.2.latestTs && decide (a.1 < b.1))))

/-- The sort of the candidates. -/
def rank (candidates : Candidates) : Candidates := candidates.insertionSort fun a b => before b a = false

def fetchLeaves (policy : RetrievalPolicy) (db : Db) (chunkIds : List String) : List RetrievalHit :=
  let ids := if policy.fetchBatchLimit < chunkIds.length then chunkIds.take policy.fetchBatchLimit else chunkIds
  ids.filterMap fun id => (db.getChunk id).map fun chunk => hitFromChunk chunk "" chunk.sourceId

def summaryHits (db : Db) (ids : List String) : List RetrievalHit :=
  ids.filterMap fun id => (db.getSummary id).map fun node =>
    hitFromSummary node ((db.getTree node.treeId).elim "" Tree.scope)

def resolveLocal (policy : RetrievalPolicy) (tables : Tables) (candidates : Candidates)
    (sourceScope : Option (List String)) (limit : Nat) : Except String QueryResponse :=
  if policy.fetchBatchLimit = 0 then .error "chunk size must be non-zero"
  else
    let ordered := rank candidates
    let leafIds := (ordered.filter fun entry => entry.2.nodeKind == "leaf").map Prod.fst
    let summaryIds := (ordered.filter fun entry => entry.2.nodeKind != "leaf").map Prod.fst
    let byId := (chunksOf policy.fetchBatchLimit leafIds).flatMap (fetchLeaves policy tables.db) ++
      summaryHits tables.db summaryIds
    let hits := (ordered.filterMap fun entry => lookup RetrievalHit.nodeId entry.1 byId).filter fun hit =>
      sourceScope.all fun scope => sourceScopeAllows scope hit.treeScope
    .ok (QueryResponse.new (hits.take limit) hits.length)

/-! ### `fast_retrieve` -/

structure FastRetrieveOptions where
  limit : Nat
  maxHops : Nat
  timeWindowDays : Option Nat
  deriving DecidableEq, Repr

def FastRetrieveOptions.default : FastRetrieveOptions := ⟨10, 2, none⟩

def FastRetrieveOptions.cappedLimit (options : FastRetrieveOptions) (policy : RetrievalPolicy) : Nat :=
  if options.limit = 0 then policy.defaultLimit else min options.limit policy.maxLimit

def FastRetrieveOptions.cappedHops (options : FastRetrieveOptions) (policy : RetrievalPolicy) : Nat :=
  if options.maxHops = 0 then policy.defaultGraphHops else min options.maxHops policy.maxGraphHops

/-- The distinct ids, each at its first place. -/
def dedupIds (ids : List String) : List String := ids.reverse.dedup.reverse

def fastRetrieve {ρ σ : Type*} (toLowercase : String → String) (embedder : Embedder ρ σ) (policy : RetrievalPolicy)
    (tables : Tables) (clock : Clock) (query : String) (queryEntityIds : List String)
    (sourceScope : Option (List String)) (options : FastRetrieveOptions) : Except String QueryResponse := do
  let limit := options.cappedLimit policy
  let maxHops := options.cappedHops policy
  let query := Text.trim query
  if query = "" then .ok (QueryResponse.new [] 0)
  else
    let entityIds := dedupIds queryEntityIds
    if entityIds = [] then
      dense toLowercase embedder policy tables clock query sourceScope limit options.timeWindowDays
    else
      match ← graphRoute policy tables entityIds limit maxHops with
      | none =>
          globalOccurrence toLowercase embedder policy tables clock query entityIds sourceScope limit
            options.timeWindowDays
      | some candidates => resolveLocal policy tables candidates sourceScope limit

end TinyCortex.Retrieval
