import TinyCortex.Chunks.Delete
import TinyCortex.Graph.EdgeStore
import TinyCortex.Lib.Machine

/-! The entity index and its writers (`score/store.rs`, `score/mod.rs`), with the edges they write and what chunk
deletion takes from the two tables. The score and user columns, which nothing here reads, are left out. -/

namespace TinyCortex.Score

open Chunks TinyCortex.Graph Table

/-- One row in `mem_tree_entity_index`. -/
structure IndexRow where
  entityId : String
  nodeId : String
  nodeKind : String
  entityKind : String
  surface : String
  timestampMs : Int
  treeId : Option String
  deriving DecidableEq, Repr

/-- The primary key. -/
def IndexRow.key (row : IndexRow) : String × String := (row.entityId, row.nodeId)

structure CanonicalEntity where
  canonicalId : String
  kind : String
  surface : String
  deriving DecidableEq, Repr

/-- The two tables. -/
structure Store where
  index : List IndexRow
  edges : List EdgeRow
  deriving DecidableEq, Repr

/-- `INSERT OR REPLACE`, row by row. -/
def upsertRows (rows index : List IndexRow) : List IndexRow :=
  rows.foldl (fun index row => upsert IndexRow.key row index) index

/-- `index_entities` and `index_entities_tx`. -/
def indexEntities (entities : List CanonicalEntity) (nodeId nodeKind : String) (timestampMs : Int)
    (treeId : Option String) (store : Store) : Store × Nat :=
  if entities = [] then (store, 0)
  else
    let rows := entities.map fun e => ⟨e.canonicalId, nodeId, nodeKind, e.kind, e.surface, timestampMs, treeId⟩
    (⟨upsertRows rows store.index,
      upsertEdges (pairsFromEntities (entities.map CanonicalEntity.canonicalId)) timestampMs store.edges⟩,
      entities.length)

/-- The text before the first colon, or the whole identifier. -/
def kindPrefix (canonicalId : String) : String := String.ofList (canonicalId.toList.takeWhile (· ≠ ':'))

def indexSummaryEntityIds (entityIds : List String) (nodeId : String) (timestampMs : Int)
    (treeId : Option String) (store : Store) : Store × Nat :=
  if entityIds = [] then (store, 0)
  else
    let rows := entityIds.map fun id => ⟨id, nodeId, "summary", kindPrefix id, id, timestampMs, treeId⟩
    (⟨upsertRows rows store.index, upsertEdges (pairsFromEntities entityIds) timestampMs store.edges⟩,
      entityIds.length)

def clearEntityIndexForNode (nodeId : String) (store : Store) : Store × Nat :=
  ({ store with index := store.index.filter fun row => row.nodeId ≠ nodeId },
    (store.index.filter fun row => row.nodeId = nodeId).length)

/-- What scoring a chunk gave. -/
structure ScoreResult where
  chunkId : String
  kept : Bool
  canonicalEntities : List CanonicalEntity
  deriving DecidableEq, Repr

/-- The index part of `persist_score_tx`: clear the node, then index a kept chunk again. -/
def persistScore (result : ScoreResult) (timestampMs : Int) (treeId : Option String) (store : Store) : Store :=
  let cleared := (clearEntityIndexForNode result.chunkId store).1
  if result.kept && !result.canonicalEntities.isEmpty then
    (indexEntities result.canonicalEntities result.chunkId "leaf" timestampMs treeId cleared).1
  else cleared

/-- A deletion takes the rows of the chunks that it selects and of the trees that go with them. -/
def dropsRow (request : DeleteRequest) (tier : Chunks.Store) (row : IndexRow) : Bool :=
  (tier.db.chunks.any fun chunk => request.selects tier chunk && chunk.id == row.nodeId) ||
    (row.treeId.any fun treeId => tier.db.trees.any (fun tree => tree.id == treeId) &&
      !((request.run tier).db.trees.any fun tree => tree.id == treeId))

/-- The part of a deletion on the chunk tier that touches the two tables; a purge empties both. -/
def deleteChunks (request : DeleteRequest) (tier : Chunks.Store) (store : Store) : Store :=
  match request with
  | .purge => ⟨[], []⟩
  | request => { store with index := store.index.filter fun row => !dropsRow request tier row }

/-- One call; a deletion finds some state of the chunk tier. -/
inductive Call
  | indexEntities (entities : List CanonicalEntity) (nodeId nodeKind : String) (timestampMs : Int)
      (treeId : Option String)
  | indexSummaryEntityIds (entityIds : List String) (nodeId : String) (timestampMs : Int) (treeId : Option String)
  | clearEntityIndexForNode (nodeId : String)
  | persistScore (result : ScoreResult) (timestampMs : Int) (treeId : Option String)
  | deleteChunks (request : DeleteRequest) (tier : Chunks.Store)

def Store.call (store : Store) : Call → Store
  | .indexEntities entities nodeId nodeKind ts treeId =>
      (Score.indexEntities entities nodeId nodeKind ts treeId store).1
  | .indexSummaryEntityIds entityIds nodeId ts treeId =>
      (Score.indexSummaryEntityIds entityIds nodeId ts treeId store).1
  | .clearEntityIndexForNode nodeId => (Score.clearEntityIndexForNode nodeId store).1
  | .persistScore result ts treeId => Score.persistScore result ts treeId store
  | .deleteChunks request tier => Score.deleteChunks request tier store

def calls : Machine Store Call := ⟨⟨[], []⟩, Store.call⟩

/-! ### The self-join -/

def nodesForEntity (index : List IndexRow) (entityId : String) : List String :=
  (index.filter fun row => row.entityId = entityId).map IndexRow.nodeId

def entitiesOnNode (index : List IndexRow) (nodeId : String) : List String :=
  (index.filter fun row => row.nodeId = nodeId).map IndexRow.entityId

/-- The weight of one object in the join: `COUNT(DISTINCT a.node_id)` over the nodes of the subject on which the
object stands too. -/
def coOccurrence (index : List IndexRow) (subject object : String) : Nat :=
  (((nodesForEntity index subject).filter fun nodeId => object ∈ entitiesOnNode index nodeId).dedup).length

theorem mem_nodesForEntity {index : List IndexRow} {a n : String} :
    n ∈ nodesForEntity index a ↔ ∃ row ∈ index, row.key = (a, n) := by
  simp only [nodesForEntity, List.mem_map, List.mem_filter, decide_eq_true_eq, IndexRow.key, Prod.mk.injEq]
  constructor
  · rintro ⟨row, ⟨hrow, ha⟩, hn⟩
    exact ⟨row, hrow, ha, hn⟩
  · rintro ⟨row, hrow, ha, hn⟩
    exact ⟨row, ⟨hrow, ha⟩, hn⟩

theorem mem_entitiesOnNode {index : List IndexRow} {a n : String} :
    a ∈ entitiesOnNode index n ↔ n ∈ nodesForEntity index a := by
  rw [mem_nodesForEntity]
  simp only [entitiesOnNode, List.mem_map, List.mem_filter, decide_eq_true_eq, IndexRow.key, Prod.mk.injEq]
  constructor
  · rintro ⟨row, ⟨hrow, hn⟩, ha⟩
    exact ⟨row, hrow, ha, hn⟩
  · rintro ⟨row, hrow, ha, hn⟩
    exact ⟨row, ⟨hrow, hn⟩, ha⟩

theorem mem_keys_upsertRows {rows index : List IndexRow} {k : String × String} :
    k ∈ (upsertRows rows index).map IndexRow.key ↔ k ∈ rows.map IndexRow.key ∨ k ∈ index.map IndexRow.key := by
  induction rows generalizing index with
  | nil => simp [upsertRows]
  | cons row rows ih =>
      have hstep : upsertRows (row :: rows) index = upsertRows rows (upsert IndexRow.key row index) := rfl
      rw [hstep, ih, mem_keys_upsert, List.map_cons, List.mem_cons]
      tauto

end TinyCortex.Score

/-! Look-ups in the entity index (`score/store_query.rs`). Rows of one timestamp come in the order of the table. -/

namespace TinyCortex.Score

/-- The texts of `EntityKind`. -/
def entityKinds : List String :=
  ["email", "url", "handle", "hashtag", "person", "organization", "location", "event", "product", "datetime",
    "technology", "artifact", "quantity", "misc", "topic"]

/-- The `WHERE` clause of a look-up. -/
def IndexRow.matches (entityId : String) (sinceMs untilMs : Option Int) (row : IndexRow) : Bool :=
  row.entityId == entityId && sinceMs.all (fun start => decide (start ≤ row.timestampMs)) &&
    untilMs.all fun stop => decide (row.timestampMs ≤ stop)

/-- `ORDER BY timestamp_ms DESC`. -/
def newestFirst (rows : List IndexRow) : List IndexRow :=
  rows.insertionSort fun a b => b.timestampMs ≤ a.timestampMs

/-- A look-up fails on the first row whose kind is not known. -/
def parseKinds (rows : List IndexRow) : Except String (List IndexRow) :=
  match rows.find? fun row => decide (row.entityKind ∉ entityKinds) with
  | some row => .error ("unknown entity kind: " ++ row.entityKind)
  | none => .ok rows

def lookupEntityInWindow (index : List IndexRow) (entityId : String) (sinceMs untilMs : Option Int)
    (limit : Option Nat) : Except String (List IndexRow) :=
  parseKinds ((newestFirst (index.filter (IndexRow.matches entityId sinceMs untilMs))).take
    (min (limit.getD 100) (2 ^ 63 - 1)))

def lookupEntity (index : List IndexRow) (entityId : String) (limit : Option Nat) : Except String (List IndexRow) :=
  lookupEntityInWindow index entityId none none limit

end TinyCortex.Score
