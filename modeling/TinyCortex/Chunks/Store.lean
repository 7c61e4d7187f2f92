import TinyCortex.Chunks.Types
import TinyCortex.Lib.Table

/-! The chunk store as ingest uses it (`chunks/store.rs`, `chunks/store_sources.rs`): the staged upsert,
the lifecycle column and the source gate. Every function runs inside its caller's transaction. -/

namespace TinyCortex.Chunks

open Table

/-- What a statement on the chunk store can abort with. -/
inductive ChunkError
  /-- `set_chunk_lifecycle_status: no chunk row for id=…` -/
  | noChunkRow (chunkId : String)
  deriving DecidableEq, Repr

/-- One row in `mem_tree_ingested_sources`, whose primary key is the kind and the source id. -/
structure IngestedSource where
  sourceKind : SourceKind
  sourceId : String
  ingestedAtMs : Int
  deriving DecidableEq, Repr

def IngestedSource.key (row : IngestedSource) : SourceKind × String := (row.sourceKind, row.sourceId)

def getChunkLifecycleStatus (chunkId : String) (chunks : List Chunk) : Option ChunkStatus :=
  (lookup Chunk.id chunkId chunks).map Chunk.lifecycleStatus

def Chunk.withStatus (status : ChunkStatus) (row : Chunk) : Chunk :=
  { row with lifecycleStatus := status }

@[simp] theorem Chunk.withStatus_id (status : ChunkStatus) (row : Chunk) :
    (row.withStatus status).id = row.id := rfl

@[simp] theorem Chunk.withStatus_status (status : ChunkStatus) (row : Chunk) :
    (row.withStatus status).lifecycleStatus = status := rfl

def setChunkLifecycleStatus (chunkId : String) (status : ChunkStatus) (chunks : List Chunk) :
    Except ChunkError (List Chunk) :=
  if chunkId ∈ chunks.map Chunk.id then
    .ok (update (·.id == chunkId) (·.withStatus status) chunks)
  else .error (.noChunkRow chunkId)

/-- `INSERT … ON CONFLICT(id) DO UPDATE SET …`: the statement names every column but the lifecycle, so
an old row keeps its lifecycle and a new one gets the column's default, `'admitted'`. -/
def upsertStagedChunk (chunks : List Chunk) (staged : Chunk) : List Chunk :=
  upsert Chunk.id (staged.withStatus ((getChunkLifecycleStatus staged.id chunks).getD .admitted)) chunks

/-- Upsert the staged chunks; the rows and how many were staged. -/
def upsertStagedChunks (staged chunks : List Chunk) : List Chunk × Nat :=
  (staged.foldl upsertStagedChunk chunks, staged.length)

/-- Claim `(source_kind, source_id)` for ingestion; whether the row was newly inserted. -/
def claimSourceIngest (sourceKind : SourceKind) (sourceId : String) (nowMs : Int)
    (ingested : List IngestedSource) : List IngestedSource × Bool :=
  (insertOrIgnore IngestedSource.key ⟨sourceKind, sourceId, nowMs⟩ ingested,
    decide ((sourceKind, sourceId) ∉ ingested.map IngestedSource.key))

def isSourceIngested (sourceKind : SourceKind) (sourceId : String)
    (ingested : List IngestedSource) : Bool :=
  decide ((sourceKind, sourceId) ∈ ingested.map IngestedSource.key)

section Lifecycle

variable {chunkId id : String} {status : ChunkStatus} {chunks next : List Chunk}

theorem getChunkLifecycleStatus_eq_none_iff :
    getChunkLifecycleStatus id chunks = none ↔ id ∉ chunks.map Chunk.id := by
  rw [getChunkLifecycleStatus, Option.map_eq_none_iff, lookup_eq_none_iff]

/-- A transition touches the lifecycle of its own chunk only. -/
theorem getChunkLifecycleStatus_set (h : setChunkLifecycleStatus chunkId status chunks = .ok next) :
    getChunkLifecycleStatus id next =
      if id = chunkId then some status else getChunkLifecycleStatus id chunks := by
  unfold setChunkLifecycleStatus at h
  split_ifs at h with hmem
  obtain rfl := Except.ok.inj h
  obtain ⟨row, hrow⟩ := Option.isSome_iff_exists.mp (lookup_isSome_iff.mpr hmem)
  rw [getChunkLifecycleStatus, lookup_update (Chunk.withStatus_id status)]
  split_ifs with hid
  · rw [hid, hrow]
    simp [(lookup_mem hrow).2]
  · rw [getChunkLifecycleStatus, Option.map_map]
    refine Option.map_congr fun row hrow => ?_
    simp [(lookup_mem hrow).2, hid]

theorem setChunkLifecycleStatus_of_mem (h : chunkId ∈ chunks.map Chunk.id)
    (status : ChunkStatus) : ∃ next, setChunkLifecycleStatus chunkId status chunks = .ok next ∧
      next.map Chunk.id = chunks.map Chunk.id :=
  ⟨_, if_pos h, map_update (Chunk.withStatus_id status) _⟩

/-- Staging a chunk admits it when it is new and leaves every lifecycle alone otherwise. -/
theorem getChunkLifecycleStatus_upsert (staged : Chunk) :
    getChunkLifecycleStatus id (upsertStagedChunk chunks staged) =
      if id = staged.id then some ((getChunkLifecycleStatus id chunks).getD .admitted)
      else getChunkLifecycleStatus id chunks := by
  let row := staged.withStatus ((getChunkLifecycleStatus staged.id chunks).getD .admitted)
  change (lookup Chunk.id id (upsert Chunk.id row chunks)).map Chunk.lifecycleStatus = _
  have hrow : row.id = staged.id := rfl
  split_ifs with hid
  · rw [hid, ← hrow, lookup_upsert_self]
    rfl
  · have hne : row.id ≠ id := hrow ▸ Ne.symm hid
    rw [lookup_upsert_of_ne hne, getChunkLifecycleStatus]

theorem getChunkLifecycleStatus_upsertAll (staged : List Chunk) :
    getChunkLifecycleStatus id (upsertStagedChunks staged chunks).1 =
      if id ∈ staged.map Chunk.id then some ((getChunkLifecycleStatus id chunks).getD .admitted)
      else getChunkLifecycleStatus id chunks := by
  rw [upsertStagedChunks]
  induction staged generalizing chunks with
  | nil => rfl
  | cons head staged ih =>
      rw [List.foldl_cons, ih, getChunkLifecycleStatus_upsert, List.map_cons]
      by_cases hhead : id = head.id
      · simp [hhead]
      · simp [hhead]

end Lifecycle

section Rows

variable {staged chunks : List Chunk} {chunk : Chunk} {id : String}

/-- The row of a staged chunk, with the lifecycle that the store has for it. -/
def Chunk.StagedAs (row staged : Chunk) : Prop := ∃ status, row = staged.withStatus status

theorem Chunk.StagedAs.id_eq {row : Chunk} (h : row.StagedAs chunk) : row.id = chunk.id := by
  obtain ⟨status, rfl⟩ := h
  rfl

/-- A row is an old one or staged. -/
theorem mem_upsertStagedChunks (h : chunk ∈ (upsertStagedChunks staged chunks).1) :
    chunk ∈ chunks ∨ ∃ row ∈ staged, chunk.StagedAs row := by
  rw [upsertStagedChunks] at h
  induction staged generalizing chunks with
  | nil => exact Or.inl h
  | cons head staged ih =>
      rw [List.foldl_cons] at h
      rcases ih h with hmem | ⟨row, hrow, hstaged⟩
      · rcases mem_upsert hmem with rfl | hold
        · exact Or.inr ⟨head, List.mem_cons_self, _, rfl⟩
        · exact Or.inl hold
      · exact Or.inr ⟨row, List.mem_cons_of_mem _ hrow, hstaged⟩

theorem mem_ids_upsertStagedChunks :
    id ∈ (upsertStagedChunks staged chunks).1.map Chunk.id ↔
      id ∈ staged.map Chunk.id ∨ id ∈ chunks.map Chunk.id := by
  rw [upsertStagedChunks]
  induction staged generalizing chunks with
  | nil => simp
  | cons head staged ih =>
      rw [List.foldl_cons, ih, upsertStagedChunk, mem_keys_upsert, Chunk.withStatus_id, List.map_cons,
        List.mem_cons]
      exact or_left_comm.trans or_assoc.symm

theorem lookup_upsertStagedChunk_self (chunks : List Chunk) (staged : Chunk) :
    ∃ found, lookup Chunk.id staged.id (upsertStagedChunk chunks staged) = some found ∧
      found.StagedAs staged := by
  let status := (getChunkLifecycleStatus staged.id chunks).getD .admitted
  have hself : lookup Chunk.id staged.id (upsertStagedChunk chunks staged) =
      some (staged.withStatus status) := lookup_upsert_self (staged.withStatus status) chunks
  exact ⟨staged.withStatus status, hself, status, rfl⟩

theorem lookup_upsertStagedChunk_of_ne {staged : Chunk} (hne : staged.id ≠ id) (chunks : List Chunk) :
    lookup Chunk.id id (upsertStagedChunk chunks staged) = lookup Chunk.id id chunks := by
  apply lookup_upsert_of_ne
  rw [Chunk.withStatus_id]
  exact hne

/-- A staged id has the row that was staged last under it. -/
theorem lookup_upsertStagedChunks (chunks : List Chunk) {row : Chunk} (h : lookup Chunk.id id staged.reverse = some row) :
    ∃ found, lookup Chunk.id id (upsertStagedChunks staged chunks).1 = some found ∧
      found.StagedAs row := by
  rw [upsertStagedChunks]
  induction staged using List.reverseRecOn with
  | nil => cases h
  | append_singleton staged last ih =>
      rw [List.reverse_append, List.reverse_singleton, List.singleton_append, lookup] at h
      dsimp only at ih ⊢
      rw [List.foldl_append, List.foldl_cons, List.foldl_nil]
      split_ifs at h with hlast
      · obtain rfl := Option.some.inj h
        subst hlast
        exact lookup_upsertStagedChunk_self _ _
      · rw [lookup_upsertStagedChunk_of_ne hlast]
        exact ih h

theorem lookup_upsertStagedChunks_of_not (h : lookup Chunk.id id staged.reverse = none) :
    lookup Chunk.id id (upsertStagedChunks staged chunks).1 = lookup Chunk.id id chunks := by
  rw [upsertStagedChunks]
  induction staged using List.reverseRecOn with
  | nil => rfl
  | append_singleton staged last ih =>
      rw [List.reverse_append, List.reverse_singleton, List.singleton_append, lookup] at h
      dsimp only at ih ⊢
      rw [List.foldl_append, List.foldl_cons, List.foldl_nil]
      split_ifs at h with hlast
      rw [lookup_upsertStagedChunk_of_ne hlast]
      exact ih h

theorem mem_setChunkLifecycleStatus {chunkId : String} {status : ChunkStatus} {next : List Chunk}
    (h : setChunkLifecycleStatus chunkId status chunks = .ok next) (hmem : chunk ∈ next) :
    ∃ old ∈ chunks, chunk = old ∨ chunk.StagedAs old := by
  unfold setChunkLifecycleStatus at h
  split_ifs at h
  obtain rfl := Except.ok.inj h
  rcases mem_update.mp hmem with ⟨old, hold, -, rfl⟩ | ⟨hold, -⟩
  · exact ⟨old, hold, Or.inr ⟨status, rfl⟩⟩
  · exact ⟨chunk, hold, Or.inl rfl⟩

theorem ids_setChunkLifecycleStatus {chunkId : String} {status : ChunkStatus} {next : List Chunk}
    (h : setChunkLifecycleStatus chunkId status chunks = .ok next) :
    next.map Chunk.id = chunks.map Chunk.id := by
  unfold setChunkLifecycleStatus at h
  split_ifs at h
  obtain rfl := Except.ok.inj h
  exact map_update (Chunk.withStatus_id status) _

end Rows

end TinyCortex.Chunks
