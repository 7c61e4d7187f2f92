import TinyCortex.Chunks.Delete

/-! Canonical sources (`ingest/canonicalize`) and the chunks cut from them (`chunks/produce.rs`). Every
chunk of a batch gets the metadata of the whole batch, its times included. The markdown is left out: a
source comes with the pieces that the chunker cuts it into. -/

namespace TinyCortex.Ingest

open Chunks

/-- The metadata of a canonical source. -/
structure Metadata where
  sourceKind : SourceKind
  sourceId : String
  owner : String
  pathScope : Option String
  timestampMs : Int
  timeRangeStartMs : Int
  timeRangeEndMs : Int
  deriving DecidableEq, Repr

/-- What comes in: the send times of a batch of messages, or the modification time of a document. -/
inductive Payload
  | chat (sentMs : List Int)
  | email (sentMs : List Int)
  | document (modifiedMs : Int) (pathScope : Option String)
  deriving DecidableEq, Repr

/-- A batch of messages starts at its first message and ends at its last; an empty one is skipped. -/
def batchMetadata (sourceKind : SourceKind) (sourceId owner : String) (sentMs : List Int) :
    Option Metadata :=
  let messages := sentMs.insertionSort (· ≤ ·)
  match messages.head?, messages.getLast? with
  | some first, some last => some ⟨sourceKind, sourceId, owner, none, first, first, last⟩
  | _, _ => none

def canonicalise (sourceId owner : String) : Payload → Option Metadata
  | .chat sentMs => batchMetadata .chat sourceId owner sentMs
  | .email sentMs => batchMetadata .email sourceId owner sentMs
  | .document modifiedMs pathScope =>
      some ⟨.document, sourceId, owner, pathScope, modifiedMs, modifiedMs, modifiedMs⟩

/-- A piece of a canonical source; its id is a hash of the source, the position and the text. -/
structure Piece where
  id : String
  tokenCount : Nat
  seqInSource : Nat
  contentPath : String
  deriving DecidableEq, Repr

def Metadata.chunk (metadata : Metadata) (piece : Piece) : Chunk where
  id := piece.id
  sourceKind := metadata.sourceKind
  sourceId := metadata.sourceId
  pathScope := metadata.pathScope
  timestampMs := metadata.timestampMs
  timeRangeStartMs := metadata.timeRangeStartMs
  timeRangeEndMs := metadata.timeRangeEndMs
  tokenCount := piece.tokenCount
  seqInSource := piece.seqInSource
  lifecycleStatus := .admitted

/-- The columns of a row after its piece was staged: raw references are set when the call has any. -/
def stagedColumns (metadata : Metadata) (rawRefs : Option (List String)) (piece : Piece)
    (old : Option ChunkColumns) : ChunkColumns where
  owner := metadata.owner
  contentPath := some piece.contentPath
  rawRefs := (rawRefs.map RawRefs.paths).getD ((old.map ChunkColumns.rawRefs).getD .empty)

/-- Stage the pieces of a source: their bodies are written and their rows upserted. -/
def stage (metadata : Metadata) (pieces : List Piece) (rawRefs : Option (List String))
    (store : Store) : Store :=
  { store with
    db := { store.db with
      chunks := (upsertStagedChunks (pieces.map metadata.chunk) store.db.chunks).1 }
    columns := fun id =>
      match Table.lookup Piece.id id pieces.reverse with
      | some piece => stagedColumns metadata rawRefs piece
          (if id ∈ store.db.chunks.map Chunk.id then some (store.columns id) else none)
      | none => store.columns id
    files := store.files ++ pieces.map fun piece => fileAt piece.contentPath }

/-- The timestamp of a row lies in its own time range. -/
structure Timed (timestampMs timeRangeStartMs timeRangeEndMs : Int) : Prop where
  start : timeRangeStartMs ≤ timestampMs
  stop : timestampMs ≤ timeRangeEndMs

theorem batchMetadata_timed {sourceKind : SourceKind} {sourceId owner : String} {sentMs : List Int}
    {metadata : Metadata} (h : batchMetadata sourceKind sourceId owner sentMs = some metadata) :
    Timed metadata.timestampMs metadata.timeRangeStartMs metadata.timeRangeEndMs := by
  have hsorted : (sentMs.insertionSort (· ≤ ·)).Pairwise (· ≤ ·) := List.pairwise_insertionSort _ _
  unfold batchMetadata at h
  dsimp only at h
  generalize sentMs.insertionSort (· ≤ ·) = messages at h hsorted
  cases messages with
  | nil => cases h
  | cons first rest =>
      rw [List.head?_cons, List.getLast?_cons] at h
      obtain rfl := Option.some.inj h
      refine ⟨le_rfl, ?_⟩
      cases hlast : rest.getLast? with
      | none => exact le_rfl
      | some last => exact List.rel_of_pairwise_cons hsorted (List.mem_of_getLast? hlast)

theorem canonicalise_timed {sourceId owner : String} {payload : Payload} {metadata : Metadata}
    (h : canonicalise sourceId owner payload = some metadata) :
    Timed metadata.timestampMs metadata.timeRangeStartMs metadata.timeRangeEndMs := by
  cases payload with
  | chat sentMs | email sentMs => exact batchMetadata_timed h
  | document modifiedMs pathScope =>
      obtain rfl := Option.some.inj h
      exact ⟨le_rfl, le_rfl⟩

end TinyCortex.Ingest
