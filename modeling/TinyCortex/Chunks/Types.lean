import Mathlib

/-! Chunk rows (`mem_tree_chunks`), the leaves of every summary tree. Bodies, tags, owners, content
paths and the `parent_summary_id` backlink, which seals write and nothing reads, are left out. -/

namespace TinyCortex.Chunks

inductive SourceKind
  | chat | email | document
  deriving DecidableEq, Repr

def SourceKind.asStr : SourceKind → String
  | .chat => "chat"
  | .email => "email"
  | .document => "document"

/-- `mem_tree_chunks.lifecycle_status`. -/
inductive ChunkStatus
  | pendingExtraction | admitted | buffered | sealed | dropped
  deriving DecidableEq, Repr

/-- One row in `mem_tree_chunks`, with the metadata that listing and tree scoping read. -/
structure Chunk where
  id : String
  sourceKind : SourceKind
  sourceId : String
  pathScope : Option String
  timestampMs : Int
  timeRangeStartMs : Int
  timeRangeEndMs : Int
  tokenCount : Nat
  seqInSource : Nat
  lifecycleStatus : ChunkStatus
  deriving DecidableEq, Repr

end TinyCortex.Chunks
