import TinyCortex.Lib.Decimal

/-! Job kinds, statuses, payloads and rows of the memory-tree job queue (`queue/types.rs`,
`queue/payloads.rs`). A row's `payload_json` column is represented by the payload it serialises;
times are Unix milliseconds. The `kind` column can also hold the two retired wire strings, which no
producer of this version writes. -/

namespace TinyCortex.Queue

/-- Discriminator persisted in `mem_tree_jobs.kind`. -/
inductive JobKind
  | extractChunk
  | appendBuffer
  | seal
  | flushStale
  | reembedBackfill
  | sealDocument
  deriving DecidableEq, Repr

/-- What the `kind` column of a row can hold: a live kind or one of `RETIRED_JOB_KINDS`. -/
inductive RowKind
  | live (kind : JobKind)
  | topicRoute
  | digestDaily
  deriving DecidableEq, Repr

def RowKind.isRetired : RowKind → Bool
  | .live _ => false
  | .topicRoute => true
  | .digestDaily => true

/-- Lifecycle states persisted on `mem_tree_jobs.status`. -/
inductive JobStatus
  | ready
  | running
  | done
  | failed
  | cancelled
  deriving DecidableEq, Repr

/-- No further worker transitions are expected. -/
def JobStatus.isTerminal : JobStatus → Bool
  | .done => true
  | .failed => true
  | .cancelled => true
  | .ready => false
  | .running => false

/-- The `status IN ('ready', 'running')` of the partial unique index. -/
def JobStatus.isActive : JobStatus → Bool
  | .ready => true
  | .running => true
  | .done => false
  | .failed => false
  | .cancelled => false

theorem JobStatus.isTerminal_eq (status : JobStatus) : status.isTerminal = !status.isActive := by
  cases status <;> rfl

/-- Typed failure classification attached to a job error. -/
structure JobFailure where
  code : String
  failureClass : String
  deriving DecidableEq, Repr

namespace JobFailure

def unrecoverable (code : String) : JobFailure := ⟨code, "unrecoverable"⟩

def transient (code : String) : JobFailure := ⟨code, "transient"⟩

def isUnrecoverable (failure : JobFailure) : Bool := failure.failureClass == "unrecoverable"

end JobFailure

/-- Reference to either a leaf chunk or a sealed summary node. -/
inductive NodeRef
  | leaf (chunkId : String)
  | summary (summaryId : String)
  deriving DecidableEq, Repr

def NodeRef.dedupeFragment : NodeRef → String
  | .leaf chunkId => "leaf:" ++ chunkId
  | .summary summaryId => "summary:" ++ summaryId

/-- Destination for an append-buffer job. -/
inductive AppendTarget
  | source (sourceId : String)
  | topic (treeId : String)
  deriving DecidableEq, Repr

structure ExtractChunkPayload where
  chunkId : String
  deriving DecidableEq, Repr

structure AppendBufferPayload where
  node : NodeRef
  target : AppendTarget
  deriving DecidableEq, Repr

structure SealPayload where
  treeId : String
  level : Nat
  forceNowMs : Option Int
  deriving DecidableEq, Repr

structure FlushStalePayload where
  maxAgeSecs : Option Int
  deriving DecidableEq, Repr

structure ReembedBackfillPayload where
  signature : String
  deriving DecidableEq, Repr

structure SealDocumentPayload where
  treeScope : String
  docId : String
  versionMs : Option Int
  chunkIds : List String
  deriving DecidableEq, Repr

def ExtractChunkPayload.dedupeKey (p : ExtractChunkPayload) : String := "extract:" ++ p.chunkId

def AppendBufferPayload.dedupeKey (p : AppendBufferPayload) : String :=
  match p.target with
  | .source sourceId => "append:source:" ++ sourceId ++ ":" ++ p.node.dedupeFragment
  | .topic treeId => "append:topic:" ++ treeId ++ ":" ++ p.node.dedupeFragment

def SealPayload.dedupeKey (p : SealPayload) : String :=
  "seal:" ++ p.treeId ++ ":" ++ Nat.repr p.level

def FlushStalePayload.dedupeKey (_ : FlushStalePayload) (dateIso : String) (hourBlock : Nat) :
    String :=
  "flush_stale:" ++ dateIso ++ "-h" ++ Nat.repr hourBlock

def ReembedBackfillPayload.dedupeKey (p : ReembedBackfillPayload) : String :=
  "reembed_backfill:" ++ p.signature

def SealDocumentPayload.dedupeKey (p : SealDocumentPayload) : String :=
  match p.versionMs with
  | some version => "seal_doc:" ++ p.docId ++ "@" ++ toString version
  | none => "seal_doc:" ++ p.docId

/-- The value a row's `payload_json` serialises. -/
inductive JobPayload
  | extractChunk (p : ExtractChunkPayload)
  | appendBuffer (p : AppendBufferPayload)
  | seal (p : SealPayload)
  | flushStale (p : FlushStalePayload)
  | reembedBackfill (p : ReembedBackfillPayload)
  | sealDocument (p : SealDocumentPayload)
  deriving DecidableEq, Repr

/-- One row in `mem_tree_jobs`. -/
structure JobRow where
  id : String
  kind : RowKind
  payload : JobPayload
  dedupeKey : Option String
  status : JobStatus
  attempts : Int
  maxAttempts : Int
  availableAtMs : Int
  lockedUntilMs : Option Int
  lastError : Option String
  failureReason : Option String
  failureClass : Option String
  createdAtMs : Int
  startedAtMs : Option Int
  completedAtMs : Option Int
  deriving DecidableEq, Repr

/-- The snapshot `claim_next` hands to a worker: a row with its counters read back as `u32`. -/
structure Job where
  id : String
  kind : RowKind
  payload : JobPayload
  dedupeKey : Option String
  status : JobStatus
  attempts : Nat
  maxAttempts : Nat
  availableAtMs : Int
  lockedUntilMs : Option Int
  lastError : Option String
  failureReason : Option String
  failureClass : Option String
  createdAtMs : Int
  startedAtMs : Option Int
  completedAtMs : Option Int
  deriving DecidableEq, Repr

/-- Caller-side bundle for `enqueue`. -/
structure NewJob where
  kind : JobKind
  payload : JobPayload
  dedupeKey : Option String
  availableAtMs : Option Int
  maxAttempts : Option Nat
  deriving DecidableEq, Repr

def NewJob.extractChunk (p : ExtractChunkPayload) : NewJob :=
  ⟨.extractChunk, .extractChunk p, some p.dedupeKey, none, none⟩

def NewJob.appendBuffer (p : AppendBufferPayload) : NewJob :=
  ⟨.appendBuffer, .appendBuffer p, some p.dedupeKey, none, none⟩

def NewJob.seal (p : SealPayload) : NewJob := ⟨.seal, .seal p, some p.dedupeKey, none, none⟩

def NewJob.flushStale (p : FlushStalePayload) (dateIso : String) (hourBlock : Nat) : NewJob :=
  ⟨.flushStale, .flushStale p, some (p.dedupeKey dateIso hourBlock), none, none⟩

def NewJob.reembedBackfill (p : ReembedBackfillPayload) : NewJob :=
  ⟨.reembedBackfill, .reembedBackfill p, some p.dedupeKey, none, some 3⟩

def NewJob.sealDocument (p : SealDocumentPayload) : NewJob :=
  ⟨.sealDocument, .sealDocument p, some p.dedupeKey, none, none⟩

/-- Queue locking, retry backoff and retry budget policy (`QueueConfig`). -/
structure QueueConfig where
  lockDurationMs : Int
  retryBaseMs : Int
  retryCapMs : Int
  maxAttempts : Nat
  maxDeferAgeMs : Int
  deriving DecidableEq, Repr

def QueueConfig.default : QueueConfig where
  lockDurationMs := 5 * 60 * 1000
  retryBaseMs := 60 * 1000
  retryCapMs := 60 * 60 * 1000
  maxAttempts := 5
  maxDeferAgeMs := 7 * 24 * 60 * 60 * 1000

end TinyCortex.Queue

/-! Dedupe keys read back: which payloads share a key. A seal key ends in the decimal level, which has
no colon in it, so the last colon of the key separates the tree id from the level. -/

namespace TinyCortex.Queue

/-- A list splits in one way only at its last occurrence of a separator. -/
theorem append_cons_inj {α : Type*} {sep : α} {front front' back back' : List α}
    (h : front ++ sep :: back = front' ++ sep :: back') (hback : sep ∉ back) (hback' : sep ∉ back') :
    front = front' ∧ back = back' := by
  rcases List.append_eq_append_iff.mp h with ⟨mid, rfl, hmid⟩ | ⟨mid, rfl, hmid⟩
  · cases mid with
    | nil => exact ⟨(List.append_nil _).symm, (List.cons.inj hmid).2⟩
    | cons c mid =>
        obtain ⟨-, rfl⟩ := List.cons.inj hmid
        exact absurd (List.mem_append_right _ List.mem_cons_self) hback
  · cases mid with
    | nil => exact ⟨List.append_nil _, (List.cons.inj hmid).2.symm⟩
    | cons c mid =>
        obtain ⟨-, rfl⟩ := List.cons.inj hmid
        exact absurd (List.mem_append_right _ List.mem_cons_self) hback'

/-- Seal jobs share a dedupe key exactly when they seal the same level of the same tree. -/
theorem SealPayload.dedupeKey_inj {p q : SealPayload} (h : p.dedupeKey = q.dedupeKey) :
    p.treeId = q.treeId ∧ p.level = q.level := by
  have hchars := congrArg String.toList h
  simp only [SealPayload.dedupeKey, String.toList_append, Nat.toList_repr, List.append_assoc] at hchars
  have htail := List.append_cancel_left hchars
  have hcolon : ∀ n, ':' ∉ Nat.toDigits 10 n := Decimal.not_mem_toDigits (by decide)
  obtain ⟨htree, hlevel⟩ := append_cons_inj htail (hcolon _) (hcolon _)
  exact ⟨String.toList_inj.mp htree, Decimal.toDigits_inj hlevel⟩

theorem SealPayload.dedupeKey_congr {p q : SealPayload} (htree : p.treeId = q.treeId)
    (hlevel : p.level = q.level) : p.dedupeKey = q.dedupeKey := by
  rw [SealPayload.dedupeKey, SealPayload.dedupeKey, htree, hlevel]

end TinyCortex.Queue
