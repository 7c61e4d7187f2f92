import TinyCortex.Chunks.Store
import TinyCortex.Lib.Fallible
import TinyCortex.Queue.WellKeyed

/-! The database tail of ingest (`ingest/pipeline.rs`, `ingest/types.rs`). Canonicalisation, chunking
and scoring have run by then, so a call carries their results; the gate, the prior lifecycles, the
staged upsert, the lifecycle writes and the extract jobs are one transaction. The sink is the job
queue. Score rows and raw-archive refs, which nothing here reads back, are left out. -/

namespace TinyCortex.Ingest

open Chunks Queue

/-- The tables one ingest transaction touches. -/
structure Db where
  chunks : List Chunk
  ingested : List IngestedSource
  jobs : List JobRow
  deriving DecidableEq, Repr

/-- One `ingest_canonical` call: the chunks of the canonical markdown, the `kept` flags of the fast
scorer and the gate version of the options. The clock, and for each chunk the UUID its extract job
would get, are what the transaction reads from outside. -/
structure IngestCall where
  sourceKind : SourceKind
  sourceId : String
  minted : List (Chunk × String)
  kept : List Bool
  gateVersionMs : Option Int
  nowMs : Int
  deriving DecidableEq, Repr

def IngestCall.chunks (call : IngestCall) : List Chunk := call.minted.map Prod.fst

def IngestCall.jobIds (call : IngestCall) : List String := call.minted.map Prod.snd

structure IngestSummary where
  sourceId : String
  chunksWritten : Nat
  chunksDropped : Nat
  chunkIds : List String
  extractJobsEnqueued : Nat
  alreadyIngested : Bool
  deriving DecidableEq, Repr

/-- A no-op summary for empty payloads. -/
def IngestSummary.empty (sourceId : String) : IngestSummary := ⟨sourceId, 0, 0, [], 0, false⟩

/-- The gate was lost to an earlier ingest. -/
def IngestSummary.ofIngested (sourceId : String) : IngestSummary := ⟨sourceId, 0, 0, [], 0, true⟩

/-- The call went through: it wrote its chunks. -/
def IngestSummary.admits (summary : IngestSummary) : Bool := decide (0 < summary.chunksWritten)

inductive IngestError
  /-- `scorer length mismatch: chunks={} scores={}` -/
  | scorerLengthMismatch (chunks scores : Nat)
  | store (error : ChunkError)
  deriving DecidableEq, Repr

/-- The key of the document gate: a later revision of a document has a key of its own. -/
def gateKey (sourceId : String) : Option Int → String
  | some version => sourceId ++ "@" ++ toString version
  | none => sourceId

def IngestCall.gateKey (call : IngestCall) : String :=
  Ingest.gateKey call.sourceId call.gateVersionMs

/-- `matches!(pre, None | Some("pending_extraction"))`. -/
def needsProcessing : Option ChunkStatus → Bool
  | none => true
  | some status => status == .pendingExtraction

/-- `QueueJobSink::enqueue_extract_tx`: whether a new job was created. -/
def enqueueExtract (jobId : String) (nowMs : Int) (chunkId : String) (defaultMaxAttempts : Nat)
    (jobs : List JobRow) : List JobRow × Bool :=
  let (next, inserted) :=
    enqueueConn jobId nowMs (.extractChunk ⟨chunkId⟩) defaultMaxAttempts jobs
  (next, inserted.isSome)

/-- What a round of the scheduling loop reads: a chunk, its lifecycle before the upsert, and the UUID
of its job. -/
structure Entry where
  chunkId : String
  pre : Option ChunkStatus
  jobId : String
  deriving DecidableEq, Repr

def scheduleOne (config : QueueConfig) (nowMs : Int) (entry : Entry) (db : Db) :
    Except ChunkError (Db × Nat) :=
  if needsProcessing entry.pre then do
    let chunks ← setChunkLifecycleStatus entry.chunkId .pendingExtraction db.chunks
    let (jobs, inserted) :=
      enqueueExtract entry.jobId nowMs entry.chunkId config.maxAttempts db.jobs
    .ok ({ db with chunks := chunks, jobs := jobs }, inserted.toNat)
  else .ok (db, 0)

/-- The scheduling loop; how many jobs it created. -/
def scheduleAll (config : QueueConfig) (nowMs : Int) :
    List Entry → Db → Except ChunkError (Db × Nat)
  | [], db => .ok (db, 0)
  | entry :: rest, db => do
      let (mid, n) ← scheduleOne config nowMs entry db
      let (last, m) ← scheduleAll config nowMs rest mid
      .ok (last, n + m)

/-- The rounds of the loop; the lifecycles are read at the start of the transaction. -/
def IngestCall.entries (call : IngestCall) (chunks : List Chunk) : List Entry :=
  call.minted.map fun (chunk, jobId) =>
    ⟨chunk.id, getChunkLifecycleStatus chunk.id chunks, jobId⟩

/-- The source gate, which only documents have; whether the call got through. -/
def passGate (call : IngestCall) (ingested : List IngestedSource) : List IngestedSource × Bool :=
  match call.sourceKind with
  | .document => claimSourceIngest .document call.gateKey call.nowMs ingested
  | .chat | .email => (ingested, true)

/-- The transaction: the tables it leaves and, unless the gate was lost, the numbers of chunks written
and of jobs created. -/
def persist (config : QueueConfig) (call : IngestCall) (db : Db) :
    Except ChunkError (Db × Option (Nat × Nat)) :=
  let (ingested, claimed) := passGate call db.ingested
  if claimed then do
    let (chunks, written) := upsertStagedChunks call.chunks db.chunks
    let (next, jobs) ← scheduleAll config call.nowMs (call.entries db.chunks)
      { db with chunks := chunks, ingested := ingested }
    .ok (next, some (written, jobs))
  else .ok (db, none)

def ingestCanonical (config : QueueConfig) (call : IngestCall) (db : Db) :
    Except IngestError (Db × IngestSummary) :=
  if call.chunks = [] then .ok (db, .empty call.sourceId)
  else if call.kept.length ≠ call.chunks.length then
    .error (.scorerLengthMismatch call.chunks.length call.kept.length)
  else
    match persist config call db with
    | .error error => .error (.store error)
    | .ok (db, none) => .ok (db, .ofIngested call.sourceId)
    | .ok (next, some (written, jobs)) =>
        .ok (next,
          { sourceId := call.sourceId
            chunksWritten := written
            chunksDropped := call.kept.countP (!·)
            chunkIds := call.chunks.map Chunk.id
            extractJobsEnqueued := jobs
            alreadyIngested := false })

/-- The UUIDs of a call's jobs are all new. -/
structure IngestCall.MintsFresh (call : IngestCall) (jobs : List JobRow) : Prop where
  nodup : call.jobIds.Nodup
  unused : ∀ jobId ∈ call.jobIds, jobId ∉ jobs.map JobRow.id

/-! ### The scheduling loop -/

section Schedule

variable {config : QueueConfig} {nowMs : Int} {db next : Db} {n : Nat}

/-- What a scheduling round or loop may do: it creates jobs and touches nothing else but lifecycles. -/
structure Scheduled (ids : List String) (db next : Db) : Prop where
  ingested : next.ingested = db.ingested
  rows : next.chunks.map Chunk.id = db.chunks.map Chunk.id
  status : ∀ id, getChunkLifecycleStatus id next.chunks =
    if id ∈ ids then some .pendingExtraction else getChunkLifecycleStatus id db.chunks
  jobs : db.jobs ⊆ next.jobs
  valid : TableValid db.jobs → TableValid next.jobs
  keyed : WellKeyed db.jobs → WellKeyed next.jobs

theorem Scheduled.refl (db : Db) : Scheduled [] db db where
  ingested := rfl
  rows := rfl
  status := fun _ => rfl
  jobs := List.Subset.refl _
  valid := id
  keyed := id

theorem Scheduled.trans {ids ids' : List String} {mid : Db} (h : Scheduled ids db mid)
    (h' : Scheduled ids' mid next) : Scheduled (ids ++ ids') db next where
  ingested := h'.ingested.trans h.ingested
  rows := h'.rows.trans h.rows
  status := by
    intro id
    rw [h'.status, h.status]
    by_cases hid : id ∈ ids <;> by_cases hid' : id ∈ ids' <;> simp [hid, hid']
  jobs := List.Subset.trans h.jobs h'.jobs
  valid := h'.valid ∘ h.valid
  keyed := h'.keyed ∘ h.keyed

/-- The chunks a loop schedules. -/
def toSchedule (entries : List Entry) : List String :=
  (entries.filter (needsProcessing ·.pre)).map Entry.chunkId

theorem toSchedule_cons (entry : Entry) (entries : List Entry) :
    toSchedule (entry :: entries) = toSchedule [entry] ++ toSchedule entries := by
  rw [toSchedule, toSchedule, toSchedule, ← List.map_append, ← List.filter_append]
  rfl

theorem scheduleOne_ok {entry : Entry} (config : QueueConfig) (nowMs : Int)
    (hrow : entry.chunkId ∈ db.chunks.map Chunk.id) :
    ∃ next n, scheduleOne config nowMs entry db = .ok (next, n) ∧
      Scheduled (toSchedule [entry]) db next ∧
      next.jobs.map JobRow.id ⊆ entry.jobId :: db.jobs.map JobRow.id ∧
      (TableValid db.jobs → entry.jobId ∉ db.jobs.map JobRow.id → ∀ id ∈ toSchedule [entry],
        ExtractChunkPayload.dedupeKey ⟨id⟩ ∈ activeKeys next.jobs) := by
  unfold scheduleOne
  split_ifs with hpre
  · have hself : toSchedule [entry] = [entry.chunkId] := by simp [toSchedule, hpre]
    obtain ⟨chunks, hchunks, hrows⟩ := setChunkLifecycleStatus_of_mem hrow .pendingExtraction
    rw [hchunks, hself]
    refine ⟨_, _, rfl, ⟨rfl, hrows, fun id => ?_, subset_enqueueConn, TableValid.enqueueConn,
      fun hkeyed => wellKeyed_enqueueConn hkeyed ⟨rfl, rfl⟩⟩, ?_, fun hv hfresh id hid => ?_⟩
    · rw [getChunkLifecycleStatus_set hchunks]
      simp
    · intro id hid
      obtain ⟨row, hmem, rfl⟩ := List.mem_map.mp hid
      rcases mem_enqueueConn hmem with hold | ⟨rfl, -⟩
      · exact List.mem_cons_of_mem _ (List.mem_map_of_mem hold)
      · exact List.mem_cons_self
    · obtain rfl := List.mem_singleton.mp hid
      exact activeKey_enqueueConn hv hfresh rfl
  · have hnone : toSchedule [entry] = [] := by simp [toSchedule, hpre]
    rw [hnone]
    exact ⟨db, 0, rfl, Scheduled.refl db, List.subset_cons_self _ _,
      fun _ _ id hid => absurd hid List.not_mem_nil⟩

/-- The loop always runs to its end, and leaves every scheduled chunk with an active extract job. -/
theorem scheduleAll_ok {entries : List Entry} (config : QueueConfig) (nowMs : Int)
    (hrows : ∀ entry ∈ entries, entry.chunkId ∈ db.chunks.map Chunk.id) :
    ∃ next n, scheduleAll config nowMs entries db = .ok (next, n) ∧
      Scheduled (toSchedule entries) db next ∧
      (TableValid db.jobs → (entries.map Entry.jobId).Nodup →
        (∀ jobId ∈ entries.map Entry.jobId, jobId ∉ db.jobs.map JobRow.id) →
        ∀ id ∈ toSchedule entries, ExtractChunkPayload.dedupeKey ⟨id⟩ ∈ activeKeys next.jobs) := by
  induction entries generalizing db with
  | nil => exact ⟨db, 0, rfl, Scheduled.refl db, fun _ _ _ id hid => absurd hid List.not_mem_nil⟩
  | cons entry entries ih =>
      obtain ⟨hrow, hrows⟩ := List.forall_mem_cons.mp hrows
      obtain ⟨mid, k, hmid, hone, hids, hkey⟩ := scheduleOne_ok config nowMs hrow
      rw [← hone.rows] at hrows
      obtain ⟨last, m, hlast, hrest, hkeys⟩ := ih hrows
      refine ⟨last, k + m, ?_, toSchedule_cons entry entries ▸ hone.trans hrest, ?_⟩
      · rw [scheduleAll, hmid]
        dsimp only [bind, Except.bind]
        rw [hlast]
      · intro hv hnodup hfresh id hid
        rw [List.map_cons, List.nodup_cons] at hnodup
        rw [List.map_cons, List.forall_mem_cons] at hfresh
        rw [toSchedule_cons, List.mem_append] at hid
        rcases hid with hhead | htail
        · obtain ⟨row, hmem, hactive⟩ := Table.mem_keys.mp (hkey hv hfresh.1 id hhead)
          exact Table.mem_keys.mpr ⟨row, hrest.jobs hmem, hactive⟩
        · refine hkeys (hone.valid hv) hnodup.2 (fun other hother hmem => ?_) id htail
          rcases List.mem_cons.mp (hids hmem) with rfl | hold
          · exact hnodup.1 hother
          · exact hfresh.2 other hother hold

/-- The loop schedules exactly the chunks of the call that are new or still pending. -/
theorem mem_toSchedule {call : IngestCall} {chunks : List Chunk} {id : String} :
    id ∈ toSchedule (call.entries chunks) ↔ id ∈ call.chunks.map Chunk.id ∧
      (getChunkLifecycleStatus id chunks).getD .pendingExtraction = .pendingExtraction := by
  have hneeds : ∀ pre, needsProcessing pre ↔ pre.getD .pendingExtraction = .pendingExtraction := by
    intro pre
    cases pre <;> simp [needsProcessing]
  simp only [toSchedule, IngestCall.entries, IngestCall.chunks, List.mem_map, List.mem_filter]
  constructor
  · rintro ⟨entry, ⟨⟨minted, hminted, rfl⟩, hpre⟩, rfl⟩
    exact ⟨⟨minted.1, ⟨minted, hminted, rfl⟩, rfl⟩, (hneeds _).mp hpre⟩
  · rintro ⟨⟨chunk, ⟨minted, hminted, rfl⟩, rfl⟩, hpre⟩
    exact ⟨_, ⟨⟨minted, hminted, rfl⟩, (hneeds _).mpr hpre⟩, rfl⟩

end Schedule

/-! ### The transaction -/

/-- What a committed ingest does. A chunk that was there keeps its lifecycle, a new one is pending, and
every pending chunk of the call has an active extract job. -/
structure Persisted (call : IngestCall) (db next : Db) : Prop where
  status : ∀ id, getChunkLifecycleStatus id next.chunks =
    if id ∈ call.chunks.map Chunk.id then
      some ((getChunkLifecycleStatus id db.chunks).getD .pendingExtraction)
    else getChunkLifecycleStatus id db.chunks
  gate : passGate call db.ingested = (next.ingested, true)
  valid : TableValid db.jobs → TableValid next.jobs
  keyed : WellKeyed db.jobs → WellKeyed next.jobs
  scheduled : TableValid db.jobs → call.MintsFresh db.jobs → ∀ id ∈ call.chunks.map Chunk.id,
    getChunkLifecycleStatus id next.chunks = some .pendingExtraction →
    ExtractChunkPayload.dedupeKey ⟨id⟩ ∈ activeKeys next.jobs

/-- An ingest that passes its gate commits. -/
theorem persist_of_gate {call : IngestCall} {db : Db} {ingested : List IngestedSource}
    (config : QueueConfig) (hgate : passGate call db.ingested = (ingested, true)) :
    ∃ next n, persist config call db = .ok (next, some (call.chunks.length, n)) ∧
      Persisted call db next := by
  let staged : Db :=
    { db with chunks := (upsertStagedChunks call.chunks db.chunks).1, ingested := ingested }
  have hstaged : ∀ id, getChunkLifecycleStatus id staged.chunks = _ :=
    fun id => getChunkLifecycleStatus_upsertAll call.chunks
  have hrows : ∀ entry ∈ call.entries db.chunks, entry.chunkId ∈ staged.chunks.map Chunk.id := by
    intro entry hentry
    obtain ⟨minted, hminted, rfl⟩ := List.mem_map.mp hentry
    by_contra hnot
    have hmem : minted.1.id ∈ call.chunks.map Chunk.id :=
      List.mem_map_of_mem (List.mem_map_of_mem hminted)
    have hnone := getChunkLifecycleStatus_eq_none_iff.mpr hnot
    rw [hstaged, if_pos hmem] at hnone
    cases hnone
  obtain ⟨next, n, hnext, hsched, hkeys⟩ := scheduleAll_ok config call.nowMs hrows
  have hstatus : ∀ id, getChunkLifecycleStatus id next.chunks =
      if id ∈ call.chunks.map Chunk.id then
        some ((getChunkLifecycleStatus id db.chunks).getD .pendingExtraction)
      else getChunkLifecycleStatus id db.chunks := by
    intro id
    rw [hsched.status, hstaged]
    simp only [mem_toSchedule]
    by_cases hid : id ∈ call.chunks.map Chunk.id
    · cases hpre : getChunkLifecycleStatus id db.chunks with
      | none => simp [hid]
      | some status => by_cases hpending : status = .pendingExtraction <;> simp [hid, hpending]
    · simp [hid]
  refine ⟨next, n, ?_, hstatus, ?_, hsched.valid, hsched.keyed, ?_⟩
  · rw [persist, hgate]
    dsimp only
    rw [if_pos rfl]
    change (scheduleAll config call.nowMs (call.entries db.chunks) staged >>= _) = _
    rw [hnext]
    rfl
  · rw [hgate, hsched.ingested]
  · intro hv hfresh id hid hpending
    have hjobIds : (call.entries db.chunks).map Entry.jobId = call.jobIds := by
      rw [IngestCall.entries, IngestCall.jobIds, List.map_map]
      rfl
    refine hkeys hv (hjobIds ▸ hfresh.nodup) (hjobIds ▸ hfresh.unused) id ?_
    rw [hstatus, if_pos hid] at hpending
    exact mem_toSchedule.mpr ⟨hid, Option.some.inj hpending⟩

theorem persist_of_lost {call : IngestCall} {db : Db} {ingested : List IngestedSource}
    (config : QueueConfig) (hgate : passGate call db.ingested = (ingested, false)) :
    persist config call db = .ok (db, none) := by
  rw [persist, hgate]
  rfl

/-- An ingest fails, or leaves the tables alone, or commits. -/
theorem ingestCanonical_cases (config : QueueConfig) (call : IngestCall) (db : Db) :
    (∃ error, ingestCanonical config call db = .error error) ∨
    (∃ summary, ingestCanonical config call db = .ok (db, summary) ∧ summary.admits = false) ∨
    ∃ next summary, ingestCanonical config call db = .ok (next, summary) ∧
      summary.admits = true ∧ Persisted call db next := by
  unfold ingestCanonical
  split_ifs with hempty hlen
  · exact Or.inr (Or.inl ⟨_, rfl, rfl⟩)
  · exact Or.inl ⟨_, rfl⟩
  · rcases hgate : passGate call db.ingested with ⟨ingested, claimed⟩
    cases claimed with
    | false =>
        rw [persist_of_lost config hgate]
        exact Or.inr (Or.inl ⟨_, rfl, rfl⟩)
    | true =>
        obtain ⟨next, n, hnext, hpersisted⟩ := persist_of_gate config hgate
        rw [hnext]
        exact Or.inr (Or.inr ⟨next, _, rfl,
          decide_eq_true (List.length_pos_iff.mpr hempty), hpersisted⟩)

end TinyCortex.Ingest
