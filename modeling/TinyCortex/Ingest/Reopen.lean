import TinyCortex.Chunks.Delete
import TinyCortex.Ingest.Pipeline

/-! Deletion and the ingest gate. A deletion clears the gates of the source ids that it leaves without
chunks; the gate of a versioned document has a key of its own. -/

namespace TinyCortex.Ingest

open Chunks Queue

/-- `ingest_chat`, `ingest_email` and `ingest_document_versioned` from the gate check on, which a document
passes twice: before it is canonicalised and in the transaction. -/
def ingestSource (config : QueueConfig) (call : IngestCall) (db : Db) :
    Except IngestError (Db × IngestSummary) :=
  match call.sourceKind with
  | .document =>
      if isSourceIngested .document call.gateKey db.ingested then .ok (db, .ofIngested call.sourceId)
      else ingestCanonical config call db
  | .chat | .email => ingestCanonical config call db

/-- The store as an ingest sees it, beside the job table. -/
def storeDb (store : Store) (jobs : List JobRow) : Db := ⟨store.db.chunks, store.ingested, jobs⟩

/-- The canonical markdown has chunks, and the scorer scored each of them. -/
structure IngestCall.Scored (call : IngestCall) : Prop where
  chunks : call.chunks ≠ []
  scores : call.kept.length = call.chunks.length

/-- The result of an ingest that went through: its chunks are in the store. -/
def Writes (call : IngestCall) (result : Except IngestError (Db × IngestSummary)) : Prop :=
  ∃ next summary, result = .ok (next, summary) ∧ summary.admits ∧
    summary.chunksWritten = call.chunks.length ∧
    call.chunks.map Chunk.id ⊆ next.chunks.map Chunk.id

theorem writes_of_gate {call : IngestCall} {db : Db} (config : QueueConfig) (hscored : call.Scored)
    (hgate : (passGate call db.ingested).2 = true) :
    Writes call (ingestCanonical config call db) := by
  obtain ⟨next, n, hnext, hpersisted⟩ := persist_of_gate config (Prod.ext rfl hgate)
  rw [ingestCanonical, if_neg hscored.chunks, if_neg (not_not.mpr hscored.scores), hnext]
  refine ⟨next, _, rfl, decide_eq_true (List.length_pos_iff.mpr hscored.chunks), rfl, ?_⟩
  intro id hid
  by_contra hnot
  have hstatus := hpersisted.status id
  rw [if_pos hid, getChunkLifecycleStatus_eq_none_iff.mpr hnot] at hstatus
  cases hstatus

/-- An ingest goes through exactly when no gate row is in its way. -/
theorem ingestSource_writes_iff (config : QueueConfig) {call : IngestCall} (hscored : call.Scored)
    (db : Db) : Writes call (ingestSource config call db) ↔ call.sourceKind ≠ .document ∨
      (SourceKind.document, call.gateKey) ∉ db.ingested.map IngestedSource.key := by
  unfold ingestSource
  cases hkind : call.sourceKind with
  | chat | email =>
      refine iff_of_true (writes_of_gate config hscored ?_) (Or.inl (by decide))
      rw [passGate, hkind]
  | document =>
      have hgate : isSourceIngested .document call.gateKey db.ingested = true ↔
          (SourceKind.document, call.gateKey) ∈ db.ingested.map IngestedSource.key :=
        decide_eq_true_iff
      dsimp only
      by_cases hmem : (SourceKind.document, call.gateKey) ∈ db.ingested.map IngestedSource.key
      · rw [if_pos (hgate.mpr hmem)]
        refine iff_of_false ?_ fun h => h.elim (fun hne => hne rfl) fun hnot => hnot hmem
        rintro ⟨next, summary, hok, hadmits, -⟩
        obtain ⟨-, rfl⟩ := Prod.mk.inj (Except.ok.inj hok)
        cases hadmits
      · rw [if_neg fun h => hmem (hgate.mp h)]
        refine iff_of_true (writes_of_gate config hscored ?_) (Or.inr hmem)
        rw [passGate, hkind]
        exact decide_eq_true hmem

/-! ### What a request deletes -/

section Requests

variable {store : Store} {request : DeleteRequest} {key : String}

/-- The request deletes some chunk of the source. -/
def DeletesFrom (request : DeleteRequest) (store : Store) (kind : SourceKind) (sourceId : String) :
    Prop :=
  ∃ chunk ∈ store.db.chunks, chunk.sourceKind = kind ∧ chunk.sourceId = sourceId ∧
    request.selects store chunk

/-- The request deletes the last chunk of the source. -/
def DeletesLast (request : DeleteRequest) (store : Store) (kind : SourceKind) (sourceId : String) :
    Prop :=
  DeletesFrom request store kind sourceId ∧ ∀ chunk ∈ store.db.chunks,
    chunk.sourceKind = kind → chunk.sourceId = sourceId → request.selects store chunk

/-- A filter names a gate itself. -/
def Names (sourceKind : SourceKind) (filter : DeleteFilter) (gate : SourceKind × String) : Prop :=
  match filter with
  | .exactSource sourceId => gate = (sourceKind, sourceId)
  | .sourcePrefix start => gate.1 = sourceKind ∧ startsWith start gate.2
  | .owner _ | .chunk _ => False

/-- The gate of a deleted source id without survivors. -/
def Orphaned (sourceKind : SourceKind) (deleted survivors : List Chunk)
    (gate : SourceKind × String) : Prop :=
  gate.1 = sourceKind ∧ gate.2 ∈ deleted.map Chunk.sourceId ∧
    ∀ chunk ∈ survivors, chunk.sourceKind = gate.1 → chunk.sourceId ≠ gate.2

theorem mem_filter_key {rows : List IngestedSource} {keep : IngestedSource → Bool}
    (kept : SourceKind × String → Prop) (h : ∀ row, keep row = true ↔ kept row.key)
    {gate : SourceKind × String} : gate ∈ (rows.filter keep).map IngestedSource.key ↔
      gate ∈ rows.map IngestedSource.key ∧ kept gate := by
  simp only [List.mem_map, List.mem_filter]
  constructor
  · rintro ⟨row, ⟨hrow, hkeep⟩, rfl⟩
    exact ⟨⟨row, hrow, rfl⟩, (h row).mp hkeep⟩
  · rintro ⟨⟨row, hrow, rfl⟩, hkept⟩
    exact ⟨row, ⟨hrow, (h row).mpr hkept⟩, rfl⟩

theorem mem_clearGates {sourceKind : SourceKind} {filter : DeleteFilter}
    {deleted survivors : List Chunk} {ingested : List IngestedSource} {gate : SourceKind × String} :
    gate ∈ (clearGates sourceKind filter deleted survivors ingested).map IngestedSource.key ↔
      gate ∈ ingested.map IngestedSource.key ∧ ¬Orphaned sourceKind deleted survivors gate ∧
        ¬Names sourceKind filter gate := by
  have horphaned : ∀ row : IngestedSource, (!(row.sourceKind == sourceKind &&
      decide (row.sourceId ∈ deleted.map Chunk.sourceId) && !survivors.any fun chunk =>
        chunk.sourceKind == row.sourceKind && chunk.sourceId == row.sourceId)) = true ↔
      ¬Orphaned sourceKind deleted survivors row.key := by
    intro row
    rw [Bool.not_eq_true', ← Bool.not_eq_true]
    refine not_congr ?_
    simp [Orphaned, IngestedSource.key, and_assoc]
  cases filter with
  | exactSource sourceId =>
      rw [clearGates, mem_filter_key (¬Names sourceKind (.exactSource sourceId) ·),
        mem_filter_key (¬Orphaned sourceKind deleted survivors ·) horphaned, and_assoc]
      intro row
      rw [Bool.not_eq_true', ← Bool.not_eq_true]
      refine not_congr ?_
      simp [Names, IngestedSource.key]
  | sourcePrefix start =>
      rw [clearGates, mem_filter_key (¬Names sourceKind (.sourcePrefix start) ·),
        mem_filter_key (¬Orphaned sourceKind deleted survivors ·) horphaned, and_assoc]
      intro row
      rw [Bool.not_eq_true', ← Bool.not_eq_true]
      refine not_congr ?_
      simp [Names, IngestedSource.key]
  | owner name | chunk chunkId =>
      rw [clearGates, mem_filter_key (¬Orphaned sourceKind deleted survivors ·) horphaned]
      simp [Names]

theorem startsWith_gateKey {start sourceId : String} (h : startsWith start sourceId)
    (version : Option Int) : startsWith start (gateKey sourceId version) := by
  cases version with
  | none => exact h
  | some version =>
      rw [startsWith, List.isPrefixOf_iff_prefix] at h ⊢
      rw [gateKey, String.toList_append, String.toList_append]
      exact h.trans ((List.prefix_append _ _).trans (List.prefix_append _ _))

/-- These requests clear the gates of every version of what they delete. -/
def ClearsVersions : DeleteRequest → Prop
  | .bySourcePrefix _ _ | .purge => True
  | .bySource _ _ | .byOwner _ _ | .byId _ | .orphanedTree _ _ => False

theorem selects_kind {filter : DeleteFilter} {sourceKind : SourceKind}
    {columns : String → ChunkColumns} {chunk : Chunk} (hfilter : ∀ chunkId, filter ≠ .chunk chunkId)
    (h : filter.selects sourceKind columns chunk) : chunk.sourceKind = sourceKind := by
  cases filter with
  | chunk chunkId => exact absurd rfl (hfilter chunkId)
  | exactSource | sourcePrefix | owner => exact beq_iff_eq.mp (Bool.and_eq_true_iff.mp h).1

/-- A filter clears a document gate that it names, and the one whose key lost its last chunk. -/
theorem mem_gates_filter {sourceKind : SourceKind} {filter : DeleteFilter}
    (hkind : ∀ chunk ∈ store.db.chunks, filter.selects sourceKind store.columns chunk →
      chunk.sourceKind = sourceKind)
    (hselects : request.selects store = filter.selects sourceKind store.columns) :
    (SourceKind.document, key) ∈
        (deleteChunksBySourceFilter sourceKind filter store).1.ingested.map IngestedSource.key ↔
      (SourceKind.document, key) ∈ store.ingested.map IngestedSource.key ∧
        ¬DeletesLast request store .document key ∧
        ¬Names sourceKind filter (.document, key) := by
  refine mem_clearGates.trans (and_congr_right fun _ => and_congr_left fun _ => not_congr ?_)
  rw [DeletesLast, DeletesFrom, hselects]
  constructor
  · rintro ⟨hdocument, hdeleted, hleft⟩
    obtain ⟨chunk, hchunk, hid⟩ := List.mem_map.mp hdeleted
    obtain ⟨hchunk, hsel⟩ := List.mem_filter.mp hchunk
    refine ⟨⟨chunk, hchunk, (hkind chunk hchunk hsel).trans hdocument.symm, hid, hsel⟩,
      fun other hother hk hsource => ?_⟩
    by_contra hnot
    refine hleft other (List.mem_filter.mpr ⟨hother, ?_⟩) hk hsource
    simpa using hnot
  · rintro ⟨⟨chunk, hchunk, hk, hid, hsel⟩, hlast⟩
    refine ⟨hk.symm.trans (hkind chunk hchunk hsel),
      List.mem_map.mpr ⟨chunk, List.mem_filter.mpr ⟨hchunk, hsel⟩, hid⟩, fun other hother hk' hid' => ?_⟩
    obtain ⟨hother, hnot⟩ := List.mem_filter.mp hother
    rw [hlast other hother hk' hid'] at hnot
    cases hnot

/-- The gate of a document that lost chunks stays unless the request clears all versions or the last
chunk of the gate's own key went. -/
theorem mem_gates_run (hids : (store.db.chunks.map Chunk.id).Nodup) {sourceId : String}
    (version : Option Int) (hdelete : DeletesFrom request store .document sourceId) :
    (SourceKind.document, gateKey sourceId version) ∈
        (request.run store).ingested.map IngestedSource.key ↔
      (SourceKind.document, gateKey sourceId version) ∈ store.ingested.map IngestedSource.key ∧
        ¬DeletesLast request store .document (gateKey sourceId version) ∧
        ¬ClearsVersions request := by
  obtain ⟨chunk, hchunk, hdocument, hsource, hsel⟩ := hdelete
  cases request with
  | bySource kind id =>
      have hboth := Bool.and_eq_true_iff.mp hsel
      refine (mem_gates_filter (fun _ _ => selects_kind (by simp)) rfl).trans
        (and_congr_right fun _ => and_congr_right fun hlast => iff_of_true ?_ False.elim)
      intro heq
      obtain ⟨rfl, hkey⟩ := Prod.mk.inj heq
      have hid : sourceId = id := hsource.symm.trans (beq_iff_eq.mp hboth.2)
      refine hlast ⟨⟨chunk, hchunk, hdocument, hsource.trans (hid.trans hkey.symm), hsel⟩, ?_⟩
      intro other _ hk hother
      exact Bool.and_eq_true_iff.mpr ⟨beq_iff_eq.mpr hk, beq_iff_eq.mpr (hother.trans hkey)⟩
  | bySourcePrefix kind start =>
      have hboth := Bool.and_eq_true_iff.mp hsel
      refine (mem_gates_filter (fun _ _ => selects_kind (by simp)) rfl).trans
        (and_congr_right fun _ => and_congr_right fun _ => iff_of_false ?_ fun h => h trivial)
      refine fun h => h ⟨hdocument.symm.trans (beq_iff_eq.mp hboth.1), ?_⟩
      exact startsWith_gateKey (hsource ▸ hboth.2) version
  | byOwner kind owner =>
      exact (mem_gates_filter (fun _ _ => selects_kind (by simp)) rfl).trans
        Iff.rfl
  | byId chunkId =>
      have hfound : store.db.getChunk chunkId = some chunk := by
        have hid : chunk.id = chunkId := beq_iff_eq.mp hsel
        rw [SummaryTree.Db.getChunk, ← hid]
        exact Table.lookup_of_mem hids hchunk
      rw [DeleteRequest.run, deleteChunkById, hfound]
      refine (mem_gates_filter (fun other hother h => ?_) rfl).trans Iff.rfl
      have hid : other.id = chunk.id := (beq_iff_eq.mp h).trans (beq_iff_eq.mp hsel).symm
      rw [Table.eq_of_pk_eq hids hother hchunk hid]
  | orphanedTree kind id => cases hsel
  | purge =>
      refine iff_of_false List.not_mem_nil fun h => h.2.2 trivial

/-- After a request that deleted chunks of a source, its last one in particular, an ingest of the source
goes through exactly when the source has no gate, or the gate was not there, or it went with the request. -/
theorem delete_reopens_iff (config : QueueConfig) {store : Store}
    (hids : (store.db.chunks.map Chunk.id).Nodup) (jobs : List JobRow) (request : DeleteRequest)
    {call : IngestCall} (hscored : call.Scored)
    (hdelete : DeletesFrom request store call.sourceKind call.sourceId) :
    Writes call (ingestSource config call (storeDb (request.run store) jobs)) ↔
      call.sourceKind ≠ .document ∨
        (SourceKind.document, call.gateKey) ∉ store.ingested.map IngestedSource.key ∨
        ClearsVersions request ∨ DeletesLast request store .document call.gateKey := by
  rw [ingestSource_writes_iff config hscored]
  by_cases hkind : call.sourceKind = .document
  · rw [hkind] at hdelete
    have hgate := mem_gates_run hids call.gateVersionMs hdelete
    rw [← IngestCall.gateKey] at hgate
    rw [storeDb, hgate]
    tauto
  · exact iff_of_true (Or.inl hkind) (Or.inl hkind)

end Requests

/-- A document at a version, and the store that its ingest leaves. -/
def revision : IngestCall :=
  ⟨.document, "doc", [(⟨"c1", .document, "doc", none, 0, 0, 0, 10, 0, .admitted⟩, "job:1")], [true],
    some 1, 0⟩

def revisionStore : Store where
  db :=
    { trees := []
      chunks := [⟨"c1", .document, "doc", none, 0, 0, 0, 10, 0, .pendingExtraction⟩]
      summaries := []
      buffers := [] }
  columns := fun _ => ⟨"me", none, .empty⟩
  summaryPath := fun _ => none
  ingested := [⟨.document, "doc@1", 0⟩]
  rawGates := []
  files := []

/-- Deleting the source leaves the gate of its version, and the document stays out. -/
theorem revision_not_readmitted :
    (∃ jobs summary, ingestSource .default revision ⟨[], [], []⟩ =
      .ok (storeDb revisionStore jobs, summary)) ∧
    DeletesLast (.bySource .document "doc") revisionStore .document "doc" ∧
      ∀ jobs, ¬Writes revision (ingestSource .default revision
        (storeDb ((DeleteRequest.bySource .document "doc").run revisionStore) jobs)) := by
  refine ⟨⟨_, _, rfl⟩, ⟨⟨_, List.mem_cons_self, rfl, rfl, by decide⟩, by decide⟩, ?_⟩
  rintro jobs ⟨next, summary, hok, hadmits, -⟩
  have hrefused : ingestSource .default revision
      (storeDb ((DeleteRequest.bySource .document "doc").run revisionStore) jobs) =
      .ok (storeDb ((DeleteRequest.bySource .document "doc").run revisionStore) jobs,
        .ofIngested "doc") := rfl
  obtain ⟨-, rfl⟩ := Prod.mk.inj (Except.ok.inj (hrefused.symm.trans hok))
  cases hadmits

theorem delete_reopens_iff_prefix :
    Writes revision (ingestSource .default revision
        (storeDb ((DeleteRequest.bySourcePrefix .document "d").run revisionStore) [])) := by
  refine (delete_reopens_iff .default (by decide) [] _ ⟨by decide, by decide⟩ ?_).mpr
    (Or.inr (Or.inr (Or.inl trivial)))
  exact ⟨_, List.mem_cons_self, rfl, rfl, by decide⟩

end TinyCortex.Ingest
