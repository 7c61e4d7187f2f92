import TinyCortex.Lib.Machine
import TinyCortex.Ingest.Pipeline

/-! Re-ingest never regresses. Ingest calls, lifecycle transitions of chunks and every call on the job
queue interleave in any order; each is one transaction. The gate check that a versioned document ingest
makes before it canonicalises only reads, so it shows in a run as a call that is not made. -/

namespace TinyCortex.Ingest

open Chunks Queue

/-- The stores, and every document ingest that was admitted: its source and version. -/
structure World where
  chunks : List Chunk
  ingested : List IngestedSource
  queue : Queue.World
  admitted : List (String × Option Int)
  deriving DecidableEq, Repr

def World.empty : World := ⟨[], [], .empty, []⟩

def World.db (w : World) : Db := ⟨w.chunks, w.ingested, w.queue.jobs⟩

inductive Label
  | ingest (call : IngestCall)
  /-- `set_chunk_lifecycle_status`, by which a worker moves a chunk on. -/
  | setLifecycle (chunkId : String) (status : ChunkStatus)
  | work (label : Queue.Label)
  deriving DecidableEq, Repr

/-- The document ingest a call is, as the list of admitted ones records it. -/
def IngestCall.document (call : IngestCall) : List (String × Option Int) :=
  if call.sourceKind = .document then [(call.sourceId, call.gateVersionMs)] else []

def advance (config : QueueConfig) (w : World) : Label → World
  | .ingest call =>
      match ingestCanonical config call w.db with
      | .ok (db, summary) =>
          { chunks := db.chunks
            ingested := db.ingested
            queue := { w.queue with jobs := db.jobs }
            admitted := if summary.admits then w.admitted ++ call.document else w.admitted }
      | .error _ => w
  | .setLifecycle chunkId status =>
      match setChunkLifecycleStatus chunkId status w.chunks with
      | .ok chunks => { w with chunks := chunks }
      | .error _ => w
  | .work label => { w with queue := Queue.advance config w.queue label }

/-- Ingest calls, workers and maintenance over an empty database. -/
def ingest (config : QueueConfig) : Machine World Label := ⟨World.empty, advance config⟩

/-- New jobs come from the constructors of `queue/types.rs`, and the UUIDs of extract jobs are new. -/
def Legal (w : World) : Label → Prop
  | .ingest call => call.MintsFresh w.queue.jobs
  | .setLifecycle _ _ => True
  | .work label => ∀ job ∈ label.op.newJobs, job.Keyed

def World.status (w : World) (chunkId : String) : Option ChunkStatus :=
  getChunkLifecycleStatus chunkId w.chunks

/-- An ingest leaves a chunk that is past extraction where it is. -/
def NeverRegresses (config : QueueConfig) (w : World) : Label → Prop
  | .ingest call => ∀ id status, w.status id = some status → status ≠ .pendingExtraction →
      (advance config w (.ingest call)).status id = some status
  | _ => True

/-- The ingest transaction commits. -/
def Commits (config : QueueConfig) (w : World) (call : IngestCall) : Prop :=
  ∃ db summary, ingestCanonical config call w.db = .ok (db, summary) ∧ summary.admits

/-- Each chunk that an ingest makes pending, or finds pending and commits as such, has an active
extract job after it. -/
def PendingScheduled (config : QueueConfig) (w : World) : Label → Prop
  | .ingest call => ∀ id,
      (advance config w (.ingest call)).status id = some .pendingExtraction →
      w.status id ≠ some .pendingExtraction ∨
        (Commits config w call ∧ id ∈ call.chunks.map Chunk.id) →
      activeExtracts id (advance config w (.ingest call)).queue.jobs ≠ []
  | _ => True

/-- Each chunk has at most one active extract job. -/
def OneExtract (w : World) : Prop := ∀ chunkId, (activeExtracts chunkId w.queue.jobs).length ≤ 1

/-- No document version was admitted twice. -/
def AdmittedOnce (w : World) : Prop := w.admitted.Nodup

/-- The gate key of an admitted document is on record, each version is there once, and the queue is
well formed. -/
structure IngestOk (w : World) : Prop where
  gated : ∀ document ∈ w.admitted, (SourceKind.document, gateKey document.1 document.2) ∈
    w.ingested.map IngestedSource.key
  once : w.admitted.Nodup
  valid : TableValid w.queue.jobs
  keyed : WellKeyed w.queue.jobs

theorem ingestOk_empty : IngestOk World.empty :=
  ⟨fun _ h => absurd h List.not_mem_nil, List.nodup_nil, tableValid_nil,
    fun _ h => absurd h List.not_mem_nil⟩

/-- What an ingest does to the world: nothing, or what the transaction commits. -/
theorem advance_ingest_cases (config : QueueConfig) (w : World) (call : IngestCall) :
    (advance config w (.ingest call) = w ∧ ¬Commits config w call) ∨
    ((advance config w (.ingest call)).admitted = w.admitted ++ call.document ∧
      Persisted call w.db (advance config w (.ingest call)).db) := by
  rcases ingestCanonical_cases config call w.db with
    ⟨error, heq⟩ | ⟨summary, heq, hadmits⟩ | ⟨next, summary, heq, hadmits, hpersisted⟩
  · refine Or.inl ⟨by simp only [advance, heq], ?_⟩
    rintro ⟨db, summary, hok, -⟩
    cases heq.symm.trans hok
  · refine Or.inl ⟨by simp only [advance, heq, hadmits]; rfl, ?_⟩
    rintro ⟨db, summary', hok, hadmits'⟩
    obtain ⟨-, rfl⟩ := Prod.mk.inj (Except.ok.inj (heq.symm.trans hok))
    exact Bool.false_ne_true (hadmits.symm.trans hadmits')
  · refine Or.inr ?_
    simp only [advance, heq, hadmits]
    exact ⟨rfl, hpersisted⟩

/-- The gate opens once for each key. -/
theorem passGate_document {call : IngestCall} {ingested next : List IngestedSource}
    (hdocument : call.sourceKind = .document) (h : passGate call ingested = (next, true)) :
    (SourceKind.document, call.gateKey) ∉ ingested.map IngestedSource.key ∧
      (SourceKind.document, call.gateKey) ∈ next.map IngestedSource.key := by
  simp only [passGate, hdocument, claimSourceIngest] at h
  obtain ⟨rfl, hfresh⟩ := Prod.mk.inj h
  have hnot := of_decide_eq_true hfresh
  refine ⟨hnot, ?_⟩
  rw [Table.insertOrIgnore_of_fresh hnot, List.map_append]
  exact List.mem_append_right _ List.mem_cons_self

theorem passGate_subset {call : IngestCall} {ingested next : List IngestedSource} {claimed : Bool}
    (h : passGate call ingested = (next, claimed)) : ingested ⊆ next := by
  cases hkind : call.sourceKind with
  | document =>
      simp only [passGate, hkind, claimSourceIngest] at h
      obtain ⟨rfl, -⟩ := Prod.mk.inj h
      exact Table.subset_insertOrIgnore _ _
  | chat | email =>
      simp only [passGate, hkind] at h
      obtain ⟨rfl, -⟩ := Prod.mk.inj h
      exact List.Subset.refl _

theorem ingestOk_ingest {config : QueueConfig} {w : World} {call : IngestCall} (h : IngestOk w) :
    IngestOk (advance config w (.ingest call)) := by
  rcases advance_ingest_cases config w call with ⟨heq, -⟩ | ⟨hadmitted, hpersisted⟩
  · rw [heq]
    exact h
  · generalize advance config w (.ingest call) = next at hadmitted hpersisted ⊢
    have hgrown := List.map_subset IngestedSource.key (passGate_subset hpersisted.gate)
    refine ⟨?_, ?_, hpersisted.valid h.valid, hpersisted.keyed h.keyed⟩
    · intro document hdocument
      rw [hadmitted, IngestCall.document] at hdocument
      rcases List.mem_append.mp hdocument with hold | hnew
      · exact hgrown (h.gated document hold)
      · split_ifs at hnew with hkind
        · obtain rfl := List.mem_singleton.mp hnew
          exact (passGate_document hkind hpersisted.gate).2
        · exact absurd hnew List.not_mem_nil
    · rw [hadmitted, IngestCall.document]
      split_ifs with hkind
      · refine List.nodup_append.mpr ⟨h.once, List.nodup_singleton _, ?_⟩
        rintro document hold _ hnew rfl
        obtain rfl := List.mem_singleton.mp hnew
        exact (passGate_document hkind hpersisted.gate).1 (h.gated _ hold)
      · rw [List.append_nil]
        exact h.once

theorem ingestOk_advance {config : QueueConfig} {w : World} {label : Label} (h : IngestOk w)
    (hlegal : Legal w label) : IngestOk (advance config w label) := by
  cases label with
  | ingest call => exact ingestOk_ingest h
  | setLifecycle chunkId status =>
      simp only [advance]
      split
      · exact ⟨h.gated, h.once, h.valid, h.keyed⟩
      · exact h
  | work label =>
      exact ⟨h.gated, h.once, Queue.advance_valid h.valid, wellKeyed_advance h.keyed hlegal⟩

theorem neverRegresses_advance {config : QueueConfig} {w : World} (label : Label) :
    NeverRegresses config w label := by
  cases label with
  | setLifecycle | work => exact trivial
  | ingest call =>
      intro id status hstatus hpast
      rcases advance_ingest_cases config w call with ⟨heq, -⟩ | ⟨-, hpersisted⟩
      · rw [heq]
        exact hstatus
      · have hbefore : getChunkLifecycleStatus id w.db.chunks = some status := hstatus
        have hafter := hpersisted.status id
        rw [hbefore, Option.getD_some, ite_self] at hafter
        exact hafter

theorem pendingScheduled_advance {config : QueueConfig} {w : World} {label : Label}
    (h : IngestOk w) (hlegal : Legal w label) : PendingScheduled config w label := by
  cases label with
  | setLifecycle | work => exact trivial
  | ingest call =>
      intro id hpending henters
      rcases advance_ingest_cases config w call with ⟨heq, hnot⟩ | ⟨-, hpersisted⟩
      · rw [heq] at hpending
        exact absurd henters (not_or.mpr ⟨not_not.mpr hpending, fun hc => hnot hc.1⟩)
      · have hmem : id ∈ call.chunks.map Chunk.id := by
          refine henters.elim (fun hbefore => ?_) And.right
          by_contra hout
          have hafter := hpersisted.status id
          rw [if_neg hout] at hafter
          exact hbefore (hafter.symm.trans hpending)
        exact activeExtracts_ne_nil (hpersisted.keyed h.keyed)
          (hpersisted.scheduled h.valid hlegal id hmem hpending)

/-- In every run each chunk has at most one active extract job and each document version is admitted at
most once, and every ingest leaves chunks past extraction alone and its pending chunks with an active
extract job. -/
theorem reingest_run (config : QueueConfig) (labels : List Label)
    (hlegal : (ingest config).AllSteps Legal labels) :
    (ingest config).Throughout (fun w => OneExtract w ∧ AdmittedOnce w) labels ∧
      (ingest config).AllSteps (fun w label => NeverRegresses config w label ∧
        PendingScheduled config w label) labels := by
  have hstep : ∀ w label, IngestOk w → Legal w label → IngestOk ((ingest config).step w label) :=
    fun _ _ h hl => ingestOk_advance h hl
  refine ⟨(ingest config).throughout_of_steps ingestOk_empty hstep
    (fun w h => ⟨fun _ => activeExtracts_le_one h.valid h.keyed, h.once⟩) hlegal, ?_⟩
  intro done label rest heq
  have hbefore : (ingest config).AllSteps Legal done := by
    refine hlegal.of_prefix _ ?_
    rw [heq]
    exact List.prefix_append _ _
  exact ⟨neverRegresses_advance label, pendingScheduled_advance
    ((ingest config).invariant_of_steps ingestOk_empty hstep hbefore) (hlegal done label rest heq)⟩

/-- A chat delivery, its extraction and admission, and a second delivery that overlaps it. -/
theorem reingest_run_overlap :
    let chunk : String → Chunk := fun id => ⟨id, .chat, "chat", none, 0, 0, 0, 10, 0, .admitted⟩
    let deliver : List (Chunk × String) → Label := fun minted =>
      .ingest ⟨.chat, "chat", minted, minted.map fun _ => true, none, 1⟩
    let config := QueueConfig.default
    let labels : List Label :=
      [deliver [(chunk "a", "job:1"), (chunk "b", "job:2")], .work ⟨1, .claimNext 1000⟩,
        .setLifecycle "a" .admitted, .work ⟨1, .settle 0 (.done [])⟩,
        deliver [(chunk "a", "job:3"), (chunk "b", "job:4"), (chunk "c", "job:5")]]
    (ingest config).Throughout (fun w => OneExtract w ∧ AdmittedOnce w) labels ∧
      (ingest config).AllSteps (fun w label => NeverRegresses config w label ∧
        PendingScheduled config w label) labels := by
  intro chunk deliver config labels
  refine reingest_run config labels ((ingest config).allSteps_iff_stepsFrom.mpr ?_)
  refine ⟨⟨by decide, by decide⟩, ?_, trivial, ?_, ⟨by decide, by decide⟩, trivial⟩
  all_goals exact fun _ h => absurd h List.not_mem_nil

end TinyCortex.Ingest
