import TinyCortex.Lib.Machine
import TinyCortex.Queue.Types
import TinyCortex.Queue.StoreSettle
import TinyCortex.Tree.BucketSeal

/-! Producers and seal workers over one database (`queue/worker.rs`, `queue/handlers.rs`). A producer
appends a leaf, reads the gate and enqueues the level-0 seal; a worker claims a seal job, runs the
`seal_level` delegate (snapshot, commit, a look at the parent's gate), settles the job done with its
follow-up, and re-checks the level it has just released. Every database access is a step of its own,
and nothing crashes. A handler that fails does not settle done: it stays where it failed. -/

namespace TinyCortex.Worker

open Queue SummaryTree

/-- A caller of `append_leaf_deferred` between its database accesses. -/
inductive Producer
  | checking (treeId : String)
  | enqueuing (treeId : String)
  | finished
  deriving DecidableEq, Repr

/-- How far a worker has come with its seal job. -/
inductive Phase
  | claimed
  | sealing (snapshot : Buffer) (inputs : List SummaryInput)
  /-- Committed; the delegate has yet to look at the parent's gate. -/
  | committed
  | planned (followUp : Option SealPayload)
  /-- Marked done; `get_job`, `get_buffer` and `enqueue` of the re-check follow. -/
  | settled
  | rechecking
  | rearming
  | finished
  deriving DecidableEq, Repr

structure SealWorker where
  job : Job
  payload : SealPayload
  phase : Phase
  deriving DecidableEq, Repr

structure World where
  db : Db
  jobs : List JobRow
  producers : List Producer
  workers : List SealWorker
  deriving DecidableEq, Repr

structure Config where
  tree : TreeConfig
  queue : QueueConfig
  deriving DecidableEq, Repr

inductive Label
  | append (treeId chunkId : String) (tokenCount : Nat) (timestampMs : Int)
  | checkGate (producer : Nat)
  | enqueueSeal (producer : Nat) (jobId : String) (nowMs : Int)
  | claim (nowMs lockDurationMs : Int)
  /-- The delegate reads the buffer and seals it, or leaves it alone. -/
  | snapshot (worker : Nat) (skip : Bool)
  | commit (worker : Nat) (summaryId : String) (tokenCount : Nat) (nowMs : Int)
      (enqueueFollowUps : Bool) (jobId : String)
  | checkParent (worker : Nat)
  | settle (worker : Nat) (nowMs : Int) (jobId : String)
  | getJob (worker : Nat)
  | recheckGate (worker : Nat)
  | rearm (worker : Nat) (jobId : String) (nowMs : Int)
  deriving DecidableEq, Repr

namespace World

def setProducer (w : World) (i : Nat) (producer : Producer) : World :=
  { w with producers := w.producers.set i producer }

def setPhase (w : World) (i : Nat) (worker : SealWorker) (phase : Phase) : World :=
  { w with workers := w.workers.set i { worker with phase := phase } }

def enqueue (config : Config) (w : World) (jobId : String) (nowMs : Int) (payload : SealPayload) :
    World :=
  { w with jobs := (enqueueConn jobId nowMs (.seal payload) config.queue.maxAttempts w.jobs).1 }

def stepProducer (config : Config) (w : World) (i : Nat) : Producer → Label → World
  | .checking treeId, .checkGate _ =>
      if shouldSeal config.tree (w.db.getBuffer treeId 0) then w.setProducer i (.enqueuing treeId)
      else w.setProducer i .finished
  | .enqueuing treeId, .enqueueSeal _ jobId nowMs =>
      (w.enqueue config jobId nowMs ⟨treeId, 0, none⟩).setProducer i .finished
  | _, _ => w

/-- The worker's snapshot: what is left to do when it leaves the buffer alone is to settle. -/
def stepSnapshot (w : World) (i : Nat) (worker : SealWorker) (skip : Bool) : World :=
  let buf := w.db.getBuffer worker.payload.treeId worker.payload.level
  if skip then w.setPhase i worker (.planned none)
  else
    match sealInputs w.db buf with
    | .ok inputs => w.setPhase i worker (.sealing buf inputs)
    | .error _ => w

/-- The commit of the worker's seal; a parent seal enqueued in the transaction needs no follow-up. -/
def stepCommit (config : Config) (w : World) (i : Nat) (worker : SealWorker) (snapshot : Buffer)
    (inputs : List SummaryInput) (summaryId : String) (tokenCount : Nat) (nowMs : Int)
    (enqueueFollowUps : Bool) (jobId : String) : World :=
  match commitSeal config.tree snapshot (sealedNode snapshot inputs summaryId tokenCount nowMs) nowMs
      enqueueFollowUps w.db with
  | .ok (db, some parent) =>
      ({ w with db := db }.enqueue config jobId nowMs parent).setPhase i worker (.planned none)
  | .ok (db, none) =>
      { w with db := db }.setPhase i worker
        (if enqueueFollowUps then .planned none else .committed)
  | .error _ => w

def stepSettle (config : Config) (w : World) (i : Nat) (worker : SealWorker)
    (followUp : Option SealPayload) (nowMs : Int) (jobId : String) : World :=
  match markDoneWithFollowups config.queue nowMs worker.job
      (followUp.toList.map fun parent => (jobId, NewJob.seal parent)) w.jobs with
  | .ok (jobs, _) => { w with jobs := jobs }.setPhase i worker .settled
  | .error _ => w

def stepWorker (config : Config) (w : World) (i : Nat) (worker : SealWorker) : Phase → Label → World
  | .claimed, .snapshot _ skip => w.stepSnapshot i worker skip
  | .sealing snapshot inputs, .commit _ summaryId tokenCount nowMs enqueueFollowUps jobId =>
      w.stepCommit config i worker snapshot inputs summaryId tokenCount nowMs enqueueFollowUps jobId
  | .committed, .checkParent _ =>
      let parent : SealPayload := ⟨worker.payload.treeId, worker.payload.level + 1, none⟩
      if shouldSeal config.tree (w.db.getBuffer parent.treeId parent.level) then
        w.setPhase i worker (.planned (some parent))
      else w.setPhase i worker (.planned none)
  | .planned followUp, .settle _ nowMs jobId => w.stepSettle config i worker followUp nowMs jobId
  | .settled, .getJob _ =>
      match Table.lookup JobRow.id worker.job.id w.jobs with
      | some row =>
          if row.status = .done then w.setPhase i worker .rechecking
          else w.setPhase i worker .finished
      | none => w.setPhase i worker .finished
  | .rechecking, .recheckGate _ =>
      if shouldSeal config.tree (w.db.getBuffer worker.payload.treeId worker.payload.level) then
        w.setPhase i worker .rearming
      else w.setPhase i worker .finished
  | .rearming, .rearm _ jobId nowMs =>
      (w.enqueue config jobId nowMs worker.payload).setPhase i worker .finished
  | _, _ => w

/-- Append a leaf: a landed append has the gate still to check. -/
def stepAppend (w : World) (treeId chunkId : String) (tokenCount : Nat)
    (timestampMs : Int) : World :=
  match appendToBuffer treeId 0 chunkId tokenCount timestampMs w.db with
  | .ok db => { w with db := db, producers := w.producers ++ [.checking treeId] }
  | .error _ => w

/-- Claim the next due job; a seal job starts a worker. -/
def stepClaim (w : World) (nowMs lockDurationMs : Int) : World :=
  match claimNext nowMs lockDurationMs w.jobs with
  | .ok (jobs, some job) =>
      match job.payload with
      | .seal payload => { w with jobs := jobs, workers := w.workers ++ [⟨job, payload, .claimed⟩] }
      | _ => w
  | _ => w

end World

/-- The producer or worker a label is about. -/
def Label.actor : Label → Nat
  | .checkGate i | .enqueueSeal i _ _ | .snapshot i _ | .commit i _ _ _ _ _ | .checkParent i
  | .settle i _ _ | .getJob i | .recheckGate i | .rearm i _ _ => i
  | .append _ _ _ _ | .claim _ _ => 0

def advance (config : Config) (w : World) (label : Label) : World :=
  match label with
  | .append treeId chunkId tokenCount timestampMs =>
      w.stepAppend treeId chunkId tokenCount timestampMs
  | .claim nowMs lockDurationMs => w.stepClaim nowMs lockDurationMs
  | .checkGate _ | .enqueueSeal _ _ _ =>
      match w.producers[label.actor]? with
      | some producer => w.stepProducer config label.actor producer label
      | none => w
  | _ =>
      match w.workers[label.actor]? with
      | some worker => w.stepWorker config label.actor worker worker.phase label
      | none => w

def World.empty (trees : List Tree) (chunks : List Chunks.Chunk) : World :=
  ⟨⟨trees, chunks, [], []⟩, [], [], []⟩

/-- Producers and seal workers in any order, on freshly created trees and an empty queue. -/
def sealQueue (config : Config) (trees : List Tree) (chunks : List Chunks.Chunk) :
    Machine World Label := ⟨World.empty trees chunks, advance config⟩

/-- Undisturbed, the append step and the gate check are `append_leaf_deferred`. -/
theorem appendLeafDeferred_steps {config : Config} {w : World} {treeId chunkId : String}
    {tokenCount : Nat} {timestampMs : Int} {db : Db} {gate : Bool}
    (h : appendLeafDeferred config.tree treeId chunkId tokenCount timestampMs w.db = .ok (db, gate)) :
    advance config (advance config w (.append treeId chunkId tokenCount timestampMs))
        (.checkGate w.producers.length) =
      { w with
        db := db
        producers := w.producers ++ [if gate then .enqueuing treeId else .finished] } := by
  obtain ⟨next, happend, h⟩ := Fallible.bind_ok_iff.mp h
  obtain ⟨rfl, rfl⟩ := Prod.mk.inj (Except.ok.inj h)
  simp only [advance, World.stepAppend, happend, Label.actor, List.getElem?_concat_length,
    World.stepProducer, World.setProducer]
  split_ifs <;> simp

end TinyCortex.Worker
