import TinyCortex.Lib.Log
import TinyCortex.Worker.SealWorld

/-! No seal edge is lost. Whenever a buffer crosses its gate, an active seal job for the level exists,
or some producer or worker is still on its way to enqueue one. A producer whose enqueue was swallowed
by the dedupe key leaves the edge to the worker that holds the key, and that worker re-checks the
gate after it has released the key. -/

namespace TinyCortex.Worker

open Queue SummaryTree Table

/-- The dedupe key of the seal of `(treeId, level)`. -/
def sealKey (treeId : String) (level : Nat) : String := SealPayload.dedupeKey ⟨treeId, level, none⟩

/-- Every job is a seal job under its own key, and is claimed at most once. -/
structure QueueOk (jobs : List JobRow) : Prop where
  valid : TableValid jobs
  seals : ∀ row ∈ jobs, ∃ payload, row.payload = .seal payload ∧ row.kind = .live .seal ∧
    row.dedupeKey = some payload.dedupeKey
  unclaimed : ∀ row ∈ jobs, row.status = .ready → row.attempts = 0

def Phase.unsettled : Phase → Bool
  | .claimed | .sealing _ _ | .committed | .planned _ => true
  | .settled | .rechecking | .rearming | .finished => false

/-- The worker's row: running under its claim token until it is settled, done from then on. -/
def SealWorker.OwnsRow (jobs : List JobRow) (worker : SealWorker) : Prop :=
  ∃ row ∈ jobs, row.id = worker.job.id ∧ row.payload = .seal worker.payload ∧
    if worker.phase.unsettled then row.status = .running ∧ worker.job.matchesRow row
    else row.status = .done

structure WorkersOk (w : World) : Prop where
  queue : QueueOk w.jobs
  owns : ∀ worker ∈ w.workers, worker.OwnsRow w.jobs
  distinct : (w.workers.map fun worker => worker.job.id).Nodup
  snapshots : ∀ worker ∈ w.workers, ∀ snapshot inputs, worker.phase = .sealing snapshot inputs →
    snapshot.treeId = worker.payload.treeId ∧ snapshot.level = worker.payload.level

/-- The producer is on its way to enqueue the seal of `(treeId, level)`, should its gate be met. -/
def Producer.Owes (treeId : String) (level : Nat) : Producer → Prop
  | .checking tree | .enqueuing tree => tree = treeId ∧ level = 0
  | .finished => False

/-- The worker is on its way to enqueue the seal of `(treeId, level)`, should its gate be met. -/
def SealWorker.Owes (worker : SealWorker) (treeId : String) (level : Nat) : Prop :=
  match worker.phase with
  | .committed => worker.payload.treeId = treeId ∧ worker.payload.level + 1 = level
  | .planned (some parent) => parent.treeId = treeId ∧ parent.level = level
  | .settled | .rechecking | .rearming => worker.payload.treeId = treeId ∧ worker.payload.level = level
  | _ => False

/-- The seal edge of `(treeId, level)` is covered: enqueued, or owed by someone mid-step. -/
def Covered (w : World) (treeId : String) (level : Nat) : Prop :=
  sealKey treeId level ∈ activeKeys w.jobs ∨
    (∃ producer ∈ w.producers, producer.Owes treeId level) ∨
    ∃ worker ∈ w.workers, worker.Owes treeId level

/-- The edge invariant: a buffer over its gate is covered. -/
def EdgesCovered (config : Config) (w : World) : Prop :=
  ∀ treeId level, shouldSeal config.tree (w.db.getBuffer treeId level) → Covered w treeId level

/-- No producer and no worker is mid-step. -/
def Quiescent (w : World) : Prop :=
  (∀ producer ∈ w.producers, producer = .finished) ∧ ∀ worker ∈ w.workers, worker.phase = .finished

/-- When nobody is mid-step, a buffer over its gate has a ready or running seal job. -/
def NoLostEdge (config : Config) (w : World) : Prop :=
  Quiescent w → ∀ treeId level, shouldSeal config.tree (w.db.getBuffer treeId level) →
    ∃ row ∈ w.jobs, row.status.isActive ∧ row.kind = .live .seal ∧
      ∃ payload, row.payload = .seal payload ∧ payload.treeId = treeId ∧ payload.level = level

/-- The UUIDs minted for new jobs are unused. -/
def MintsFreshJob (w : World) : Label → Prop
  | .enqueueSeal _ jobId _ | .commit _ _ _ _ _ jobId | .settle _ _ jobId | .rearm _ jobId _ =>
      jobId ∉ w.jobs.map JobRow.id
  | _ => True

instance (w : World) : ∀ label, Decidable (MintsFreshJob w label)
  | .enqueueSeal _ jobId _ | .commit _ _ _ _ _ jobId | .settle _ _ jobId | .rearm _ jobId _ =>
      inferInstanceAs (Decidable (jobId ∉ w.jobs.map JobRow.id))
  | .append _ _ _ _ | .checkGate _ | .claim _ _ | .snapshot _ _ | .checkParent _ | .getJob _
  | .recheckGate _ => isTrue trivial

theorem sealKey_eq (payload : SealPayload) :
    sealKey payload.treeId payload.level = payload.dedupeKey :=
  SealPayload.dedupeKey_congr rfl rfl

theorem activeKeys_mono {jobs jobs' : List JobRow} (h : jobs ⊆ jobs') :
    activeKeys jobs ⊆ activeKeys jobs' := by
  intro key hkey
  obtain ⟨row, hrow, hactive⟩ := mem_keys.mp hkey
  exact mem_keys.mpr ⟨row, h hrow, hactive⟩

/-! ### The queue under enqueue, claim and settle -/

theorem QueueOk.enqueue {jobs : List JobRow} (h : QueueOk jobs) (jobId : String) (nowMs : Int)
    (payload : SealPayload) (maxAttempts : Nat) :
    QueueOk (enqueueConn jobId nowMs (.seal payload) maxAttempts jobs).1 where
  valid := h.valid.enqueueConn
  seals := by
    intro row hrow
    rcases mem_enqueueConn hrow with hold | ⟨rfl, -⟩
    · exact h.seals row hold
    · exact ⟨payload, rfl, rfl, rfl⟩
  unclaimed := by
    intro row hrow hready
    rcases mem_enqueueConn hrow with hold | ⟨rfl, -⟩
    · exact h.unclaimed row hold hready
    · rfl

theorem SealWorker.OwnsRow.mono {jobs jobs' : List JobRow} {worker : SealWorker} (h : jobs ⊆ jobs')
    (howns : worker.OwnsRow jobs) : worker.OwnsRow jobs' := by
  obtain ⟨row, hrow, hrest⟩ := howns
  exact ⟨row, h hrow, hrest⟩

theorem WorkersOk.enqueue {w : World} (h : WorkersOk w) (config : Config) (jobId : String)
    (nowMs : Int) (payload : SealPayload) : WorkersOk (w.enqueue config jobId nowMs payload) where
  queue := h.queue.enqueue jobId nowMs payload _
  owns := fun worker hworker => (h.owns worker hworker).mono subset_enqueueConn
  distinct := h.distinct
  snapshots := h.snapshots

/-- A phase change leaves the worker's job alone. -/
theorem jobIds_setPhase {w : World} {i : Nat} {worker : SealWorker}
    (hi : w.workers[i]? = some worker) (phase : Phase) :
    (w.workers.set i { worker with phase := phase }).map (fun worker => worker.job.id) =
      w.workers.map fun worker => worker.job.id := by
  refine List.ext_getElem? fun j => ?_
  rw [List.getElem?_map, List.getElem?_map]
  by_cases hj : j = i
  · rw [hj, Log.getElem?_set_self_of_some hi, hi]
    rfl
  · rw [Log.getElem?_set_of_ne hj]

/-- A worker whose phase changes on the same side of its settlement keeps its row. -/
theorem WorkersOk.setPhase {w : World} (h : WorkersOk w) {i : Nat} {worker : SealWorker}
    (hi : w.workers[i]? = some worker) {phase : Phase}
    (hside : phase.unsettled = worker.phase.unsettled)
    (hsnapshot : ∀ snapshot inputs, phase = .sealing snapshot inputs →
      snapshot.treeId = worker.payload.treeId ∧ snapshot.level = worker.payload.level) :
    WorkersOk (w.setPhase i worker phase) := by
  have hmem := List.mem_of_getElem? hi
  refine ⟨h.queue, fun other hother => ?_, ?_, fun other hother => ?_⟩
  · rcases List.mem_or_eq_of_mem_set hother with hold | rfl
    · exact h.owns other hold
    · obtain ⟨row, hrow, hid, hpayload, hstatus⟩ := h.owns worker hmem
      exact ⟨row, hrow, hid, hpayload, by rw [hside]; exact hstatus⟩
  · rw [World.setPhase, jobIds_setPhase hi]
    exact h.distinct
  · rcases List.mem_or_eq_of_mem_set hother with hold | rfl
    · exact h.snapshots other hold
    · exact hsnapshot

/-- Claiming the next due job starts a worker that owns a running row. -/
theorem WorkersOk.claim {w : World} (h : WorkersOk w) {row : JobRow} {nowMs lockUntil : Int}
    (hmem : row ∈ w.jobs) (hready : row.status = .ready)
    (hvalid : TableValid (update (·.id == row.id) (·.claim nowMs lockUntil) w.jobs))
    {payload : SealPayload} (hpayload : row.payload = .seal payload) :
    WorkersOk { w with
      jobs := update (·.id == row.id) (·.claim nowMs lockUntil) w.jobs
      workers := w.workers ++ [⟨rowToJob (row.claim nowMs lockUntil), payload, .claimed⟩] } := by
  have hother : ∀ worker ∈ w.workers, worker.job.id ≠ row.id := by
    intro worker hworker heq
    obtain ⟨r, hr, hid, -, hstatus⟩ := h.owns worker hworker
    obtain rfl := eq_of_pk_eq h.queue.valid.ids hr hmem (hid.trans heq)
    split_ifs at hstatus
    · rw [hready] at hstatus
      cases hstatus.1
    · rw [hready] at hstatus
      cases hstatus
  refine ⟨⟨hvalid, fun r hr => ?_, fun r hr hrReady => ?_⟩, fun worker hworker => ?_, ?_,
    fun worker hworker => ?_⟩
  · rcases mem_update.mp hr with ⟨s, hs, -, rfl⟩ | ⟨hs, -⟩
    · exact h.queue.seals s hs
    · exact h.queue.seals r hs
  · rcases mem_update.mp hr with ⟨s, -, -, rfl⟩ | ⟨hs, -⟩
    · cases hrReady
    · exact h.queue.unclaimed r hs hrReady
  · rcases List.mem_append.mp hworker with hold | hnew
    · obtain ⟨r, hr, hid, hrest⟩ := h.owns worker hold
      refine ⟨r, mem_update.mpr (Or.inr ⟨hr, ?_⟩), hid, hrest⟩
      rw [beq_iff_eq, hid]
      exact hother worker hold
    · rw [List.mem_singleton.mp hnew]
      refine ⟨row.claim nowMs lockUntil, mem_update.mpr (Or.inl ⟨row, hmem, beq_self_eq_true _, rfl⟩),
        rfl, hpayload, ?_⟩
      refine ⟨rfl, matchesRow_iff.mpr ⟨rfl, ?_, rfl⟩⟩
      simp only [rowToJob, JobRow.claim, h.queue.unclaimed row hmem hready]
      decide
  · rw [List.map_append, List.nodup_append]
    refine ⟨h.distinct, List.nodup_singleton _, fun a ha b hb => ?_⟩
    rw [List.map_singleton, List.mem_singleton] at hb
    obtain ⟨worker, hworker, rfl⟩ := List.mem_map.mp ha
    rw [hb]
    exact hother worker hworker
  · rcases List.mem_append.mp hworker with hold | hnew
    · exact h.snapshots worker hold
    · rw [List.mem_singleton.mp hnew]
      intro snapshot inputs hphase
      cases hphase

/-- The settlement of an unsettled worker: its row is done, and nothing else has changed. -/
theorem WorkersOk.settle {w : World} (h : WorkersOk w) {i : Nat} {worker : SealWorker}
    (hi : w.workers[i]? = some worker) (hopen : worker.phase.unsettled) (nowMs : Int) :
    WorkersOk ({ w with jobs := update worker.job.matchesRow (·.markDone nowMs) w.jobs }.setPhase i
      worker .settled) := by
  have hmem := List.mem_of_getElem? hi
  have hdrop : ∀ r ∈ w.jobs, worker.job.matchesRow r →
      (r.markDone nowMs).activeKey = none ∨ (r.markDone nowMs).activeKey = r.activeKey :=
    fun _ _ _ => Or.inl rfl
  refine ⟨⟨h.queue.valid.update_of_drop (fun _ => rfl) hdrop, fun r hr => ?_, fun r hr hready => ?_⟩,
    fun other hother => ?_, ?_, fun other hother => ?_⟩
  · rcases mem_update.mp hr with ⟨s, hs, -, rfl⟩ | ⟨hs, -⟩
    · exact h.queue.seals s hs
    · exact h.queue.seals r hs
  · rcases mem_update.mp hr with ⟨s, -, -, rfl⟩ | ⟨hs, -⟩
    · cases hready
    · exact h.queue.unclaimed r hs hready
  · obtain ⟨j, hj⟩ := List.mem_iff_getElem?.mp hother
    rcases Log.getElem?_set_cases hj with ⟨-, rfl⟩ | ⟨hne, hold⟩
    · obtain ⟨row, hrow, hid, hpayload, hstatus⟩ := h.owns worker hmem
      rw [if_pos hopen] at hstatus
      exact ⟨_, mem_update_of_mem hrow hstatus.2, hid, hpayload, rfl⟩
    · obtain ⟨row, hrow, hid, hrest⟩ := h.owns other (List.mem_of_getElem? hold)
      refine ⟨row, mem_update.mpr (Or.inr ⟨hrow, fun hmatch => hne ?_⟩), hid, hrest⟩
      have hsame : other.job.id = worker.job.id := hid.symm.trans (matchesRow_iff.mp hmatch).1
      have hjlt := (List.getElem?_eq_some_iff.mp hold).1
      refine (List.getElem?_inj (by rwa [List.length_map]) h.distinct).mp ?_
      rw [List.getElem?_map, List.getElem?_map, hold, hi]
      exact congrArg some hsame
  · rw [World.setPhase, jobIds_setPhase hi]
    exact h.distinct
  · rcases List.mem_or_eq_of_mem_set hother with hold | rfl
    · exact h.snapshots other hold
    · intro snapshot inputs hphase
      cases hphase

/-! ### Covered edges across a step -/

section Covered

variable {config : Config} {w : World} {treeId : String} {level : Nat}

theorem Covered.enqueue (h : Covered w treeId level) (jobId : String) (nowMs : Int)
    (payload : SealPayload) : Covered (w.enqueue config jobId nowMs payload) treeId level :=
  h.imp (fun hkey => activeKeys_mono subset_enqueueConn hkey) id

/-- After an enqueue under a fresh id the key is held by the new job, or by the one that swallowed it. -/
theorem sealKey_enqueue (hv : TableValid w.jobs) {jobId : String}
    (hfresh : jobId ∉ w.jobs.map JobRow.id) (nowMs : Int) (payload : SealPayload) :
    sealKey payload.treeId payload.level ∈
      activeKeys (w.enqueue config jobId nowMs payload).jobs := by
  rw [sealKey_eq]
  exact activeKey_enqueueConn hv hfresh rfl

theorem Covered.setPhase {i : Nat} {worker : SealWorker} (hi : w.workers[i]? = some worker)
    {phase : Phase}
    (howes : worker.Owes treeId level → Covered (w.setPhase i worker phase) treeId level)
    (h : Covered w treeId level) : Covered (w.setPhase i worker phase) treeId level := by
  rcases h with hkey | hprod | ⟨other, hother, hothers⟩
  · exact Or.inl hkey
  · exact Or.inr (Or.inl hprod)
  · obtain ⟨j, hj⟩ := List.mem_iff_getElem?.mp hother
    by_cases hji : j = i
    · rw [hji, hi] at hj
      rw [← Option.some.inj hj] at hothers
      exact howes hothers
    · refine Or.inr (Or.inr ⟨other, List.mem_of_getElem? (i := j) ?_, hothers⟩)
      rw [World.setPhase, Log.getElem?_set_of_ne hji, hj]

/-- A worker covers the edges it owes. -/
theorem covered_setPhase {i : Nat} {worker : SealWorker} (hi : w.workers[i]? = some worker)
    {phase : Phase} (howes : SealWorker.Owes { worker with phase := phase } treeId level) :
    Covered (w.setPhase i worker phase) treeId level :=
  Or.inr (Or.inr ⟨_, List.mem_of_getElem? (Log.getElem?_set_self_of_some hi), howes⟩)

theorem Covered.setProducer {i : Nat} {producer next : Producer}
    (hi : w.producers[i]? = some producer)
    (howes : producer.Owes treeId level → Covered (w.setProducer i next) treeId level)
    (h : Covered w treeId level) : Covered (w.setProducer i next) treeId level := by
  rcases h with hkey | ⟨other, hother, hothers⟩ | hworker
  · exact Or.inl hkey
  · obtain ⟨j, hj⟩ := List.mem_iff_getElem?.mp hother
    by_cases hji : j = i
    · rw [hji, hi] at hj
      rw [← Option.some.inj hj] at hothers
      exact howes hothers
    · refine Or.inr (Or.inl ⟨other, List.mem_of_getElem? (i := j) ?_, hothers⟩)
      rw [World.setProducer, Log.getElem?_set_of_ne hji, hj]
  · exact Or.inr (Or.inr hworker)

theorem EdgesCovered.setPhase (h : EdgesCovered config w) {i : Nat} {worker : SealWorker}
    (hi : w.workers[i]? = some worker) {phase : Phase}
    (howes : ∀ treeId level, shouldSeal config.tree (w.db.getBuffer treeId level) →
      worker.Owes treeId level → Covered (w.setPhase i worker phase) treeId level) :
    EdgesCovered config (w.setPhase i worker phase) :=
  fun treeId level hgate => (h treeId level hgate).setPhase hi (howes treeId level hgate)

/-- The level a worker is sealing is covered by the worker's own running row. -/
theorem WorkersOk.covered (h : WorkersOk w) {worker : SealWorker} (hmem : worker ∈ w.workers)
    (hopen : worker.phase.unsettled) : Covered w worker.payload.treeId worker.payload.level := by
  obtain ⟨row, hrow, -, hpayload, hstatus⟩ := h.owns worker hmem
  rw [if_pos hopen] at hstatus
  obtain ⟨payload, hpayload', -, hkey⟩ := h.queue.seals row hrow
  obtain rfl : worker.payload = payload :=
    JobPayload.seal.inj (hpayload.symm.trans hpayload')
  refine Or.inl (mem_keys.mpr ⟨row, hrow, ?_⟩)
  rw [JobRow.activeKey_of_active (by rw [hstatus.1]; rfl), hkey, sealKey_eq]

end Covered

/-! ### One step -/

/-- What the seal-edge proof carries along a run. -/
structure SealOk (config : Config) (w : World) : Prop where
  workers : WorkersOk w
  edges : EdgesCovered config w

section Steps

variable {config : Config} {w : World}

theorem SealOk.append (h : SealOk config w) (treeId chunkId : String) (tokenCount : Nat)
    (timestampMs : Int) : SealOk config (w.stepAppend treeId chunkId tokenCount timestampMs) := by
  unfold World.stepAppend
  split
  · rename_i db happend
    refine ⟨⟨h.workers.queue, h.workers.owns, h.workers.distinct, h.workers.snapshots⟩, ?_⟩
    intro treeId' level hgate
    by_cases hsame : treeId = treeId' ∧ level = 0
    · exact Or.inr (Or.inl ⟨_, List.mem_append_right _ List.mem_cons_self, hsame⟩)
    · have hbuf : db.getBuffer treeId' level = w.db.getBuffer treeId' level := by
        rcases appendToBuffer_cases happend with ⟨-, rfl⟩ | ⟨-, buf, hkey, -, rfl⟩
        · rfl
        · refine Db.getBuffer_upsertBuffer_of_ne ?_
          rw [hkey]
          exact fun hc => hsame ⟨(Prod.mk.inj hc).1, (Prod.mk.inj hc).2.symm⟩
      dsimp only at hgate
      rw [hbuf] at hgate
      rcases h.edges treeId' level hgate with hkey | ⟨producer, hmem, howes⟩ | hworker
      · exact Or.inl hkey
      · exact Or.inr (Or.inl ⟨producer, List.mem_append_left _ hmem, howes⟩)
      · exact Or.inr (Or.inr hworker)
  · exact h

theorem SealOk.producer (h : SealOk config w) {i : Nat} {producer : Producer} {label : Label}
    (hi : w.producers[i]? = some producer) (hfresh : MintsFreshJob w label) :
    SealOk config (w.stepProducer config i producer label) := by
  unfold World.stepProducer
  split
  · split_ifs with hgate
    · refine ⟨⟨h.workers.queue, h.workers.owns, h.workers.distinct, h.workers.snapshots⟩, ?_⟩
      refine fun treeId' level hg => (h.edges treeId' level hg).setProducer hi fun howes => ?_
      exact Or.inr (Or.inl ⟨_, List.mem_of_getElem? (Log.getElem?_set_self_of_some hi), howes⟩)
    · refine ⟨⟨h.workers.queue, h.workers.owns, h.workers.distinct, h.workers.snapshots⟩, ?_⟩
      refine fun treeId' level hg => (h.edges treeId' level hg).setProducer hi fun howes => ?_
      obtain ⟨rfl, rfl⟩ := howes
      exact absurd hg hgate
  · rename_i treeId _ jobId nowMs
    have hqueue := h.workers.enqueue config jobId nowMs ⟨treeId, 0, none⟩
    refine ⟨⟨hqueue.queue, hqueue.owns, hqueue.distinct, hqueue.snapshots⟩, ?_⟩
    intro treeId' level hg
    refine ((h.edges treeId' level hg).enqueue jobId nowMs ⟨treeId, 0, none⟩).setProducer hi
      fun howes => ?_
    obtain ⟨rfl, rfl⟩ := howes
    exact Or.inl (sealKey_enqueue h.workers.queue.valid hfresh nowMs ⟨treeId, 0, none⟩)
  · exact h

theorem SealOk.claim (h : SealOk config w) (nowMs lockDurationMs : Int) :
    SealOk config (w.stepClaim nowMs lockDurationMs) := by
  unfold World.stepClaim
  rcases claimNext_cases nowMs lockDurationMs h.workers.queue.valid
    with ⟨heq, -⟩ | ⟨row, lockUntil, -, hmem, hready, heq, hvalid⟩
  · rw [heq]
    exact h
  · obtain ⟨payload, hpayload, -⟩ := h.workers.queue.seals row hmem
    have hjob : (rowToJob (row.claim nowMs lockUntil)).payload = .seal payload := hpayload
    simp only [heq, hjob]
    refine ⟨h.workers.claim hmem hready hvalid hpayload, fun treeId level hgate => ?_⟩
    have hkeys : activeKeys (update (·.id == row.id) (·.claim nowMs lockUntil) w.jobs) =
        activeKeys w.jobs := by
      refine keys_update_of_eq fun r hr hp => ?_
      obtain rfl := eq_of_pk_eq h.workers.queue.valid.ids hr hmem (beq_iff_eq.mp hp)
      exact JobRow.claim_activeKey hready
    rcases h.edges treeId level hgate with hkey | hprod | ⟨worker, hworker, howes⟩
    · exact Or.inl (hkeys ▸ hkey)
    · exact Or.inr (Or.inl hprod)
    · exact Or.inr (Or.inr ⟨worker, List.mem_append_left _ hworker, howes⟩)

theorem SealOk.snapshot (h : SealOk config w) {i : Nat} {worker : SealWorker}
    (hi : w.workers[i]? = some worker) (hphase : worker.phase = .claimed) (skip : Bool) :
    SealOk config (w.stepSnapshot i worker skip) := by
  have hnothing : ∀ treeId level, ¬worker.Owes treeId level := by
    intro treeId level howes
    simp only [SealWorker.Owes, hphase] at howes
  unfold World.stepSnapshot
  dsimp only
  split_ifs
  · refine ⟨h.workers.setPhase hi (by rw [hphase]; rfl) ?_, h.edges.setPhase hi ?_⟩
    · rintro snapshot inputs ⟨⟩
    · exact fun treeId level _ howes => absurd howes (hnothing treeId level)
  · split
    · refine ⟨h.workers.setPhase hi (by rw [hphase]; rfl) ?_, h.edges.setPhase hi ?_⟩
      · rintro snapshot inputs ⟨⟩
        exact ⟨Db.getBuffer_treeId, Db.getBuffer_level⟩
      · exact fun treeId level _ howes => absurd howes (hnothing treeId level)
    · exact h

/-- A commit moves two buffers only, so another buffer over its gate was over it before. -/
theorem gate_of_commit {snapshot : Buffer} {node : SummaryNode} {nowMs : Int}
    {enqueueFollowUps : Bool} {db : Db} {followUp : Option SealPayload}
    (hcommit : Committed config.tree snapshot node nowMs enqueueFollowUps w.db db followUp)
    {treeId : String} {level : Nat} (hgate : shouldSeal config.tree (db.getBuffer treeId level)) :
    (treeId = snapshot.treeId ∧ level = snapshot.level) ∨
      (treeId = snapshot.treeId ∧ level = snapshot.level + 1) ∨
      shouldSeal config.tree (w.db.getBuffer treeId level) := by
  by_cases hsame : treeId = snapshot.treeId ∧ (level = snapshot.level ∨ level = snapshot.level + 1)
  · obtain ⟨htree, hlevel | hlevel⟩ := hsame
    · exact Or.inl ⟨htree, hlevel⟩
    · exact Or.inr (Or.inl ⟨htree, hlevel⟩)
  · rw [hcommit.untouched treeId level hsame] at hgate
    exact Or.inr (Or.inr hgate)

theorem SealOk.commit (h : SealOk config w) {i : Nat} {worker : SealWorker}
    (hi : w.workers[i]? = some worker) {snapshot : Buffer} {inputs : List SummaryInput}
    (hphase : worker.phase = .sealing snapshot inputs) (summaryId : String) (tokenCount : Nat)
    (nowMs : Int) (enqueueFollowUps : Bool) {jobId : String}
    (hfresh : jobId ∉ w.jobs.map JobRow.id) :
    SealOk config (w.stepCommit config i worker snapshot inputs summaryId tokenCount nowMs
      enqueueFollowUps jobId) := by
  have hmem := List.mem_of_getElem? hi
  have hopen : worker.phase.unsettled = true := by
    rw [hphase]
    rfl
  obtain ⟨htree, hlevel⟩ := h.workers.snapshots worker hmem snapshot inputs hphase
  have hown := h.workers.covered hmem hopen
  rw [← htree, ← hlevel] at hown
  have hnothing : ∀ treeId level, ¬worker.Owes treeId level := by
    intro treeId level howes
    simp only [SealWorker.Owes, hphase] at howes
  unfold World.stepCommit
  split
  · rename_i db parent hcommit
    have hc := commitSeal_ok hcommit rfl rfl
    have hdb : WorkersOk { w with db := db } :=
      ⟨h.workers.queue, h.workers.owns, h.workers.distinct, h.workers.snapshots⟩
    have hworkers := hdb.enqueue config jobId nowMs parent
    refine ⟨hworkers.setPhase hi (by rw [hphase]; rfl) (by rintro _ _ ⟨⟩), ?_⟩
    have hstay : ∀ {treeId level}, Covered w treeId level →
        Covered (({ w with db := db }.enqueue config jobId nowMs parent).setPhase i worker
          (.planned none)) treeId level := by
      intro treeId level hcov
      refine Covered.setPhase (w := { w with db := db }.enqueue config jobId nowMs parent) hi
        (fun howes => absurd howes (hnothing treeId level)) ?_
      exact Covered.enqueue (w := { w with db := db }) hcov jobId nowMs parent
    intro treeId level hgate
    rcases gate_of_commit hc hgate with ⟨rfl, rfl⟩ | ⟨rfl, rfl⟩ | hold
    · exact hstay hown
    · have hfollow := hc.followUp
      split_ifs at hfollow
      obtain rfl := Option.some.inj hfollow
      exact Or.inl (sealKey_enqueue h.workers.queue.valid hfresh nowMs _)
    · exact hstay (h.edges treeId level hold)
  · rename_i db hcommit
    have hc := commitSeal_ok hcommit rfl rfl
    have hworkers : WorkersOk { w with db := db } :=
      ⟨h.workers.queue, h.workers.owns, h.workers.distinct, h.workers.snapshots⟩
    refine ⟨hworkers.setPhase hi ?_ ?_, ?_⟩
    · rw [hopen]
      split_ifs <;> rfl
    · split_ifs
      · rintro _ _ ⟨⟩
      · rintro _ _ ⟨⟩
    have hstay : ∀ {treeId level}, Covered w treeId level →
        Covered ({ w with db := db }.setPhase i worker
          (if enqueueFollowUps then .planned none else .committed)) treeId level := by
      intro treeId level hcov
      exact Covered.setPhase hi (fun howes => absurd howes (hnothing treeId level)) hcov
    intro treeId level hgate
    rcases gate_of_commit hc hgate with ⟨rfl, rfl⟩ | ⟨rfl, rfl⟩ | hold
    · exact hstay hown
    · have hfollow := hc.followUp
      split_ifs at hfollow with hboth
      rw [Bool.and_eq_true, not_and] at hboth
      have hflag : ¬enqueueFollowUps = true := fun hflag => hboth hflag hgate
      refine covered_setPhase hi ?_
      rw [if_neg hflag]
      exact ⟨htree.symm, by rw [hlevel]⟩
    · exact hstay (h.edges treeId level hold)
  · exact h

theorem SealOk.checkParent (h : SealOk config w) {i : Nat} {worker : SealWorker}
    (hi : w.workers[i]? = some worker) (hphase : worker.phase = .committed) (label : Nat) :
    SealOk config (w.stepWorker config i worker .committed (.checkParent label)) := by
  simp only [World.stepWorker]
  split_ifs with hgate
  · refine ⟨h.workers.setPhase hi (by rw [hphase]; rfl) (by rintro _ _ ⟨⟩), h.edges.setPhase hi ?_⟩
    intro treeId level _ howes
    simp only [SealWorker.Owes, hphase] at howes
    exact covered_setPhase hi howes
  · refine ⟨h.workers.setPhase hi (by rw [hphase]; rfl) (by rintro _ _ ⟨⟩), h.edges.setPhase hi ?_⟩
    intro treeId level hg howes
    simp only [SealWorker.Owes, hphase] at howes
    obtain ⟨rfl, rfl⟩ := howes
    exact absurd hg hgate

/-- Marking a worker's row done goes through, and enqueues its follow-up. -/
theorem markDone_planned (h : WorkersOk w) {worker : SealWorker} (hmem : worker ∈ w.workers)
    (hopen : worker.phase.unsettled) (nowMs : Int) (followUps : List (String × NewJob)) :
    markDoneWithFollowups config.queue nowMs worker.job followUps w.jobs =
      .ok (enqueueAll nowMs config.queue.maxAttempts
        (update worker.job.matchesRow (·.markDone nowMs) w.jobs) followUps, true) := by
  obtain ⟨row, hrow, -, -, hstatus⟩ := h.owns worker hmem
  rw [if_pos hopen] at hstatus
  have hdrop := h.queue.valid.active.update_of_drop (p := worker.job.matchesRow)
    (f := (·.markDone nowMs)) fun _ _ _ => Or.inl rfl
  have hcount : w.jobs.countP worker.job.matchesRow ≠ 0 := by
    rw [Nat.ne_zero_iff_zero_lt, List.countP_pos_iff]
    exact ⟨row, hrow, hstatus.2⟩
  rw [markDoneWithFollowups, updateJobs_of_unique hdrop]
  dsimp only [bind, Except.bind]
  rw [if_pos hcount]

theorem SealOk.settle (h : SealOk config w) {i : Nat} {worker : SealWorker}
    (hi : w.workers[i]? = some worker) {followUp : Option SealPayload}
    (hphase : worker.phase = .planned followUp) (nowMs : Int) {jobId : String}
    (hfresh : jobId ∉ w.jobs.map JobRow.id) :
    SealOk config (w.stepSettle config i worker followUp nowMs jobId) := by
  have hmem := List.mem_of_getElem? hi
  have hopen : worker.phase.unsettled = true := by
    rw [hphase]
    rfl
  let done : World := { w with jobs := update worker.job.matchesRow (·.markDone nowMs) w.jobs }
  have hdone : WorkersOk (done.setPhase i worker .settled) := h.workers.settle hi hopen nowMs
  have hids : done.jobs.map JobRow.id = w.jobs.map JobRow.id :=
    map_update (f := (·.markDone nowMs)) (fun _ => rfl) w.jobs
  have hdoneFresh : jobId ∉ done.jobs.map JobRow.id := by rwa [hids]
  -- the settled row gives up its own key only, and the worker owes that level from now on
  have hstay : ∀ {treeId level}, Covered w treeId level →
      (∃ parent, followUp = some parent ∧ parent.treeId = treeId ∧ parent.level = level) ∨
        Covered (done.setPhase i worker .settled) treeId level := by
    rintro treeId level (hkey | hprod | ⟨other, hother, howes⟩)
    · obtain ⟨row, hrow, hactive⟩ := mem_keys.mp hkey
      by_cases hmatch : worker.job.matchesRow row = true
      · obtain ⟨own, hown, hid, hpayload, -⟩ := h.workers.owns worker hmem
        obtain rfl := eq_of_pk_eq h.workers.queue.valid.ids hown hrow
          (hid.trans (matchesRow_iff.mp hmatch).1.symm)
        obtain ⟨payload, hpayload', -, hdedupe⟩ := h.workers.queue.seals own hrow
        obtain rfl := JobPayload.seal.inj (hpayload.symm.trans hpayload')
        have hsame : own.dedupeKey = some (sealKey treeId level) := by
          unfold JobRow.activeKey at hactive
          split_ifs at hactive
          exact hactive
        rw [hdedupe, Option.some.injEq] at hsame
        have howes : SealWorker.Owes { worker with phase := .settled } treeId level :=
          SealPayload.dedupeKey_inj hsame
        exact Or.inr (covered_setPhase (w := done) hi howes)
      · exact Or.inr (Or.inl (mem_keys.mpr ⟨row, mem_update.mpr (Or.inr ⟨hrow, hmatch⟩), hactive⟩))
    · exact Or.inr (Or.inr (Or.inl hprod))
    · obtain ⟨j, hj⟩ := List.mem_iff_getElem?.mp hother
      by_cases hji : j = i
      · rw [hji, hi] at hj
        rw [← Option.some.inj hj, SealWorker.Owes, hphase] at howes
        cases followUp with
        | none => exact howes.elim
        | some parent => exact Or.inl ⟨parent, rfl, howes⟩
      · refine Or.inr (Or.inr (Or.inr ⟨other, List.mem_of_getElem? (i := j) ?_, howes⟩))
        rw [World.setPhase, Log.getElem?_set_of_ne hji]
        exact hj
  unfold World.stepSettle
  rw [markDone_planned h.workers hmem hopen]
  cases followUp with
  | none =>
      refine ⟨hdone, fun treeId level hgate => ?_⟩
      rcases hstay (h.edges treeId level hgate) with ⟨parent, hnone, -⟩ | hcov
      · cases hnone
      · exact hcov
  | some parent =>
      refine ⟨hdone.enqueue config jobId nowMs parent, fun treeId level hgate => ?_⟩
      rcases hstay (h.edges treeId level hgate) with ⟨parent', hsome, rfl, rfl⟩ | hcov
      · obtain rfl := Option.some.inj hsome
        exact Or.inl (sealKey_enqueue hdone.queue.valid hdoneFresh nowMs parent)
      · exact hcov.enqueue jobId nowMs parent

theorem SealOk.getJob (h : SealOk config w) {i : Nat} {worker : SealWorker}
    (hi : w.workers[i]? = some worker) (hphase : worker.phase = .settled) (label : Nat) :
    SealOk config (w.stepWorker config i worker .settled (.getJob label)) := by
  obtain ⟨row, hrow, hid, -, hstatus⟩ := h.workers.owns worker (List.mem_of_getElem? hi)
  rw [hphase, if_neg (by decide)] at hstatus
  have hfound : lookup JobRow.id worker.job.id w.jobs = some row :=
    hid ▸ lookup_of_mem h.workers.queue.valid.ids hrow
  simp only [World.stepWorker, hfound]
  rw [if_pos hstatus]
  refine ⟨h.workers.setPhase hi (by rw [hphase]; rfl) (by rintro _ _ ⟨⟩), h.edges.setPhase hi ?_⟩
  intro treeId level _ howes
  simp only [SealWorker.Owes, hphase] at howes
  exact covered_setPhase hi howes

theorem SealOk.recheckGate (h : SealOk config w) {i : Nat} {worker : SealWorker}
    (hi : w.workers[i]? = some worker) (hphase : worker.phase = .rechecking) (label : Nat) :
    SealOk config (w.stepWorker config i worker .rechecking (.recheckGate label)) := by
  simp only [World.stepWorker]
  split_ifs with hgate
  · refine ⟨h.workers.setPhase hi (by rw [hphase]; rfl) (by rintro _ _ ⟨⟩), h.edges.setPhase hi ?_⟩
    intro treeId level _ howes
    simp only [SealWorker.Owes, hphase] at howes
    exact covered_setPhase hi howes
  · refine ⟨h.workers.setPhase hi (by rw [hphase]; rfl) (by rintro _ _ ⟨⟩), h.edges.setPhase hi ?_⟩
    intro treeId level hg howes
    simp only [SealWorker.Owes, hphase] at howes
    obtain ⟨rfl, rfl⟩ := howes
    exact absurd hg hgate

theorem SealOk.rearm (h : SealOk config w) {i : Nat} {worker : SealWorker}
    (hi : w.workers[i]? = some worker) (hphase : worker.phase = .rearming) (nowMs : Int)
    {jobId : String} (hfresh : jobId ∉ w.jobs.map JobRow.id) :
    SealOk config ((w.enqueue config jobId nowMs worker.payload).setPhase i worker .finished) := by
  have hworkers := h.workers.enqueue config jobId nowMs worker.payload
  refine ⟨hworkers.setPhase hi (by rw [hphase]; rfl) (by rintro _ _ ⟨⟩), fun treeId level hgate => ?_⟩
  refine Covered.setPhase (w := w.enqueue config jobId nowMs worker.payload) hi (fun howes => ?_)
    ((h.edges treeId level hgate).enqueue jobId nowMs worker.payload)
  simp only [SealWorker.Owes, hphase] at howes
  obtain ⟨rfl, rfl⟩ := howes
  exact Or.inl (sealKey_enqueue h.workers.queue.valid hfresh nowMs worker.payload)

theorem SealOk.worker (h : SealOk config w) {i : Nat} {worker : SealWorker} {label : Label}
    (hi : w.workers[i]? = some worker) (hfresh : MintsFreshJob w label) :
    SealOk config (w.stepWorker config i worker worker.phase label) := by
  cases hphase : worker.phase <;> cases label <;> try exact h
  case claimed.snapshot skip => exact h.snapshot hi hphase skip
  case sealing.commit => exact h.commit hi hphase _ _ _ _ hfresh
  case committed.checkParent => exact h.checkParent hi hphase _
  case planned.settle => exact h.settle hi hphase _ hfresh
  case settled.getJob => exact h.getJob hi hphase _
  case rechecking.recheckGate => exact h.recheckGate hi hphase _
  case rearming.rearm => exact h.rearm hi hphase _ hfresh

end Steps

theorem sealOk_advance {config : Config} {w : World} {label : Label} (h : SealOk config w)
    (hfresh : MintsFreshJob w label) : SealOk config (advance config w label) := by
  cases label with
  | append treeId chunkId tokenCount timestampMs => exact h.append treeId chunkId tokenCount timestampMs
  | claim nowMs lockDurationMs => exact h.claim nowMs lockDurationMs
  | checkGate | enqueueSeal =>
      simp only [advance]
      split
      · exact h.producer ‹_› hfresh
      · exact h
  | _ =>
      simp only [advance]
      split
      · exact h.worker ‹_› hfresh
      · exact h

theorem sealOk_empty (config : Config) (trees : List Tree) (chunks : List Chunks.Chunk) :
    SealOk config (World.empty trees chunks) where
  workers := ⟨⟨tableValid_nil, by simp [World.empty], by simp [World.empty]⟩, by simp [World.empty],
    by simp [World.empty], by simp [World.empty]⟩
  edges := by
    intro treeId level hgate
    simp [World.empty, Db.getBuffer, lookup, Buffer.empty, shouldSeal] at hgate

/-- Covered edges with nobody mid-step are active seal jobs. -/
theorem SealOk.noLostEdge {config : Config} {w : World} (h : SealOk config w) :
    NoLostEdge config w := by
  rintro ⟨hproducers, hworkers⟩ treeId level hgate
  rcases h.edges treeId level hgate with hkey | ⟨producer, hmem, howes⟩ | ⟨worker, hmem, howes⟩
  · obtain ⟨row, hrow, hactive⟩ := mem_keys.mp hkey
    obtain ⟨payload, hpayload, hkind, hdedupe⟩ := h.workers.queue.seals row hrow
    unfold JobRow.activeKey at hactive
    split_ifs at hactive with hstatus
    rw [hdedupe, Option.some.injEq] at hactive
    exact ⟨row, hrow, hstatus, hkind, payload, hpayload, SealPayload.dedupeKey_inj hactive⟩
  · rw [hproducers producer hmem] at howes
    exact howes.elim
  · rw [SealWorker.Owes, hworkers worker hmem] at howes
    exact howes.elim

/-- In every crash-free run of producers and seal workers no seal edge is lost. -/
theorem noLostEdge_run (config : Config) (trees : List Tree) (chunks : List Chunks.Chunk)
    (labels : List Label) (henv : (sealQueue config trees chunks).AllSteps MintsFreshJob labels) :
    (sealQueue config trees chunks).Throughout (NoLostEdge config) labels :=
  Machine.throughout_of_steps _ (sealOk_empty config trees chunks)
    (fun _ _ h hfresh => sealOk_advance h hfresh) (fun _ h => h.noLostEdge) henv

/-- Two leaves cross the gate; the second one's producer meets the running seal of the first. -/
def appendDuringSeal : List Label :=
  [.append "tree-1" "leaf-1" 10 0, .checkGate 0, .enqueueSeal 0 "job-1" 0, .claim 0 300000,
    .snapshot 0 false, .append "tree-1" "leaf-2" 10 0, .checkGate 1, .enqueueSeal 1 "job-2" 0,
    .commit 0 "summary-1" 5 1 true "job-3", .settle 0 1 "job-4", .getJob 0, .recheckGate 0,
    .rearm 0 "job-5" 1]

theorem noLostEdge_appendDuringSeal :
    (sealQueue ⟨⟨10, 10, 2⟩, .default⟩ [⟨"tree-1", .source, "scope", none, 0, .active, none⟩]
      [⟨"leaf-1", .chat, "source", none, 0, 0, 0, 10, 0, .admitted⟩,
        ⟨"leaf-2", .chat, "source", none, 0, 0, 0, 10, 1, .admitted⟩]).Throughout
      (NoLostEdge ⟨⟨10, 10, 2⟩, .default⟩) appendDuringSeal :=
  noLostEdge_run _ _ _ appendDuringSeal ((Machine.allSteps_iff_stepsFrom _).mpr (by decide))

end TinyCortex.Worker
