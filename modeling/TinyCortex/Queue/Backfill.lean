import TinyCortex.Queue.Budget
import TinyCortex.Queue.RowShape

/-! The process-wide flag `BACKFILL_IN_PROGRESS` beside the queue (`queue/ops.rs`, `queue/handlers.rs`,
`queue/worker.rs`). A handler and the settle of its job are one step here; the re-check of a sealed
buffer, which a settle may add, is an enqueue of its own. -/

namespace TinyCortex.Queue

open Table

/-- A new job as its constructor built it. -/
def KeyedJob := { job : NewJob // job.Keyed }

def RowKind.isBackfill (kind : RowKind) : Bool := kind == .live .reembedBackfill

/-- Kinds whose handler needs a permit of the LLM gate. -/
def RowKind.isLlmBound : RowKind → Bool
  | .live .extractChunk => true
  | .live .seal => true
  | .live .reembedBackfill => true
  | .live .sealDocument => true
  | _ => false

/-- What one batch of a re-embed backfill came to. -/
inductive ReembedProgress
  | wrote (morePending : Bool)
  | covered
  | noProvider
  | staleSignature
  deriving DecidableEq

/-- `ensure_reembed_backfill` with what `planned_reembed_backfill` returned: the table and the flag. -/
def ensureReembedBackfill (config : QueueConfig) (nowMs : Int) (id : String)
    (planned : Option ReembedBackfillPayload) (jobs : List JobRow) (inProgress : Bool) :
    List JobRow × Bool :=
  match planned with
  | none => (jobs, inProgress)
  | some payload =>
      let inserted := enqueueConn id nowMs (.reembedBackfill payload) config.maxAttempts jobs
      (inserted.1, if inserted.2.isSome then true else inProgress)

def reembedBackfillRevisitMs : Int := 750

/-- The flag that the backfill handler sets, and its plan. -/
def handleReembedBackfill (nowMs : Int) : ReembedProgress → Bool × Settle
  | .wrote true =>
      (true, .deferred (nowMs + reembedBackfillRevisitMs) "re-embed backfill: batch done, more pending")
  | .wrote false => (false, .done [])
  | .covered => (false, .done [])
  | .noProvider => (false, .done [])
  | .staleSignature => (false, .done [])

/-- `settle_planned_job`: the table and the flag after it. -/
def settlePlannedJob (config : QueueConfig) (nowMs : Int) (job : Job) (jobs : List JobRow)
    (inProgress : Bool) : Settle → Except QueueError (List JobRow × Bool)
  | .done followUps => do
      let armsReembed := followUps.any fun followUp => followUp.2.kind == .reembedBackfill
      let (next, committed) ← markDoneWithFollowups config nowMs job followUps jobs
      .ok (next, if committed && armsReembed then true else inProgress)
  | .deferred untilMs reason => do
      let (next, _) ← markDeferred config nowMs job untilMs reason jobs
      .ok (next, inProgress)
  | .failed error failure => do
      let (next, _) ← markFailedTyped config nowMs job error failure jobs
      .ok (next, if job.kind.isBackfill && hasStatus .failed job.id next then false else inProgress)

def llmGateRetryMs : Int := 50

/-- How the run of a claimed job ends: no permit, or what its handler returned. -/
inductive RunEnd
  | gateBusy (readMs : Int)
  | planned (followUps : List (String × KeyedJob))
  | deferred (untilMs : Int) (reason : String)
  | failed (error : String) (failure : Option JobFailure)
  | reembedded (readMs : Int) (progress : ReembedProgress)

/-- The settle a run ends in, if the run of such a job can end so. -/
def RunEnd.settle (job : Job) : RunEnd → Option Settle
  | .gateBusy readMs =>
      if job.kind.isLlmBound then
        some (.deferred (readMs + llmGateRetryMs) "llm concurrency gate busy")
      else none
  | .planned followUps =>
      if job.kind.isBackfill then none
      else some (.done (followUps.map fun followUp => (followUp.1, followUp.2.val)))
  | .deferred untilMs reason => if job.kind.isBackfill then none else some (.deferred untilMs reason)
  | .failed error failure => some (.failed error failure)
  | .reembedded readMs progress =>
      if job.kind.isBackfill then some (handleReembedBackfill readMs progress).2 else none

/-- The flag as the handler leaves it. -/
def RunEnd.flag (inProgress : Bool) : RunEnd → Bool
  | .reembedded readMs progress => (handleReembedBackfill readMs progress).1
  | _ => inProgress

inductive BackfillEvent
  | enqueue (id : String) (job : KeyedJob) (other : job.val.kind ≠ .reembedBackfill)
  | ensure (id : String) (planned : Option ReembedBackfillPayload)
  | claimNext (lockDurationMs : Int)
  | ended (claim : Nat) (how : RunEnd)
  | recoverStaleLocks
  | releaseRunningLocks
  | requeueFailed
  | requeueTransientFailed
  | purgeRetiredJobs

structure BackfillLabel where
  advanceMs : Nat
  event : BackfillEvent

structure BackfillWorld extends World where
  inProgress : Bool

/-- The store call of an event, if it makes one. -/
def BackfillEvent.op (claims : List Claim) : BackfillEvent → Option Op
  | .enqueue id job _ => some (.enqueue id job.val)
  | .ensure id planned => planned.map fun payload => .enqueue id (.reembedBackfill payload)
  | .claimNext lockDurationMs => some (.claimNext lockDurationMs)
  | .ended i how => claims[i]?.bind fun claim => (how.settle claim.job).map (.settle i)
  | .recoverStaleLocks => some .recoverStaleLocks
  | .releaseRunningLocks => some .releaseRunningLocks
  | .requeueFailed => some .requeueFailed
  | .requeueTransientFailed => some .requeueTransientFailed
  | .purgeRetiredJobs => some .purgeRetiredJobs

/-- The flag after a run has ended and its job is settled; a settle that aborts leaves it as the handler did. -/
def flagAfterRun (config : QueueConfig) (nowMs : Int) (job : Job) (jobs : List JobRow) (inProgress : Bool)
    (how : RunEnd) : Bool :=
  match how.settle job with
  | none => inProgress
  | some plan =>
      match settlePlannedJob config nowMs job jobs (how.flag inProgress) plan with
      | .ok (_, flag) => flag
      | .error _ => how.flag inProgress

def flagAfter (config : QueueConfig) (nowMs : Int) (w : BackfillWorld) : BackfillEvent → Bool
  | .ensure id planned => (ensureReembedBackfill config nowMs id planned w.jobs w.inProgress).2
  | .ended i how =>
      match w.claims[i]? with
      | none => w.inProgress
      | some claim => flagAfterRun config nowMs claim.job w.jobs w.inProgress how
  | _ => w.inProgress

def advanceBackfill (config : QueueConfig) (w : BackfillWorld) (label : BackfillLabel) : BackfillWorld :=
  let nowMs := w.clock + label.advanceMs
  let inProgress := flagAfter config nowMs w label.event
  match label.event.op w.claims with
  | none => ⟨{ w.toWorld with clock := nowMs }, inProgress⟩
  | some op => ⟨advance config w.toWorld ⟨label.advanceMs, op⟩, inProgress⟩

def backfillQueue (config : QueueConfig) : Machine BackfillWorld BackfillLabel :=
  ⟨⟨World.empty, false⟩, advanceBackfill config⟩

/-- A backfill job is ready or running. -/
def BackfillPending (jobs : List JobRow) : Prop :=
  ∃ row ∈ jobs, row.kind.isBackfill ∧ row.status.isActive

instance (jobs : List JobRow) : Decidable (BackfillPending jobs) :=
  inferInstanceAs (Decidable (∃ row ∈ jobs, row.kind.isBackfill ∧ row.status.isActive))

/-- The flag tells the truth. -/
def FlagTrue (w : BackfillWorld) : Prop := w.inProgress = true ↔ BackfillPending w.jobs

instance (w : BackfillWorld) : Decidable (FlagTrue w) :=
  inferInstanceAs (Decidable (w.inProgress = true ↔ BackfillPending w.jobs))

/-- Another backfill job than the claimed one is ready or running. -/
def OtherPending (job : Job) (jobs : List JobRow) : Prop :=
  ∃ row ∈ jobs, row.kind.isBackfill ∧ row.status.isActive ∧ ¬job.matchesRow row

/-- A failed settle finds, or leaves, the row of the job failed. -/
def EndsFailed (job : Job) (failure : Option JobFailure) (jobs : List JobRow) : Prop :=
  ∃ row ∈ jobs, row.id = job.id ∧
    if job.matchesRow row then job.failsForGood failure = true else row.status = .failed

/-- A settle puts the row that its token fits back exactly when it was alive. -/
def KeepsAlive (config : QueueConfig) (nowMs : Int) (job : Job) (jobs : List JobRow) (how : Settle) : Prop :=
  ∀ row ∈ jobs, job.matchesRow row → how.putsBack config nowMs job row = row.status.isActive

/-- When the end of a run leaves the flag true to the table. -/
def EndKept (config : QueueConfig) (nowMs : Int) (job : Job) (jobs : List JobRow) (plan : Settle) :
    RunEnd → Prop
  | .gateBusy _ => job.kind.isBackfill → OtherPending job jobs ∨ KeepsAlive config nowMs job jobs plan
  | .planned followUps =>
      (followUps.map Prod.fst).Nodup ∧ ∀ id ∈ followUps.map Prod.fst, id ∉ jobs.map JobRow.id
  | .deferred _ _ => True
  | .failed _ failure => job.kind.isBackfill →
      (EndsFailed job failure jobs → ¬OtherPending job jobs) ∧
        (¬EndsFailed job failure jobs → OtherPending job jobs ∨ KeepsAlive config nowMs job jobs plan)
  | .reembedded _ progress =>
      if progress = .wrote true then
        OtherPending job jobs ∨
          ∃ row ∈ jobs, job.matchesRow row ∧ row.tooOldToDefer config nowMs = false
      else ¬OtherPending job jobs

/-- A backfill job ends, by success or for good, only while no other one is ready or running; one that
goes on is still held and not past its deferral age; a requeue finds no failed one unless another is ready
or running; follow-ups have fresh ids. -/
def FlagKept (config : QueueConfig) (w : BackfillWorld) (label : BackfillLabel) : Prop :=
  match label.event with
  | .ended i how => ∀ claim, w.claims[i]? = some claim → ∀ plan, how.settle claim.job = some plan →
      EndKept config (w.clock + label.advanceMs) claim.job w.jobs plan how
  | event => ∀ op, event.op w.claims = some op → ∀ predicate, op.requeues = some predicate →
      BackfillPending w.jobs ∨ ∀ row ∈ w.jobs, predicate row → ¬row.kind.isBackfill

/-- Each claim is of a row of the table, and of the kind of that row. -/
structure ClaimsOfRows (jobs : List JobRow) (claimed : List Job) : Prop where
  owned : ∀ job ∈ claimed, job.id ∈ jobs.map JobRow.id
  kinds : ∀ job ∈ claimed, ∀ row ∈ jobs, row.id = job.id → row.kind = job.kind

structure BackfillSound (w : BackfillWorld) : Prop where
  valid : TableValid w.jobs
  keyed : WellKeyed w.jobs
  claims : ClaimsOfRows w.jobs (w.claims.map Claim.job)
  flag : FlagTrue w

/-! ### The key of a backfill job -/

/-- The first letter of the dedupe keys of a kind. -/
def JobKind.keyLetter : JobKind → Char
  | .extractChunk => 'e'
  | .appendBuffer => 'a'
  | .seal => 's'
  | .flushStale => 'f'
  | .reembedBackfill => 'r'
  | .sealDocument => 's'

theorem JobPayload.Keyed.letter {payload : JobPayload} {kind : JobKind} {key : String}
    (h : payload.Keyed kind (some key)) : key.toList.head? = some kind.keyLetter := by
  have hhead (tag rest : String) (c : Char) (htag : tag.toList.head? = some c) :
      (tag ++ rest).toList.head? = some c := by
    rw [String.toList_append, List.head?_append, htag, Option.some_or]
  match payload, h with
  | .extractChunk p, ⟨hkind, hkey⟩ =>
      rw [hkind, Option.some.inj hkey]
      exact hhead _ _ _ (by decide)
  | .appendBuffer p, ⟨hkind, hkey⟩ =>
      rw [hkind, Option.some.inj hkey, AppendBufferPayload.dedupeKey]
      split
      · rw [String.append_assoc, String.append_assoc]
        exact hhead _ _ _ (by decide)
      · rw [String.append_assoc, String.append_assoc]
        exact hhead _ _ _ (by decide)
  | .seal p, ⟨hkind, hkey⟩ =>
      rw [hkind, Option.some.inj hkey, SealPayload.dedupeKey, String.append_assoc, String.append_assoc]
      exact hhead _ _ _ (by decide)
  | .flushStale p, ⟨hkind, dateIso, hourBlock, hkey⟩ =>
      rw [hkind, Option.some.inj hkey, FlushStalePayload.dedupeKey, String.append_assoc,
        String.append_assoc]
      exact hhead _ _ _ (by decide)
  | .reembedBackfill p, ⟨hkind, hkey⟩ =>
      rw [hkind, Option.some.inj hkey]
      exact hhead _ _ _ (by decide)
  | .sealDocument p, ⟨hkind, hkey⟩ =>
      rw [hkind, Option.some.inj hkey, SealDocumentPayload.dedupeKey]
      split
      · rw [String.append_assoc, String.append_assoc]
        exact hhead _ _ _ (by decide)
      · exact hhead _ _ _ (by decide)

/-- An active row under the key of a backfill job is a backfill job. -/
theorem pending_of_activeKey {jobs : List JobRow} (hkeyed : WellKeyed jobs) {payload : JobPayload}
    {key : String} (hjob : payload.Keyed .reembedBackfill (some key)) (h : key ∈ activeKeys jobs) :
    ∃ row ∈ jobs, row.kind.isBackfill ∧ row.status.isActive := by
  obtain ⟨row, hrow, hkey⟩ := mem_keys.mp h
  unfold JobRow.activeKey at hkey
  split_ifs at hkey with hactive
  refine ⟨row, hrow, ?_, hactive⟩
  obtain ⟨kind, hkind, hpayload⟩ := hkeyed row hrow
  rw [hkey] at hpayload
  have hletter := Option.some.inj (hpayload.letter.symm.trans hjob.letter)
  rw [hkind]
  cases kind with
  | reembedBackfill => rfl
  | _ => exact absurd hletter (by decide)

/-! ### One settle -/

section Settle

variable {config : QueueConfig} {nowMs : Int} {job : Job} {jobs next : List JobRow} {plan : Settle}

theorem onRow_isActive (config : QueueConfig) (nowMs : Int) (job : Job) (row : JobRow) (plan : Settle) :
    (plan.onRow config nowMs job row).status.isActive = plan.putsBack config nowMs job row := by
  cases plan with
  | done followUps => rfl
  | failed error failure =>
      dsimp only [Settle.onRow, Settle.putsBack]
      cases job.failsForGood failure <;> rfl
  | deferred untilMs reason =>
      dsimp only [Settle.onRow, Settle.putsBack, JobRow.markDeferred]
      cases row.tooOldToDefer config nowMs <;> rfl

theorem onRow_kind (config : QueueConfig) (nowMs : Int) (job : Job) (row : JobRow) (plan : Settle) :
    (plan.onRow config nowMs job row).kind = row.kind := by
  cases plan with
  | failed error failure =>
      dsimp only [Settle.onRow]
      cases job.failsForGood failure <;> rfl
  | _ => rfl

/-- A settle updates the row that its token fits; a row that it inserts is a follow-up. -/
theorem settle_rows (h : settle config nowMs job jobs plan = .ok next) :
    ∃ new, next = update job.matchesRow (plan.onRow config nowMs job ·) jobs ++ new ∧
      ∀ row ∈ new, ∃ followUps, plan = .done followUps ∧
        ∃ followUp ∈ followUps, row = newRow followUp.1 nowMs followUp.2 config.maxAttempts := by
  cases plan with
  | done followUps =>
      obtain ⟨⟨next', committed⟩, hdone, rfl⟩ := Fallible.map_ok_iff.mp h
      obtain ⟨⟨mid, n⟩, hmid, hrest⟩ := Fallible.bind_ok_iff.mp hdone
      obtain ⟨-, rfl, -⟩ := updateJobs_ok_iff.mp hmid
      dsimp only at hrest
      split_ifs at hrest
      · obtain ⟨rfl, -⟩ := Prod.mk.inj (Except.ok.inj hrest)
        obtain ⟨new, heq, hnew⟩ := enqueueAll_append nowMs config.maxAttempts followUps
          (update job.matchesRow (·.markDone nowMs) jobs)
        refine ⟨new, heq, fun row hrow => ?_⟩
        obtain ⟨followUp, hmem, hrow, -⟩ := hnew row hrow
        exact ⟨followUps, rfl, followUp, hmem, hrow⟩
      · obtain ⟨rfl, -⟩ := Prod.mk.inj (Except.ok.inj hrest)
        exact ⟨[], (List.append_nil _).symm, fun _ hrow => absurd hrow List.not_mem_nil⟩
  | failed error failure =>
      obtain ⟨⟨next', n⟩, hfail, rfl⟩ := Fallible.map_ok_iff.mp h
      refine ⟨[], ?_, fun _ hrow => absurd hrow List.not_mem_nil⟩
      rw [List.append_nil]
      unfold markFailedTyped at hfail
      unfold Settle.onRow
      by_cases hgood : job.failsForGood failure
      · simp only [if_pos hgood] at hfail ⊢
        exact (updateJobs_ok_iff.mp hfail).2.1.symm
      · simp only [if_neg hgood] at hfail ⊢
        exact (updateJobs_ok_iff.mp hfail).2.1.symm
  | deferred untilMs reason =>
      obtain ⟨⟨next', n⟩, hdefer, rfl⟩ := Fallible.map_ok_iff.mp h
      refine ⟨[], ?_, fun _ hrow => absurd hrow List.not_mem_nil⟩
      rw [List.append_nil]
      exact (updateJobs_ok_iff.mp hdefer).2.1.symm

theorem settlePlannedJob_fst (inProgress : Bool) :
    (settlePlannedJob config nowMs job jobs inProgress plan).map Prod.fst =
      settle config nowMs job jobs plan := by
  cases plan with
  | done followUps =>
      dsimp only [settlePlannedJob, settle]
      cases markDoneWithFollowups config nowMs job followUps jobs <;> rfl
  | failed error failure =>
      dsimp only [settlePlannedJob, settle]
      cases markFailedTyped config nowMs job error failure jobs <;> rfl
  | deferred untilMs reason =>
      dsimp only [settlePlannedJob, settle]
      cases markDeferred config nowMs job untilMs reason jobs <;> rfl

/-- The table after a settle call. -/
def tableAfter (config : QueueConfig) (nowMs : Int) (job : Job) (jobs : List JobRow) (plan : Settle) :
    List JobRow :=
  match settle config nowMs job jobs plan with
  | .ok next => next
  | .error _ => jobs

/-- Which backfill jobs are ready or running after the settle of one. -/
theorem pending_tableAfter (hv : TableValid jobs) (hkeyed : WellKeyed jobs)
    (hkinds : ∀ row ∈ jobs, row.id = job.id → row.kind = job.kind) (hjob : job.kind.isBackfill)
    (hplan : ∀ followUps, plan = .done followUps → followUps = []) :
    BackfillPending (tableAfter config nowMs job jobs plan) ↔ OtherPending job jobs ∨
      ∃ row ∈ jobs, job.matchesRow row ∧ plan.putsBack config nowMs job row := by
  unfold tableAfter
  cases hsettle : settle config nowMs job jobs plan with
  | ok next =>
      obtain ⟨new, rfl, hnew⟩ := settle_rows hsettle
      obtain rfl : new = [] := by
        refine List.eq_nil_iff_forall_not_mem.mpr fun row hrow => ?_
        obtain ⟨followUps, heq, followUp, hmem, -⟩ := hnew row hrow
        rw [hplan followUps heq] at hmem
        exact absurd hmem List.not_mem_nil
      rw [List.append_nil]
      constructor
      · rintro ⟨row', hrow', hbackfill, hactive⟩
        rcases mem_update.mp hrow' with ⟨row, hrow, hmatch, rfl⟩ | ⟨hrow, hmatch⟩
        · rw [onRow_isActive] at hactive
          exact Or.inr ⟨row, hrow, hmatch, hactive⟩
        · exact Or.inl ⟨row', hrow, hbackfill, hactive, hmatch⟩
      · rintro (⟨row, hrow, hbackfill, hactive, hmatch⟩ | ⟨row, hrow, hmatch, hback⟩)
        · exact ⟨row, mem_update.mpr (Or.inr ⟨hrow, hmatch⟩), hbackfill, hactive⟩
        · refine ⟨_, mem_update_of_mem hrow hmatch, ?_, ?_⟩
          · rw [onRow_kind, hkinds row hrow (matchesRow_iff.mp hmatch).1]
            exact hjob
          · rw [onRow_isActive]
            exact hback
  | error e =>
      obtain ⟨row, hrow, hmatch, -, hback, key, hkey, hheld⟩ := (settle_error_iff hv plan).mp ⟨e, hsettle⟩
      refine iff_of_true ?_ (Or.inr ⟨row, hrow, hmatch, hback⟩)
      obtain ⟨kind, hkind, hpayload⟩ := hkeyed row hrow
      have hbackfill := hkinds row hrow (matchesRow_iff.mp hmatch).1
      rw [hkind] at hbackfill
      rw [← hbackfill] at hjob
      obtain rfl : kind = .reembedBackfill := RowKind.live.inj (beq_iff_eq.mp hjob)
      rw [hkey] at hpayload
      exact pending_of_activeKey hkeyed hpayload hheld

/-- The settle of another kind of job that arms no backfill. -/
theorem pending_tableAfter_other (hkinds : ∀ row ∈ jobs, row.id = job.id → row.kind = job.kind)
    (hjob : ¬job.kind.isBackfill)
    (hplan : ∀ followUps, plan = .done followUps → ∀ f ∈ followUps, f.2.kind ≠ .reembedBackfill) :
    BackfillPending (tableAfter config nowMs job jobs plan) ↔ BackfillPending jobs := by
  unfold tableAfter
  cases hsettle : settle config nowMs job jobs plan with
  | error e => exact Iff.rfl
  | ok next =>
      obtain ⟨new, rfl, hnew⟩ := settle_rows hsettle
      constructor
      · rintro ⟨row', hrow', hbackfill, hactive⟩
        rcases List.mem_append.mp hrow' with hold | hadded
        · rcases mem_update.mp hold with ⟨row, hrow, hmatch, rfl⟩ | ⟨hrow, -⟩
          · rw [onRow_kind, hkinds row hrow (matchesRow_iff.mp hmatch).1] at hbackfill
            exact absurd hbackfill hjob
          · exact ⟨row', hrow, hbackfill, hactive⟩
        · obtain ⟨followUps, heq, followUp, hmem, rfl⟩ := hnew row' hadded
          exact absurd (RowKind.live.inj (beq_iff_eq.mp hbackfill)) (hplan followUps heq followUp hmem)
      · rintro ⟨row, hrow, hbackfill, hactive⟩
        refine ⟨row, List.mem_append_left _ (mem_update.mpr (Or.inr ⟨hrow, fun hmatch => hjob ?_⟩)),
          hbackfill, hactive⟩
        rw [← hkinds row hrow (matchesRow_iff.mp hmatch).1]
        exact hbackfill

/-- A follow-up with a fresh id leaves its key held. -/
theorem activeKey_enqueueAll {maxAttempts : Nat} {followUps : List (String × NewJob)} {key : String}
    (hv : TableValid jobs) (hnd : (followUps.map Prod.fst).Nodup)
    (hfresh : ∀ id ∈ followUps.map Prod.fst, id ∉ jobs.map JobRow.id)
    (h : ∃ f ∈ followUps, f.2.dedupeKey = some key) :
    key ∈ activeKeys (enqueueAll nowMs maxAttempts jobs followUps) := by
  induction followUps generalizing jobs with
  | nil =>
      obtain ⟨f, hf, -⟩ := h
      exact absurd hf List.not_mem_nil
  | cons followUp followUps ih =>
      rw [List.map_cons, List.nodup_cons] at hnd
      rw [enqueueAll, List.foldl_cons, ← enqueueAll]
      have hvalid : TableValid (enqueueConn followUp.1 nowMs followUp.2 maxAttempts jobs).1 :=
        hv.enqueueConn
      obtain ⟨f, hf, hkey⟩ := h
      rcases List.mem_cons.mp hf with rfl | hf
      · have hheld : key ∈ activeKeys (enqueueConn f.1 nowMs f.2 maxAttempts jobs).1 :=
          activeKey_enqueueConn hv (hfresh f.1 List.mem_cons_self) hkey
        obtain ⟨new, heq, -⟩ := enqueueAll_append nowMs maxAttempts followUps
          (enqueueConn f.1 nowMs f.2 maxAttempts jobs).1
        rw [heq, activeKeys, keys_append]
        exact List.mem_append_left _ hheld
      · refine ih hvalid hnd.2 (fun id hid hold => ?_) ⟨f, hf, hkey⟩
        obtain ⟨row, hrow, rfl⟩ := List.mem_map.mp hold
        rcases mem_enqueueConn hrow with hrow | ⟨rfl, -⟩
        · exact hfresh row.id (List.mem_cons_of_mem _ hid) (List.mem_map_of_mem hrow)
        · exact hnd.1 hid

/-- A follow-up that arms the backfill leaves one ready or running. -/
theorem pending_of_armed (hv : TableValid jobs) (hkeyed : WellKeyed jobs)
    {followUps : List (String × NewJob)} (hjobs : ∀ f ∈ followUps, f.2.Keyed)
    (hnd : (followUps.map Prod.fst).Nodup)
    (hfresh : ∀ id ∈ followUps.map Prod.fst, id ∉ jobs.map JobRow.id)
    (hcommitted : jobs.countP job.matchesRow ≠ 0)
    (harms : followUps.any fun f => f.2.kind == .reembedBackfill) :
    BackfillPending (tableAfter config nowMs job jobs (.done followUps)) := by
  obtain ⟨f, hf, hkind⟩ := List.any_eq_true.mp harms
  have hdrop := hv.active.update_of_drop (p := job.matchesRow) (f := (·.markDone nowMs))
    fun _ _ _ => Or.inl rfl
  have hsettle : settle config nowMs job jobs (.done followUps) = .ok (enqueueAll nowMs config.maxAttempts
      (update job.matchesRow (·.markDone nowMs) jobs) followUps) := by
    rw [settle, markDoneWithFollowups, updateJobs_of_unique hdrop]
    dsimp only [bind, Except.bind]
    rw [if_pos hcommitted]
    rfl
  have hafter : WellKeyed (enqueueAll nowMs config.maxAttempts
      (update job.matchesRow (·.markDone nowMs) jobs) followUps) := by
    refine wellKeyed_enqueueAll (wellKeyed_update hkeyed fun _ => ⟨rfl, rfl, rfl⟩) fun other hother => ?_
    obtain ⟨g, hg, rfl⟩ := List.mem_map.mp hother
    exact hjobs g hg
  have hjob := hjobs f hf
  rw [NewJob.Keyed, beq_iff_eq.mp hkind] at hjob
  rw [tableAfter, hsettle]
  cases hkey : f.2.dedupeKey with
  | none =>
      rw [hkey] at hjob
      unfold JobPayload.Keyed at hjob
      split at hjob <;> simp at hjob
  | some key =>
      rw [hkey] at hjob
      refine pending_of_activeKey hafter hjob (activeKey_enqueueAll ?_ hnd ?_ ⟨f, hf, hkey⟩)
      · exact hv.update_of_drop (fun _ => rfl) fun _ _ _ => Or.inl rfl
      · rw [map_update (fun row => JobRow.markDone_id nowMs row)]
        exact hfresh

/-- After a failed settle that does not abort, the row of the job is failed. -/
theorem hasStatus_failed_iff {error : String} {failure : Option JobFailure}
    (h : settle config nowMs job jobs (.failed error failure) = .ok next) :
    hasStatus .failed job.id next ↔ EndsFailed job failure jobs := by
  obtain ⟨new, rfl, hnew⟩ := settle_rows h
  obtain rfl : new = [] := by
    refine List.eq_nil_iff_forall_not_mem.mpr fun row hrow => ?_
    obtain ⟨followUps, heq, -⟩ := hnew row hrow
    cases heq
  rw [List.append_nil, hasStatus, List.any_eq_true]
  have hstatus (row : JobRow) :
      ((Settle.failed error failure).onRow config nowMs job row).status = .failed ↔
        job.failsForGood failure := by
    dsimp only [Settle.onRow]
    cases job.failsForGood failure <;> simp [JobRow.markFailed, JobRow.markRetry]
  constructor
  · rintro ⟨row', hrow', heq⟩
    rw [Bool.and_eq_true, beq_iff_eq, beq_iff_eq] at heq
    rcases mem_update.mp hrow' with ⟨row, hrow, hmatch, rfl⟩ | ⟨hrow, hmatch⟩
    · refine ⟨row, hrow, (matchesRow_iff.mp hmatch).1, ?_⟩
      rw [if_pos hmatch]
      exact (hstatus row).mp heq.2
    · refine ⟨row', hrow, heq.1, ?_⟩
      rw [if_neg hmatch]
      exact heq.2
  · rintro ⟨row, hrow, hid, hend⟩
    split_ifs at hend with hmatch
    · refine ⟨_, mem_update_of_mem hrow hmatch, ?_⟩
      rw [Bool.and_eq_true, beq_iff_eq, beq_iff_eq]
      refine ⟨?_, (hstatus row).mpr hend⟩
      dsimp only [Settle.onRow]
      rw [if_pos hend]
      exact hid
    · refine ⟨row, mem_update.mpr (Or.inr ⟨hrow, hmatch⟩), ?_⟩
      rw [Bool.and_eq_true, beq_iff_eq, beq_iff_eq]
      exact ⟨hid, hend⟩

/-! ### The flag after a run -/

/-- A batch with nothing left ends the chain. -/
theorem handleReembedBackfill_of_ne (readMs : Int) {progress : ReembedProgress}
    (h : progress ≠ .wrote true) : handleReembedBackfill readMs progress = (false, .done []) := by
  match progress with
  | .wrote true => exact absurd rfl h
  | .wrote false => rfl
  | .covered => rfl
  | .noProvider => rfl
  | .staleSignature => rfl

theorem flagAfterRun_reembedded (hjob : job.kind.isBackfill) (inProgress : Bool) (readMs : Int)
    (progress : ReembedProgress) :
    flagAfterRun config nowMs job jobs inProgress (.reembedded readMs progress) =
      (handleReembedBackfill readMs progress).1 := by
  have hdone : ∀ flag : Bool, (match settlePlannedJob config nowMs job jobs flag (.done []) with
      | .ok (_, flag) => flag
      | .error _ => flag) = flag := by
    intro flag
    dsimp only [settlePlannedJob, List.any_nil]
    cases markDoneWithFollowups config nowMs job [] jobs with
    | error e => rfl
    | ok next =>
        dsimp only [bind, Except.bind, List.any_nil]
        simp
  have hdefer : ∀ flag untilMs reason,
      (match settlePlannedJob config nowMs job jobs flag (.deferred untilMs reason) with
      | .ok (_, flag) => flag
      | .error _ => flag) = flag := by
    intro flag untilMs reason
    dsimp only [settlePlannedJob]
    cases markDeferred config nowMs job untilMs reason jobs <;> rfl
  unfold flagAfterRun
  dsimp only [RunEnd.settle, RunEnd.flag]
  rw [if_pos hjob]
  by_cases hmore : progress = .wrote true
  · rw [hmore]
    exact hdefer _ _ _
  · rw [handleReembedBackfill_of_ne readMs hmore]
    exact hdone _

theorem flagAfterRun_deferred (inProgress : Bool) {how : RunEnd}
    (hhow : (∃ readMs, how = .gateBusy readMs) ∨ ∃ untilMs reason, how = .deferred untilMs reason) :
    flagAfterRun config nowMs job jobs inProgress how = inProgress := by
  unfold flagAfterRun
  rcases hhow with ⟨readMs, rfl⟩ | ⟨untilMs, reason, rfl⟩
  · dsimp only [RunEnd.settle, RunEnd.flag]
    split_ifs
    · dsimp only [settlePlannedJob]
      cases markDeferred config nowMs job _ _ jobs <;> rfl
    · rfl
  · dsimp only [RunEnd.settle, RunEnd.flag]
    split_ifs
    · rfl
    · dsimp only [settlePlannedJob]
      cases markDeferred config nowMs job _ _ jobs <;> rfl

/-- A failed settle clears the flag of a backfill job that is failed then. -/
theorem flagAfterRun_failed (hv : TableValid jobs) (inProgress : Bool) (error : String)
    (failure : Option JobFailure) :
    flagAfterRun config nowMs job jobs inProgress (.failed error failure) = true ↔
      inProgress = true ∧ ¬(job.kind.isBackfill ∧ EndsFailed job failure jobs) := by
  have hfst : (settlePlannedJob config nowMs job jobs inProgress (.failed error failure)).map Prod.fst =
      settle config nowMs job jobs (.failed error failure) := settlePlannedJob_fst inProgress
  unfold flagAfterRun
  dsimp only [RunEnd.settle, RunEnd.flag]
  cases hplanned : settlePlannedJob config nowMs job jobs inProgress (.failed error failure) with
  | error e =>
      rw [hplanned] at hfst
      obtain ⟨row, hrow, hmatch, -, hback, -⟩ := (settle_error_iff hv _).mp ⟨e, hfst.symm⟩
      have hnot : ¬EndsFailed job failure jobs := by
        rintro ⟨other, hother, hid, hend⟩
        obtain rfl := eq_of_pk_eq hv.ids hother hrow (hid.trans (matchesRow_iff.mp hmatch).1.symm)
        rw [if_pos hmatch] at hend
        dsimp only [Settle.putsBack] at hback
        rw [hend] at hback
        cases hback
      exact (and_iff_left fun h => hnot h.2).symm
  | ok next =>
      rw [hplanned] at hfst
      rw [← hasStatus_failed_iff hfst.symm]
      dsimp only [settlePlannedJob] at hplanned
      obtain ⟨⟨table, n⟩, -, heq⟩ := Fallible.bind_ok_iff.mp hplanned
      obtain rfl := Except.ok.inj heq
      dsimp only
      rw [← Bool.and_eq_true]
      split_ifs with hclear
      · simp [hclear]
      · simp [hclear]

theorem flagAfterRun_planned (hv : TableValid jobs) (hjob : ¬job.kind.isBackfill) (inProgress : Bool)
    (followUps : List (String × KeyedJob)) :
    flagAfterRun config nowMs job jobs inProgress (.planned followUps) = true ↔
      inProgress = true ∨ jobs.countP job.matchesRow ≠ 0 ∧
        (followUps.map fun f => (f.1, f.2.val)).any fun f => f.2.kind == .reembedBackfill := by
  have hdrop := hv.active.update_of_drop (p := job.matchesRow) (f := (·.markDone nowMs))
    fun _ _ _ => Or.inl rfl
  unfold flagAfterRun
  dsimp only [RunEnd.settle, RunEnd.flag]
  rw [if_neg hjob]
  dsimp only [settlePlannedJob]
  rw [markDoneWithFollowups, updateJobs_of_unique hdrop]
  dsimp only [bind, Except.bind]
  by_cases hcommitted : jobs.countP job.matchesRow ≠ 0
  · rw [if_pos hcommitted]
    dsimp only
    rw [Bool.true_and]
    split_ifs with harms
    · simp [hcommitted, harms]
    · simp [harms]
  · rw [if_neg hcommitted]
    simp [hcommitted]

/-- The end of a backfill run with the settle of its job leaves the flag true to the table. -/
theorem flagAfterRun_backfill {inProgress : Bool} {how : RunEnd} (hv : TableValid jobs)
    (hkeyed : WellKeyed jobs) (hkinds : ∀ row ∈ jobs, row.id = job.id → row.kind = job.kind)
    (hjob : job.kind.isBackfill) (hplan : how.settle job = some plan)
    (hkept : EndKept config nowMs job jobs plan how) (hflag : inProgress = true ↔ BackfillPending jobs) :
    flagAfterRun config nowMs job jobs inProgress how = true ↔
      BackfillPending (tableAfter config nowMs job jobs plan) := by
  have halive (h : OtherPending job jobs ∨ KeepsAlive config nowMs job jobs plan) :
      BackfillPending jobs ↔ OtherPending job jobs ∨
        ∃ row ∈ jobs, job.matchesRow row ∧ plan.putsBack config nowMs job row := by
    constructor
    · rintro ⟨row, hrow, hbackfill, hactive⟩
      by_cases hmatch : job.matchesRow row
      · exact h.imp_right fun hkeeps => ⟨row, hrow, hmatch, (hkeeps row hrow hmatch).trans hactive⟩
      · exact Or.inl ⟨row, hrow, hbackfill, hactive, hmatch⟩
    · rintro (⟨row, hrow, hbackfill, hactive, -⟩ | ⟨row, hrow, hmatch, hback⟩)
      · exact ⟨row, hrow, hbackfill, hactive⟩
      · rcases h with ⟨other, hother, hbackfill, hactive, -⟩ | hkeeps
        · exact ⟨other, hother, hbackfill, hactive⟩
        · refine ⟨row, hrow, ?_, (hkeeps row hrow hmatch).symm.trans hback⟩
          rw [hkinds row hrow (matchesRow_iff.mp hmatch).1]
          exact hjob
  cases how with
  | gateBusy readMs =>
      rw [flagAfterRun_deferred inProgress (Or.inl ⟨readMs, rfl⟩), hflag, halive (hkept hjob)]
      dsimp only [RunEnd.settle] at hplan
      split_ifs at hplan
      obtain rfl := Option.some.inj hplan
      exact (pending_tableAfter hv hkeyed hkinds hjob fun _ heq => Settle.noConfusion heq).symm
  | planned followUps =>
      dsimp only [RunEnd.settle] at hplan
      rw [if_pos hjob] at hplan
      cases hplan
  | deferred untilMs reason =>
      dsimp only [RunEnd.settle] at hplan
      rw [if_pos hjob] at hplan
      cases hplan
  | failed error failure =>
      obtain rfl := Option.some.inj hplan
      rw [flagAfterRun_failed hv, pending_tableAfter hv hkeyed hkinds hjob fun _ heq => Settle.noConfusion heq]
      obtain ⟨hends, hstays⟩ := hkept hjob
      by_cases hend : EndsFailed job failure jobs
      · refine iff_of_false (fun h => h.2 ⟨hjob, hend⟩) ?_
        rintro (hother | ⟨row, hrow, hmatch, hback⟩)
        · exact hends hend hother
        · obtain ⟨other, hother, hid, hgood⟩ := hend
          obtain rfl := eq_of_pk_eq hv.ids hother hrow (hid.trans (matchesRow_iff.mp hmatch).1.symm)
          rw [if_pos hmatch] at hgood
          dsimp only [Settle.putsBack] at hback
          rw [hgood] at hback
          cases hback
      · rw [and_iff_left fun h => hend h.2, hflag]
        exact halive (hstays hend)
  | reembedded readMs progress =>
      dsimp only [RunEnd.settle] at hplan
      rw [if_pos hjob] at hplan
      obtain rfl := Option.some.inj hplan
      rw [flagAfterRun_reembedded hjob]
      dsimp only [EndKept] at hkept
      split_ifs at hkept with hmore
      · rw [hmore, pending_tableAfter hv hkeyed hkinds hjob fun _ heq => Settle.noConfusion heq]
        refine iff_of_true rfl (hkept.imp_right ?_)
        rintro ⟨row, hrow, hmatch, hyoung⟩
        refine ⟨row, hrow, hmatch, ?_⟩
        dsimp only [handleReembedBackfill, Settle.putsBack]
        rw [hyoung]
        rfl
      · rw [handleReembedBackfill_of_ne readMs hmore, pending_tableAfter hv hkeyed hkinds hjob fun _ heq =>
          (Settle.done.inj heq).symm]
        refine iff_of_false Bool.noConfusion ?_
        rintro (hother | ⟨row, -, -, hback⟩)
        · exact hkept hother
        · cases hback

/-- The same for another kind of job. -/
theorem flagAfterRun_other {inProgress : Bool} {how : RunEnd} (hv : TableValid jobs)
    (hkeyed : WellKeyed jobs) (hkinds : ∀ row ∈ jobs, row.id = job.id → row.kind = job.kind)
    (hjob : ¬job.kind.isBackfill) (hplan : how.settle job = some plan)
    (hkept : EndKept config nowMs job jobs plan how) (hflag : inProgress = true ↔ BackfillPending jobs) :
    flagAfterRun config nowMs job jobs inProgress how = true ↔
      BackfillPending (tableAfter config nowMs job jobs plan) := by
  cases how with
  | gateBusy readMs =>
      rw [flagAfterRun_deferred inProgress (Or.inl ⟨readMs, rfl⟩), hflag]
      dsimp only [RunEnd.settle] at hplan
      split_ifs at hplan
      obtain rfl := Option.some.inj hplan
      exact (pending_tableAfter_other hkinds hjob fun _ heq => Settle.noConfusion heq).symm
  | planned followUps =>
      dsimp only [RunEnd.settle] at hplan
      rw [if_neg hjob] at hplan
      obtain rfl := Option.some.inj hplan
      rw [flagAfterRun_planned hv hjob, hflag]
      obtain ⟨hnd, hfresh⟩ := hkept
      have hids : (followUps.map fun f => (f.1, f.2.val)).map Prod.fst = followUps.map Prod.fst :=
        List.map_map
      by_cases harmed : jobs.countP job.matchesRow ≠ 0 ∧
          (followUps.map fun f => (f.1, f.2.val)).any fun f => f.2.kind == .reembedBackfill
      · refine iff_of_true (Or.inr harmed) (pending_of_armed hv hkeyed ?_ ?_ ?_ harmed.1 harmed.2)
        · intro f hf
          obtain ⟨followUp, -, rfl⟩ := List.mem_map.mp hf
          exact followUp.2.property
        · rw [hids]
          exact hnd
        · rw [hids]
          exact hfresh
      · rw [or_iff_left harmed]
        by_cases hcommitted : jobs.countP job.matchesRow = 0
        · rw [tableAfter, settle_of_stale hv (List.countP_eq_zero.mp hcommitted)]
        · refine (pending_tableAfter_other hkinds hjob fun more heq f hf hkind => ?_).symm
          obtain rfl := Settle.done.inj heq
          exact harmed ⟨hcommitted, List.any_eq_true.mpr ⟨f, hf, beq_iff_eq.mpr hkind⟩⟩
  | deferred untilMs reason =>
      rw [flagAfterRun_deferred inProgress (Or.inr ⟨untilMs, reason, rfl⟩), hflag]
      dsimp only [RunEnd.settle] at hplan
      rw [if_neg hjob] at hplan
      obtain rfl := Option.some.inj hplan
      exact (pending_tableAfter_other hkinds hjob fun _ heq => Settle.noConfusion heq).symm
  | failed error failure =>
      obtain rfl := Option.some.inj hplan
      rw [flagAfterRun_failed hv, and_iff_left fun h => hjob h.1, hflag]
      exact (pending_tableAfter_other hkinds hjob fun _ heq => Settle.noConfusion heq).symm
  | reembedded readMs progress =>
      dsimp only [RunEnd.settle] at hplan
      rw [if_neg hjob] at hplan
      cases hplan

end Settle

/-! ### One event -/

section Event

variable {config : QueueConfig} {nowMs : Int} {jobs jobs' : List JobRow} {claims : List Claim} {op : Op}

/-- A store call that takes the backfill jobs one by one, and neither ends nor starts one. -/
theorem pending_of_stepsRows (h : StepsRows config nowMs jobs claims op jobs')
    (hsame : ∀ row ∈ jobs, ∀ row', RowStep config nowMs claims op row row' → row.kind.isBackfill →
      row'.status.isActive = row.status.isActive)
    (hnew : ∀ job ∈ op.newJobs, job.kind ≠ .reembedBackfill) :
    BackfillPending jobs' ↔ BackfillPending jobs := by
  obtain ⟨f, new, rfl, hf, hadded⟩ := h
  constructor
  · rintro ⟨row', hrow', hbackfill, hactive⟩
    rcases List.mem_append.mp hrow' with hold | hrow
    · obtain ⟨row, hrow, rfl⟩ := List.mem_map.mp hold
      have hstep := hf row hrow
      rw [hstep.keeps.2.1] at hbackfill
      rw [hsame row hrow _ hstep hbackfill] at hactive
      exact ⟨row, hrow, hbackfill, hactive⟩
    · obtain ⟨id, job, hjob, rfl, -⟩ := hadded row' hrow
      exact absurd (RowKind.live.inj (beq_iff_eq.mp hbackfill)) (hnew job hjob)
  · rintro ⟨row, hrow, hbackfill, hactive⟩
    have hstep := hf row hrow
    refine ⟨f row, List.mem_append_left _ (List.mem_map_of_mem hrow), ?_, ?_⟩
    · rw [hstep.keeps.2.1]
      exact hbackfill
    · rw [hsame row hrow _ hstep hbackfill]
      exact hactive

/-- What a claim, a recovery, a release and an allowed requeue make of the backfill jobs. -/
theorem RowStep.isActive_eq {row row' : JobRow} (h : RowStep config nowMs claims op row row')
    (hsettle : ∀ i how, op ≠ .settle i how)
    (hrequeue : ∀ predicate, op.requeues = some predicate → predicate row → ¬row.kind.isBackfill)
    (hbackfill : row.kind.isBackfill) : row'.status.isActive = row.status.isActive := by
  cases h with
  | same => rfl
  | claim lockDurationMs lockUntil _ hdue =>
      rw [JobRow.isDue.ready hdue]
      rfl
  | done i => exact absurd rfl (hsettle i _)
  | failed i => exact absurd rfl (hsettle i _)
  | retry i => exact absurd rfl (hsettle i _)
  | deferred i => exact absurd rfl (hsettle i _)
  | recover _ hstale =>
      rw [JobRow.isStale.running hstale]
      rfl
  | release _ hrunning =>
      rw [hrunning]
      rfl
  | requeue _ predicate _ hop hrow => exact absurd hbackfill (hrequeue predicate hop hrow)
  | cancel _ predicate _ hop hrow => exact absurd hbackfill (hrequeue predicate hop hrow)

/-- A requeue leaves ready and running rows alone. -/
theorem RowStep.eq_of_requeue {row row' : JobRow} {predicate : JobRow → Bool}
    (h : RowStep config nowMs claims op row row') (hop : op.requeues = some predicate)
    (hactive : row.status.isActive) : row' = row := by
  have hfailed : ∀ predicate, op.requeues = some predicate → predicate row → row.status = .failed := by
    intro predicate hop hrow
    cases op with
    | requeueFailed =>
        obtain rfl := Option.some.inj hop
        exact beq_iff_eq.mp hrow
    | requeueTransientFailed =>
        obtain rfl := Option.some.inj hop
        exact beq_iff_eq.mp (Bool.and_eq_true_iff.mp hrow).1
    | _ => cases hop
  cases h with
  | same => rfl
  | requeue _ p _ hop hrow =>
      rw [hfailed p hop hrow] at hactive
      cases hactive
  | cancel _ p _ hop hrow =>
      rw [hfailed p hop hrow] at hactive
      cases hactive
  | _ => cases hop

/-- Without retired rows the purge finds nothing. -/
theorem purge_of_wellKeyed (h : WellKeyed jobs) : purgeRetiredJobs jobs = jobs := by
  refine List.filter_eq_self.mpr fun row hrow => ?_
  obtain ⟨kind, hkind, -⟩ := h row hrow
  rw [hkind]
  rfl

/-- A store call on a table without retired rows takes the rows one by one. -/
theorem stepsRows_of_wellKeyed {claimed : Option Job} (hv : TableValid jobs) (hkeyed : WellKeyed jobs)
    (h : perform config nowMs jobs claims op = .ok (jobs', claimed)) :
    StepsRows config nowMs jobs claims op jobs' := by
  rcases perform_stepsRows hv h with hsteps | ⟨-, rfl⟩
  · exact hsteps
  · rw [purge_of_wellKeyed hkeyed]
    exact stepsRows_refl config nowMs jobs claims op

theorem ClaimsOfRows.stepsRows {claimed : List Job} (hc : ClaimsOfRows jobs claimed)
    (h : StepsRows config nowMs jobs claims op jobs') : ClaimsOfRows jobs' claimed := by
  refine ⟨fun job hjob => ids_subset_of_stepsRows h (hc.owned job hjob), fun job hjob row' hrow' hid => ?_⟩
  obtain ⟨f, new, rfl, hf, hadded⟩ := h
  rcases List.mem_append.mp hrow' with hold | hrow
  · obtain ⟨row, hrow, rfl⟩ := List.mem_map.mp hold
    rw [(hf row hrow).keeps.2.1]
    exact hc.kinds job hjob row hrow ((hf row hrow).id.symm.trans hid)
  · obtain ⟨id, other, -, rfl, hfresh⟩ := hadded row' hrow
    have howned := hc.owned job hjob
    rw [← hid] at howned
    exact absurd howned hfresh

theorem ClaimsOfRows.advance {w : World} {label : Label} (hv : TableValid w.jobs)
    (hkeyed : WellKeyed w.jobs) (hc : ClaimsOfRows w.jobs (w.claims.map Claim.job)) :
    ClaimsOfRows (advance config w label).jobs ((advance config w label).claims.map Claim.job) := by
  cases hout : outcome config w label with
  | error e =>
      rw [advance_of_error hout, map_job_recordClaims_none]
      exact hc
  | ok next =>
      obtain ⟨jobs', claimed⟩ := next
      rw [advance_of_ok hout]
      have hsteps := stepsRows_of_wellKeyed hv hkeyed hout
      rcases (perform_cases hv hout).2 with ⟨rfl, -⟩ | ⟨lock, row, lockUntil, hop, -, hrow, -, rfl⟩
      · rw [map_job_recordClaims_none]
        exact hc.stepsRows hsteps
      · have hclaims : (recordClaims w.claims (some (rowToJob (row.claim (w.now label) lockUntil)))
            label.op).map Claim.job =
              w.claims.map Claim.job ++ [rowToJob (row.claim (w.now label) lockUntil)] := by
          rw [hop]
          exact List.map_append
        rw [hclaims]
        refine ClaimsOfRows.stepsRows ⟨fun job hjob => ?_, fun job hjob other hother hid => ?_⟩ hsteps
        · rcases List.mem_append.mp hjob with hjob | hjob
          · exact hc.owned job hjob
          · rw [List.mem_singleton.mp hjob]
            exact List.mem_map.mpr ⟨row, hrow, rfl⟩
        · rcases List.mem_append.mp hjob with hjob | hjob
          · exact hc.kinds job hjob other hother hid
          · rw [List.mem_singleton.mp hjob] at hid ⊢
            rw [eq_of_pk_eq hv.ids hother hrow hid]
            rfl

end Event

section Step

variable {config : QueueConfig} {w : BackfillWorld} {label : BackfillLabel}

/-- The jobs of an event carry the keys of their payloads. -/
theorem keyed_newJobs {claims : List Claim} {event : BackfillEvent} {op : Op}
    (h : event.op claims = some op) : ∀ job ∈ op.newJobs, job.Keyed := by
  cases event with
  | enqueue id job other =>
      obtain rfl := Option.some.inj h
      intro other hother
      rw [List.mem_singleton.mp hother]
      exact job.property
  | ensure id planned =>
      obtain ⟨payload, -, rfl⟩ := Option.map_eq_some_iff.mp h
      intro other hother
      rw [List.mem_singleton.mp hother]
      exact ⟨rfl, rfl⟩
  | ended i how =>
      obtain ⟨claim, -, hsettle⟩ := Option.bind_eq_some_iff.mp h
      obtain ⟨plan, hplan, rfl⟩ := Option.map_eq_some_iff.mp hsettle
      intro other hother
      cases how with
      | planned followUps =>
          dsimp only [RunEnd.settle] at hplan
          split_ifs at hplan
          obtain rfl := Option.some.inj hplan
          obtain ⟨f, hf, rfl⟩ := List.mem_map.mp hother
          obtain ⟨followUp, -, rfl⟩ := List.mem_map.mp hf
          exact followUp.2.property
      | reembedded readMs progress =>
          dsimp only [RunEnd.settle] at hplan
          split_ifs at hplan
          obtain rfl := Option.some.inj hplan
          by_cases hmore : progress = .wrote true
          · rw [hmore] at hother
            exact absurd hother List.not_mem_nil
          · rw [handleReembedBackfill_of_ne readMs hmore] at hother
            exact absurd hother List.not_mem_nil
      | gateBusy readMs =>
          dsimp only [RunEnd.settle] at hplan
          split_ifs at hplan
          obtain rfl := Option.some.inj hplan
          exact absurd hother List.not_mem_nil
      | deferred untilMs reason =>
          dsimp only [RunEnd.settle] at hplan
          split_ifs at hplan
          obtain rfl := Option.some.inj hplan
          exact absurd hother List.not_mem_nil
      | failed error failure =>
          obtain rfl := Option.some.inj hplan
          exact absurd hother List.not_mem_nil
  | _ =>
      obtain rfl := Option.some.inj h
      exact fun other hother => absurd hother List.not_mem_nil

/-- The table after an event, when its store call does not abort. -/
theorem flagTrue_of_stepsRows {jobs : List JobRow} {inProgress : Bool} {op : Op} {nowMs : Int}
    (hsteps : StepsRows config nowMs w.jobs w.claims op jobs)
    (hsettle : ∀ i how, op ≠ .settle i how) (hnew : ∀ job ∈ op.newJobs, job.kind ≠ .reembedBackfill)
    (hkept : ∀ predicate, op.requeues = some predicate →
      BackfillPending w.jobs ∨ ∀ row ∈ w.jobs, predicate row → ¬row.kind.isBackfill)
    (hflag : inProgress = true ↔ BackfillPending w.jobs) : inProgress = true ↔ BackfillPending jobs := by
  by_cases hquiet : ∀ predicate, op.requeues = some predicate →
      ∀ row ∈ w.jobs, predicate row → ¬row.kind.isBackfill
  · rw [hflag, pending_of_stepsRows hsteps (fun row hrow row' hstep => ?_) hnew]
    exact hstep.isActive_eq hsettle fun predicate hop => hquiet predicate hop row hrow
  · push Not at hquiet
    obtain ⟨predicate, hop, row, hrow, hselected, hbackfill⟩ := hquiet
    have hpending := (hkept predicate hop).resolve_right fun hnone => hnone row hrow hselected hbackfill
    refine iff_of_true (hflag.mpr hpending) ?_
    obtain ⟨other, hother, hkind, hactive⟩ := hpending
    obtain ⟨f, new, rfl, hf, -⟩ := hsteps
    have heq := (hf other hother).eq_of_requeue hop hactive
    refine ⟨f other, List.mem_append_left _ (List.mem_map_of_mem hother), ?_⟩
    rw [heq]
    exact ⟨hkind, hactive⟩

theorem jobs_advance_settle {advanceMs i : Nat} {claim : Claim} {plan : Settle}
    (hclaim : w.claims[i]? = some claim) :
    (advance config w.toWorld ⟨advanceMs, .settle i plan⟩).jobs =
      tableAfter config (w.clock + advanceMs) claim.job w.jobs plan := by
  have hout : outcome config w.toWorld ⟨advanceMs, .settle i plan⟩ =
      (settle config (w.clock + advanceMs) claim.job w.jobs plan).map (·, none) := by
    unfold outcome
    dsimp only [perform]
    rw [hclaim]
    rfl
  unfold advance tableAfter
  rw [hout]
  cases settle config (w.clock + advanceMs) claim.job w.jobs plan <;> rfl

/-- The flag is true to the table after the store call of an allowed event. -/
theorem BackfillSound.flag_advance (h : BackfillSound w) (hkept : FlagKept config w label) {op : Op}
    (hop : label.event.op w.claims = some op) :
    flagAfter config (w.clock + label.advanceMs) w label.event = true ↔
      BackfillPending (advance config w.toWorld ⟨label.advanceMs, op⟩).jobs := by
  obtain ⟨advanceMs, event⟩ := label
  have hquiet (hsettle : ∀ i how, op ≠ .settle i how)
      (hnew : ∀ job ∈ op.newJobs, job.kind ≠ .reembedBackfill)
      (hkept : ∀ predicate, op.requeues = some predicate →
        BackfillPending w.jobs ∨ ∀ row ∈ w.jobs, predicate row → ¬row.kind.isBackfill) :
      w.inProgress = true ↔ BackfillPending (advance config w.toWorld ⟨advanceMs, op⟩).jobs := by
    cases hout : outcome config w.toWorld ⟨advanceMs, op⟩ with
    | error e =>
        rw [advance_of_error hout]
        exact h.flag
    | ok next =>
        rw [advance_of_ok hout]
        exact flagTrue_of_stepsRows (stepsRows_of_wellKeyed h.valid h.keyed hout) hsettle hnew hkept h.flag
  cases event with
  | enqueue id job other =>
      obtain rfl := Option.some.inj hop
      refine hquiet (fun i how heq => nomatch heq) (fun new hnew => ?_) fun predicate heq => nomatch heq
      rw [List.mem_singleton.mp hnew]
      exact other
  | ensure id planned =>
      obtain ⟨payload, rfl, rfl⟩ := Option.map_eq_some_iff.mp hop
      dsimp only [flagAfter, ensureReembedBackfill]
      rw [advance_of_ok rfl]
      dsimp only
      change _ ↔ BackfillPending (enqueueConn id (w.clock + advanceMs) (.reembedBackfill payload)
        config.maxAttempts w.jobs).1
      rcases enqueueConn_cases id (w.clock + advanceMs) (.reembedBackfill payload) config.maxAttempts
        w.jobs with ⟨heq, -⟩ | ⟨heq, -⟩
      · rw [heq]
        exact iff_of_true rfl ⟨_, List.mem_append_right _ List.mem_cons_self, rfl, rfl⟩
      · rw [heq]
        exact h.flag
  | ended i how =>
      obtain ⟨claim, hclaim, hsettle⟩ := Option.bind_eq_some_iff.mp hop
      obtain ⟨plan, hplan, rfl⟩ := Option.map_eq_some_iff.mp hsettle
      have hend := hkept claim hclaim plan hplan
      have hkinds := h.claims.kinds claim.job (List.mem_map_of_mem (List.mem_of_getElem? hclaim))
      dsimp only [flagAfter]
      rw [jobs_advance_settle hclaim, hclaim]
      by_cases hjob : claim.job.kind.isBackfill
      · exact flagAfterRun_backfill h.valid h.keyed hkinds hjob hplan hend h.flag
      · exact flagAfterRun_other h.valid h.keyed hkinds hjob hplan hend h.flag
  | requeueFailed =>
      obtain rfl := Option.some.inj hop
      exact hquiet (fun i how heq => nomatch heq) (fun _ hnew => absurd hnew List.not_mem_nil)
        (hkept _ rfl)
  | requeueTransientFailed =>
      obtain rfl := Option.some.inj hop
      exact hquiet (fun i how heq => nomatch heq) (fun _ hnew => absurd hnew List.not_mem_nil)
        (hkept _ rfl)
  | _ =>
      obtain rfl := Option.some.inj hop
      exact hquiet (fun i how heq => nomatch heq) (fun _ hnew => absurd hnew List.not_mem_nil)
        fun predicate heq => nomatch heq

theorem flagAfter_of_none {nowMs : Int} {event : BackfillEvent} (hop : event.op w.claims = none) :
    flagAfter config nowMs w event = w.inProgress := by
  cases event with
  | ensure id planned =>
      obtain rfl := Option.map_eq_none_iff.mp hop
      rfl
  | ended i how =>
      dsimp only [flagAfter, BackfillEvent.op] at hop ⊢
      cases hclaim : w.claims[i]? with
      | none => rfl
      | some claim =>
          rw [hclaim, Option.bind_some, Option.map_eq_none_iff] at hop
          dsimp only [flagAfterRun]
          rw [hop]
  | _ => rfl

theorem BackfillSound.step (h : BackfillSound w) (hkept : FlagKept config w label) :
    BackfillSound (advanceBackfill config w label) := by
  unfold advanceBackfill
  cases hop : label.event.op w.claims with
  | none =>
      refine ⟨h.valid, h.keyed, h.claims, ?_⟩
      dsimp only [FlagTrue]
      rw [flagAfter_of_none hop]
      exact h.flag
  | some op =>
      exact ⟨advance_valid h.valid, wellKeyed_advance h.keyed (keyed_newJobs hop),
        h.claims.advance h.valid h.keyed, h.flag_advance hkept hop⟩

end Step

/-- After the settle of a step the flag tells the truth. -/
def TrueAfterSettle (config : QueueConfig) (w : BackfillWorld) (label : BackfillLabel) : Prop :=
  ∀ i how, label.event = .ended i how → FlagTrue (advanceBackfill config w label)

/-- In every run of allowed steps the flag is true, after every settle, exactly when a backfill job is
ready or running. -/
theorem flagTrue_run (config : QueueConfig) (labels : List BackfillLabel)
    (h : (backfillQueue config).AllSteps (FlagKept config) labels) :
    (backfillQueue config).AllSteps (TrueAfterSettle config) labels := by
  have hstart : BackfillSound (backfillQueue config).start := by
    refine ⟨tableValid_nil, fun _ hrow => absurd hrow List.not_mem_nil, ⟨?_, ?_⟩, ?_⟩
    · exact fun _ hjob => absurd hjob List.not_mem_nil
    · exact fun _ hjob => absurd hjob List.not_mem_nil
    · exact iff_of_false Bool.false_ne_true fun ⟨_, hrow, _⟩ => absurd hrow List.not_mem_nil
  have hall := (backfillQueue config).throughout_of_steps hstart (fun _ _ h hkept => h.step hkept)
    (fun _ h => h.flag) h
  have hsteps := ((backfillQueue config).throughout_iff_allSteps.mp hall).2
  exact hsteps.mono _ fun _ _ htrue _ _ _ => htrue

/-- One chain: a batch with more pending, and the last batch. -/
def oneChain : List BackfillLabel :=
  [⟨1000, .ensure "job-1" (some ⟨"model-a"⟩)⟩, ⟨0, .claimNext 300000⟩,
    ⟨10, .ended 0 (.reembedded 1010 (.wrote true))⟩, ⟨1000, .claimNext 300000⟩,
    ⟨10, .ended 1 (.reembedded 2020 .covered)⟩]

theorem flagTrue_oneChain : (backfillQueue .default).AllSteps (TrueAfterSettle .default) oneChain := by
  refine flagTrue_run .default oneChain ((backfillQueue .default).allSteps_iff_stepsFrom.mpr ?_)
  have hquiet (w : BackfillWorld) (label : BackfillLabel) (op : Op) (hop : op.requeues = none)
      (hevent : label.event.op w.claims = some op) (hended : ∀ i how, label.event ≠ .ended i how) :
      FlagKept .default w label := by
    obtain ⟨advanceMs, event⟩ := label
    cases event with
    | ended i how => exact absurd rfl (hended i how)
    | _ =>
        intro other hother predicate hpredicate
        obtain rfl := Option.some.inj (hevent.symm.trans hother)
        rw [hop] at hpredicate
        cases hpredicate
  refine ⟨hquiet _ _ _ rfl rfl fun _ _ heq => BackfillEvent.noConfusion heq,
    hquiet _ _ _ rfl rfl fun _ _ heq => BackfillEvent.noConfusion heq, ?_,
    hquiet _ _ _ rfl rfl fun _ _ heq => BackfillEvent.noConfusion heq, ?_, trivial⟩
  · intro claim hclaim plan hplan
    obtain rfl := Option.some.inj hclaim
    dsimp only [EndKept]
    rw [if_pos rfl]
    right
    decide
  · intro claim hclaim plan hplan
    obtain rfl := Option.some.inj hclaim
    dsimp only [EndKept]
    rw [if_neg (by decide)]
    unfold OtherPending
    decide

/-- Chains of two signatures: the first one ends while the other one waits. -/
def twoChains : List BackfillLabel :=
  [⟨1000, .ensure "job-1" (some ⟨"model-a"⟩)⟩, ⟨10, .ensure "job-2" (some ⟨"model-b"⟩)⟩,
    ⟨0, .claimNext 300000⟩, ⟨10, .ended 0 (.reembedded 1020 .covered)⟩]

/-- The flag is cleared while a backfill job is ready. -/
theorem flagTrue_fails :
    ¬∀ config labels, (backfillQueue config).AllSteps (TrueAfterSettle config) labels := by
  intro hall
  have htrue := hall .default twoChains [_, _, _] _ [] rfl 0 _ rfl
  have hpending : BackfillPending (advanceBackfill .default
      ((backfillQueue .default).run (twoChains.take 3)) ⟨10, .ended 0 (.reembedded 1020 .covered)⟩).jobs := by
    decide
  have hflag := htrue.mpr hpending
  revert hflag
  decide

end TinyCortex.Queue
