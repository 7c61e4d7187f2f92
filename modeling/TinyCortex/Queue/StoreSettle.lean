import TinyCortex.Lib.Fallible
import TinyCortex.Queue.Store

/-! Settlement, recovery, release and requeue (`queue/store_settle.rs`). A settle is gated on the
claim token: the id, `attempts` and `started_at_ms` of the snapshot that `claim_next` returned. -/

namespace TinyCortex.Queue

open Table

/-- `WHERE id = ? AND attempts = ? AND started_at_ms IS ?`. -/
def Job.matchesRow (job : Job) (row : JobRow) : Bool :=
  row.id == job.id && row.attempts == (job.attempts : Int) && row.startedAtMs == job.startedAtMs

def JobRow.markDone (nowMs : Int) (row : JobRow) : JobRow :=
  { row with
    status := .done
    completedAtMs := some nowMs
    lockedUntilMs := none
    lastError := none }

/-- Enqueue every follow-up, each under its freshly minted id. -/
def enqueueAll (nowMs : Int) (defaultMaxAttempts : Nat) (jobs : List JobRow)
    (followUps : List (String × NewJob)) : List JobRow :=
  followUps.foldl (fun jobs f => (enqueueConn f.1 nowMs f.2 defaultMaxAttempts jobs).1) jobs

/-- Mark a claimed job done and enqueue its follow-ups in the same transaction; whether the claim
token still matched. -/
def markDoneWithFollowups (config : QueueConfig) (nowMs : Int) (job : Job)
    (followUps : List (String × NewJob)) (jobs : List JobRow) :
    Except QueueError (List JobRow × Bool) := do
  let (next, updated) ← updateJobs job.matchesRow (·.markDone nowMs) jobs
  if updated ≠ 0 then .ok (enqueueAll nowMs config.maxAttempts next followUps, true)
  else .ok (next, false)

def JobRow.markFailed (nowMs : Int) (error : String) (failure : Option JobFailure) (row : JobRow) :
    JobRow :=
  { row with
    status := .failed
    completedAtMs := some nowMs
    lockedUntilMs := none
    lastError := some error
    failureReason := failure.map JobFailure.code
    failureClass := failure.map JobFailure.failureClass }

def JobRow.markRetry (nextAt : Int) (error : String) (row : JobRow) : JobRow :=
  { row with
    status := .ready
    availableAtMs := nextAt
    lockedUntilMs := none
    lastError := some error }

/-- Terminal when the retry budget is exhausted or the failure is unrecoverable. -/
def Job.failsForGood (job : Job) (failure : Option JobFailure) : Bool :=
  decide (job.maxAttempts ≤ job.attempts) || (failure.map JobFailure.isUnrecoverable).getD false

/-- Settle a failed job: back to `ready` with a backoff, or `failed` for good. -/
def markFailedTyped (config : QueueConfig) (nowMs : Int) (job : Job) (error : String)
    (failure : Option JobFailure) (jobs : List JobRow) :
    Except QueueError (List JobRow × Nat) :=
  if job.failsForGood failure then
    updateJobs job.matchesRow (·.markFailed nowMs error failure) jobs
  else
    let nextAt := I64.saturatingAdd nowMs
      (backoffMsWithPolicy job.attempts config.retryBaseMs config.retryCapMs)
    updateJobs job.matchesRow (·.markRetry nextAt error) jobs

/-- `created_at_ms <= now - max_defer_age_ms`: the row spent its whole deferral age. -/
def JobRow.tooOldToDefer (config : QueueConfig) (nowMs : Int) (row : JobRow) : Bool :=
  decide (row.createdAtMs ≤ I64.saturatingSub nowMs config.maxDeferAgeMs)

def JobRow.markDeferred (config : QueueConfig) (nowMs untilMs : Int) (reason : String)
    (preClaimAttempts : Int) (row : JobRow) : JobRow :=
  let expired := row.tooOldToDefer config nowMs
  { row with
    status := if expired then .failed else .ready
    attempts := preClaimAttempts
    availableAtMs := untilMs
    lockedUntilMs := none
    startedAtMs := none
    completedAtMs := if expired then some nowMs else none
    lastError := some reason
    failureReason := if expired then some "defer_age_exceeded" else none
    failureClass := if expired then some "unrecoverable" else none }

/-- Put a claimed job back without spending its attempt, or park it when it is too old. -/
def markDeferred (config : QueueConfig) (nowMs : Int) (job : Job) (untilMs : Int) (reason : String)
    (jobs : List JobRow) : Except QueueError (List JobRow × Nat) :=
  updateJobs job.matchesRow
    (·.markDeferred config nowMs untilMs reason (I64.saturatingSub job.attempts 1)) jobs

def JobRow.isStale (nowMs : Int) (row : JobRow) : Bool :=
  row.status == .running && (row.lockedUntilMs.map fun lock => decide (lock < nowMs)).getD false

def JobRow.recover (row : JobRow) : JobRow :=
  { row with
    status := .ready
    lastError := some (row.lastError.getD "recovered_from_stale_lock") }

/-- Flip every running row whose lease has expired back to ready. -/
def recoverStaleLocks (nowMs : Int) (jobs : List JobRow) : Except QueueError (List JobRow × Nat) :=
  updateJobs (·.isStale nowMs) JobRow.recover jobs

def JobRow.release (row : JobRow) : JobRow :=
  { row with
    status := .ready
    attempts := if 0 < row.attempts then row.attempts - 1 else 0
    lockedUntilMs := none
    startedAtMs := none }

/-- Release every running row on a graceful shutdown, giving its attempt back. -/
def releaseRunningLocks (jobs : List JobRow) : Except QueueError (List JobRow × Nat) :=
  updateJobs (·.status == .running) JobRow.release jobs

/-- `COALESCE(completed_at_ms, created_at_ms) DESC, created_at_ms DESC, id DESC`. -/
def JobRow.newerFirst (a b : JobRow) : Bool :=
  let settledA := a.completedAtMs.getD a.createdAtMs
  let settledB := b.completedAtMs.getD b.createdAtMs
  decide (settledB < settledA) || (settledA == settledB &&
    (decide (b.createdAtMs < a.createdAtMs) ||
      (a.createdAtMs == b.createdAtMs && decide (b.id ≤ a.id))))

/-- The jobs to requeue, each with its key, and the superseded ones to cancel. -/
structure RequeuePlan where
  toRequeue : List (String × Option String)
  toCancel : List String
  deriving DecidableEq, Repr

/-- The loop over the candidates, newest first: `activeKeys` are held by live rows, `claimedKeys`
were won by a newer candidate. -/
def planRequeue (activeKeys claimedKeys : List String) :
    List (String × Option String) → RequeuePlan
  | [] => ⟨[], []⟩
  | (id, none) :: rest =>
      let plan := planRequeue activeKeys claimedKeys rest
      { plan with toRequeue := (id, none) :: plan.toRequeue }
  | (id, some key) :: rest =>
      if key ∈ activeKeys then planRequeue activeKeys claimedKeys rest
      else if key ∈ claimedKeys then
        let plan := planRequeue activeKeys claimedKeys rest
        { plan with toCancel := id :: plan.toCancel }
      else
        let plan := planRequeue activeKeys (key :: claimedKeys) rest
        { plan with toRequeue := (id, some key) :: plan.toRequeue }

def JobRow.cancel (nowMs : Int) (row : JobRow) : JobRow :=
  { row with
    status := .cancelled
    lockedUntilMs := none
    completedAtMs := some nowMs
    lastError := some "superseded by a newer job with the same dedupe_key" }

def JobRow.requeue (nowMs : Int) (row : JobRow) : JobRow :=
  { row with
    status := .ready
    attempts := 0
    availableAtMs := nowMs
    lockedUntilMs := none
    startedAtMs := none
    completedAtMs := none
    lastError := none
    failureReason := none
    failureClass := none }

/-- One `UPDATE … WHERE id = ?` per id; the table and the number of rows changed. -/
def updateEach (f : JobRow → JobRow) : List String → List JobRow →
    Except QueueError (List JobRow × Nat)
  | [], jobs => .ok (jobs, 0)
  | id :: ids, jobs => do
      let (next, n) ← updateJobs (·.id == id) f jobs
      let (last, m) ← updateEach f ids next
      .ok (last, n + m)

/-- The shared requeue transaction of `requeue_failed` and `requeue_transient_failed`. -/
def requeueFailedWhere (predicate : JobRow → Bool) (nowMs : Int) (jobs : List JobRow) :
    Except QueueError (List JobRow × Nat) := do
  let candidates := ((jobs.filter predicate).insertionSort (fun a b => a.newerFirst b)).map
    fun row => (row.id, row.dedupeKey)
  let plan := planRequeue (activeKeys jobs) [] candidates
  let (cancelled, _) ← updateEach (·.cancel nowMs) plan.toCancel jobs
  updateEach (·.requeue nowMs) (plan.toRequeue.map Prod.fst) cancelled

/-- Every terminally failed job. -/
def requeueFailed (nowMs : Int) (jobs : List JobRow) : Except QueueError (List JobRow × Nat) :=
  requeueFailedWhere (·.status == .failed) nowMs jobs

/-- Only failed jobs whose failure class is not `unrecoverable`. -/
def requeueTransientFailed (nowMs : Int) (jobs : List JobRow) :
    Except QueueError (List JobRow × Nat) :=
  requeueFailedWhere
    (fun row => row.status == .failed && row.failureClass != some "unrecoverable") nowMs jobs

/-- The three ways a worker ends a claim. -/
inductive Settle
  | done (followUps : List (String × NewJob))
  | failed (error : String) (failure : Option JobFailure)
  | deferred (untilMs : Int) (reason : String)
  deriving DecidableEq, Repr

/-- The settle call made on behalf of a claimed snapshot, and the table it leaves. -/
def settle (config : QueueConfig) (nowMs : Int) (job : Job) (jobs : List JobRow) :
    Settle → Except QueueError (List JobRow)
  | .done followUps => (markDoneWithFollowups config nowMs job followUps jobs).map Prod.fst
  | .failed error failure => (markFailedTyped config nowMs job error failure jobs).map Prod.fst
  | .deferred untilMs reason => (markDeferred config nowMs job untilMs reason jobs).map Prod.fst

section Rows

variable (config : QueueConfig) (nowMs nextAt untilMs : Int) (error reason : String)
  (failure : Option JobFailure) (attempts : Int) (row : JobRow)

@[simp] theorem JobRow.markDone_id : (row.markDone nowMs).id = row.id := rfl
@[simp] theorem JobRow.markFailed_id : (row.markFailed nowMs error failure).id = row.id := rfl
@[simp] theorem JobRow.markRetry_id : (row.markRetry nextAt error).id = row.id := rfl
@[simp] theorem JobRow.markDeferred_id :
    (row.markDeferred config nowMs untilMs reason attempts).id = row.id := rfl
@[simp] theorem JobRow.recover_id : row.recover.id = row.id := rfl
@[simp] theorem JobRow.release_id : row.release.id = row.id := rfl
@[simp] theorem JobRow.cancel_id : (row.cancel nowMs).id = row.id := rfl
@[simp] theorem JobRow.requeue_id : (row.requeue nowMs).id = row.id := rfl

@[simp] theorem JobRow.markDone_activeKey : (row.markDone nowMs).activeKey = none := rfl
@[simp] theorem JobRow.markFailed_activeKey :
    (row.markFailed nowMs error failure).activeKey = none := rfl
@[simp] theorem JobRow.markRetry_activeKey :
    (row.markRetry nextAt error).activeKey = row.dedupeKey := rfl
@[simp] theorem JobRow.cancel_activeKey : (row.cancel nowMs).activeKey = none := rfl
@[simp] theorem JobRow.requeue_activeKey : (row.requeue nowMs).activeKey = row.dedupeKey := rfl
@[simp] theorem JobRow.recover_activeKey : row.recover.activeKey = row.dedupeKey := rfl
@[simp] theorem JobRow.release_activeKey : row.release.activeKey = row.dedupeKey := rfl

theorem JobRow.markDeferred_activeKey :
    (row.markDeferred config nowMs untilMs reason attempts).activeKey =
      if row.tooOldToDefer config nowMs then none else row.dedupeKey := by
  unfold JobRow.activeKey JobRow.markDeferred
  cases row.tooOldToDefer config nowMs <;> rfl

end Rows

theorem JobRow.activeKey_of_active {row : JobRow} (h : row.status.isActive) :
    row.activeKey = row.dedupeKey := if_pos h

theorem JobRow.activeKey_of_terminal {row : JobRow} (h : row.status.isTerminal) :
    row.activeKey = none := by
  rw [JobStatus.isTerminal_eq, Bool.not_eq_true'] at h
  simp [JobRow.activeKey, h]

theorem JobRow.isStale.running {nowMs : Int} {row : JobRow} (h : row.isStale nowMs) :
    row.status = .running := by
  simp only [JobRow.isStale, Bool.and_eq_true, beq_iff_eq] at h
  exact h.1

theorem matchesRow_iff {job : Job} {row : JobRow} :
    job.matchesRow row ↔
      row.id = job.id ∧ row.attempts = job.attempts ∧ row.startedAtMs = job.startedAtMs := by
  simp only [Job.matchesRow, Bool.and_eq_true, beq_iff_eq, and_assoc]

/-- A settle whose claim token matches no row changes no row and inserts no follow-up. -/
theorem settle_of_stale {config : QueueConfig} {nowMs : Int} {job : Job} {jobs : List JobRow}
    (hv : TableValid jobs) (h : ∀ row ∈ jobs, ¬job.matchesRow row) (how : Settle) :
    settle config nowMs job jobs how = .ok jobs := by
  cases how with
  | done followUps =>
      simp only [settle, markDoneWithFollowups, updateJobs_of_forall_not hv h]
      rfl
  | failed error failure =>
      simp only [settle, markFailedTyped, updateJobs_of_forall_not hv h, ite_self]
      rfl
  | deferred untilMs reason =>
      simp only [settle, markDeferred, updateJobs_of_forall_not hv h]
      rfl

theorem TableValid.enqueueAll {nowMs : Int} {maxAttempts : Nat} {followUps : List (String × NewJob)}
    {jobs : List JobRow} (hv : TableValid jobs) :
    TableValid (enqueueAll nowMs maxAttempts jobs followUps) := by
  induction followUps generalizing jobs with
  | nil => exact hv
  | cons f followUps ih => exact ih hv.enqueueConn

/-! ### Claim tokens across a statement -/

/-- Every token in `jobs'` that carries a start time is the token of the same row in `jobs`. -/
def TokensFrom (jobs jobs' : List JobRow) : Prop :=
  ∀ row' ∈ jobs', row'.startedAtMs = none ∨ ∃ row ∈ jobs, row.id = row'.id ∧
    row.attempts = row'.attempts ∧ row.startedAtMs = row'.startedAtMs

theorem TokensFrom.refl (jobs : List JobRow) : TokensFrom jobs jobs :=
  fun row' h => Or.inr ⟨row', h, rfl, rfl, rfl⟩

theorem TokensFrom.trans {jobs jobs' jobs'' : List JobRow} (h : TokensFrom jobs jobs')
    (h' : TokensFrom jobs' jobs'') : TokensFrom jobs jobs'' := by
  intro row'' hrow''
  rcases h' row'' hrow'' with hnone | ⟨row', hrow', hid', hatt', hst'⟩
  · exact Or.inl hnone
  · rcases h row' hrow' with hnone | ⟨row, hrow, hid, hatt, hst⟩
    · exact Or.inl (hst'.symm.trans hnone)
    · exact Or.inr ⟨row, hrow, hid.trans hid', hatt.trans hatt', hst.trans hst'⟩

/-- A row function that keeps ids keeps or clears the token. -/
def KeepsToken (f : JobRow → JobRow) : Prop :=
  ∀ row, (f row).id = row.id ∧ ((f row).startedAtMs = none ∨
    ((f row).attempts = row.attempts ∧ (f row).startedAtMs = row.startedAtMs))

theorem tokensFrom_update {p : JobRow → Bool} {f : JobRow → JobRow} (hf : KeepsToken f)
    (jobs : List JobRow) : TokensFrom jobs (update p f jobs) := by
  intro row' hrow'
  rcases mem_update.mp hrow' with ⟨row, hrow, -, rfl⟩ | ⟨hrow, -⟩
  · obtain ⟨hid, hnone | ⟨hatt, hst⟩⟩ := hf row
    · exact Or.inl hnone
    · exact Or.inr ⟨row, hrow, hid.symm, hatt.symm, hst.symm⟩
  · exact Or.inr ⟨row', hrow, rfl, rfl, rfl⟩

theorem tokensFrom_updateJobs {p : JobRow → Bool} {f : JobRow → JobRow} {jobs next : List JobRow}
    {n : Nat} (h : updateJobs p f jobs = .ok (next, n)) (hf : KeepsToken f) :
    TokensFrom jobs next := by
  obtain ⟨-, rfl, -⟩ := updateJobs_ok_iff.mp h
  exact tokensFrom_update hf jobs

theorem tokensFrom_enqueueConn (id : String) (nowMs : Int) (job : NewJob) (maxAttempts : Nat)
    (jobs : List JobRow) : TokensFrom jobs (enqueueConn id nowMs job maxAttempts jobs).1 := by
  intro row' hrow'
  rcases mem_enqueueConn hrow' with hmem | ⟨rfl, -⟩
  · exact Or.inr ⟨row', hmem, rfl, rfl, rfl⟩
  · exact Or.inl rfl

theorem tokensFrom_enqueueAll (nowMs : Int) (maxAttempts : Nat)
    (followUps : List (String × NewJob)) (jobs : List JobRow) :
    TokensFrom jobs (enqueueAll nowMs maxAttempts jobs followUps) := by
  induction followUps generalizing jobs with
  | nil => exact TokensFrom.refl jobs
  | cons f followUps ih => exact (tokensFrom_enqueueConn _ _ _ _ _).trans (ih _)

theorem tokensFrom_updateEach {f : JobRow → JobRow} {ids : List String} {jobs next : List JobRow}
    {n : Nat} (h : updateEach f ids jobs = .ok (next, n)) (hf : KeepsToken f) :
    TokensFrom jobs next := by
  induction ids generalizing jobs next n with
  | nil =>
      obtain ⟨rfl, -⟩ := Prod.mk.inj (Except.ok.inj h)
      exact TokensFrom.refl jobs
  | cons id ids ih =>
      rw [updateEach] at h
      obtain ⟨⟨mid, k⟩, hmid, h⟩ := Fallible.bind_ok_iff.mp h
      obtain ⟨⟨last, m⟩, hlast, h⟩ := Fallible.bind_ok_iff.mp h
      obtain ⟨rfl, -⟩ := Prod.mk.inj (Except.ok.inj h)
      exact (tokensFrom_updateJobs hmid hf).trans (ih hlast)

theorem tokensFrom_settle {config : QueueConfig} {nowMs : Int} {job : Job} {how : Settle}
    {jobs next : List JobRow} (h : settle config nowMs job jobs how = .ok next) :
    TokensFrom jobs next := by
  cases how with
  | done followUps =>
      obtain ⟨⟨next', committed⟩, hdone, rfl⟩ := Fallible.map_ok_iff.mp h
      obtain ⟨⟨mid, n⟩, hmid, hrest⟩ := Fallible.bind_ok_iff.mp hdone
      have htokens : TokensFrom jobs mid :=
        tokensFrom_updateJobs hmid fun _ => ⟨rfl, Or.inr ⟨rfl, rfl⟩⟩
      dsimp only at hrest
      split_ifs at hrest
      · obtain ⟨rfl, -⟩ := Prod.mk.inj (Except.ok.inj hrest)
        exact htokens.trans (tokensFrom_enqueueAll _ _ _ _)
      · obtain ⟨rfl, -⟩ := Prod.mk.inj (Except.ok.inj hrest)
        exact htokens
  | failed error failure =>
      obtain ⟨⟨next', n⟩, hfail, rfl⟩ := Fallible.map_ok_iff.mp h
      unfold markFailedTyped at hfail
      split_ifs at hfail
      · exact tokensFrom_updateJobs hfail fun _ => ⟨rfl, Or.inr ⟨rfl, rfl⟩⟩
      · exact tokensFrom_updateJobs hfail fun _ => ⟨rfl, Or.inr ⟨rfl, rfl⟩⟩
  | deferred untilMs reason =>
      obtain ⟨⟨next', n⟩, hdefer, rfl⟩ := Fallible.map_ok_iff.mp h
      exact tokensFrom_updateJobs hdefer fun _ => ⟨rfl, Or.inl rfl⟩

theorem tokensFrom_requeueFailedWhere {predicate : JobRow → Bool} {nowMs : Int}
    {jobs next : List JobRow} {n : Nat}
    (h : requeueFailedWhere predicate nowMs jobs = .ok (next, n)) : TokensFrom jobs next := by
  obtain ⟨⟨mid, k⟩, hcancel, hrequeue⟩ := Fallible.bind_ok_iff.mp h
  exact (tokensFrom_updateEach hcancel fun _ => ⟨rfl, Or.inr ⟨rfl, rfl⟩⟩).trans
    (tokensFrom_updateEach hrequeue fun _ => ⟨rfl, Or.inl rfl⟩)

/-! ### Ids and the index across a statement -/

theorem TableValid.updateEach {f : JobRow → JobRow} {ids : List String} {jobs next : List JobRow}
    {n : Nat} (hv : TableValid jobs) (h : updateEach f ids jobs = .ok (next, n))
    (hf : ∀ r, (f r).id = r.id) : TableValid next := by
  induction ids generalizing jobs next n with
  | nil =>
      obtain ⟨rfl, -⟩ := Prod.mk.inj (Except.ok.inj h)
      exact hv
  | cons id ids ih =>
      rw [Queue.updateEach] at h
      obtain ⟨⟨mid, k⟩, hmid, h⟩ := Fallible.bind_ok_iff.mp h
      obtain ⟨⟨last, m⟩, hlast, h⟩ := Fallible.bind_ok_iff.mp h
      obtain ⟨rfl, -⟩ := Prod.mk.inj (Except.ok.inj h)
      exact ih (hv.of_updateJobs hmid hf) hlast

theorem TableValid.settle {config : QueueConfig} {nowMs : Int} {job : Job} {how : Settle}
    {jobs next : List JobRow} (hv : TableValid jobs)
    (h : settle config nowMs job jobs how = .ok next) : TableValid next := by
  cases how with
  | done followUps =>
      obtain ⟨⟨next', committed⟩, hdone, rfl⟩ := Fallible.map_ok_iff.mp h
      obtain ⟨⟨mid, n⟩, hmid, hrest⟩ := Fallible.bind_ok_iff.mp hdone
      have hvalid := hv.of_updateJobs hmid fun _ => rfl
      dsimp only at hrest
      split_ifs at hrest
      · obtain ⟨rfl, -⟩ := Prod.mk.inj (Except.ok.inj hrest)
        exact hvalid.enqueueAll
      · obtain ⟨rfl, -⟩ := Prod.mk.inj (Except.ok.inj hrest)
        exact hvalid
  | failed error failure =>
      obtain ⟨⟨next', n⟩, hfail, rfl⟩ := Fallible.map_ok_iff.mp h
      unfold markFailedTyped at hfail
      split_ifs at hfail
      · exact hv.of_updateJobs hfail fun _ => rfl
      · exact hv.of_updateJobs hfail fun _ => rfl
  | deferred untilMs reason =>
      obtain ⟨⟨next', n⟩, hdefer, rfl⟩ := Fallible.map_ok_iff.mp h
      exact hv.of_updateJobs hdefer fun _ => rfl

theorem TableValid.requeueFailedWhere {predicate : JobRow → Bool} {nowMs : Int}
    {jobs next : List JobRow} {n : Nat} (hv : TableValid jobs)
    (h : requeueFailedWhere predicate nowMs jobs = .ok (next, n)) : TableValid next := by
  obtain ⟨⟨mid, k⟩, hcancel, hrequeue⟩ := Fallible.bind_ok_iff.mp h
  exact (hv.updateEach hcancel fun _ => rfl).updateEach hrequeue fun _ => rfl

end TinyCortex.Queue
