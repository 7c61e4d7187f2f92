import TinyCortex.Lib.I64
import TinyCortex.Lib.Table
import TinyCortex.Queue.Types

/-! The enqueue and claim side of the job queue (`queue/store.rs`) over the `mem_tree_jobs` table,
a list of rows in rowid order. Every store call is one SQLite transaction, so it is a function of
the whole table; the clock reading and the minted UUIDs are arguments. `idx_mem_tree_jobs_dedupe_active`
is the partial unique index on `dedupe_key` restricted to ready and running rows. -/

namespace TinyCortex.Queue

open Table

/-- What a statement on `mem_tree_jobs` can abort with. -/
inductive QueueError
  /-- `UNIQUE constraint failed: mem_tree_jobs.dedupe_key` -/
  | dedupeKeyTaken
  deriving DecidableEq, Repr

/-- The key a row enters `idx_mem_tree_jobs_dedupe_active` with. -/
def JobRow.activeKey (row : JobRow) : Option String :=
  if row.status.isActive then row.dedupeKey else none

/-- The keys that ready and running rows hold. -/
def activeKeys (jobs : List JobRow) : List String := keys JobRow.activeKey jobs

/-- One `UPDATE` statement: the updated rows and the number of rows matched, or the constraint
error. SQLite checks the index row by row; the statements below that match several rows leave every
active key as it was, so checking the proposed row set is the same. -/
def updateJobs (p : JobRow → Bool) (f : JobRow → JobRow) (jobs : List JobRow) :
    Except QueueError (List JobRow × Nat) :=
  if UniqueOn JobRow.activeKey (update p f jobs) then .ok (update p f jobs, jobs.countP p)
  else .error .dedupeKeyTaken

/-- The row `enqueue_conn` proposes. -/
def newRow (id : String) (nowMs : Int) (job : NewJob) (defaultMaxAttempts : Nat) : JobRow where
  id := id
  kind := .live job.kind
  payload := job.payload
  dedupeKey := job.dedupeKey
  status := .ready
  attempts := 0
  maxAttempts := (job.maxAttempts.getD defaultMaxAttempts : Nat)
  availableAtMs := job.availableAtMs.getD nowMs
  lockedUntilMs := none
  lastError := none
  failureReason := none
  failureClass := none
  createdAtMs := nowMs
  startedAtMs := none
  completedAtMs := none

/-- `INSERT OR IGNORE` of a new job: suppressed when the id or the active dedupe key is taken. -/
def enqueueConn (id : String) (nowMs : Int) (job : NewJob) (defaultMaxAttempts : Nat)
    (jobs : List JobRow) : List JobRow × Option String :=
  let row := newRow id nowMs job defaultMaxAttempts
  if id ∈ jobs.map JobRow.id ∨ ¬UniqueOn JobRow.activeKey (jobs ++ [row]) then (jobs, none)
  else (jobs ++ [row], some id)

/-- `ORDER BY CASE kind … END`: downstream kinds first. -/
def RowKind.rank : RowKind → Nat
  | .live .seal => 1
  | .live .reembedBackfill => 2
  | .live .flushStale => 3
  | .live .appendBuffer => 4
  | _ => 5

/-- A ready row whose `available_at_ms` has come due, of a kind that still has a handler. -/
def JobRow.isDue (nowMs : Int) (row : JobRow) : Bool :=
  row.status == .ready && decide (row.availableAtMs ≤ nowMs) && !row.kind.isRetired

/-- The claim order: by kind rank, then by `available_at_ms`. -/
def JobRow.claimsBefore (a b : JobRow) : Bool :=
  decide (a.kind.rank < b.kind.rank) ||
    (a.kind.rank == b.kind.rank && decide (a.availableAtMs ≤ b.availableAtMs))

/-- The first row of a table in claim order; ties go to the older row. -/
def firstToClaim : List JobRow → Option JobRow
  | [] => none
  | row :: rows =>
      match firstToClaim rows with
      | none => some row
      | some best => if row.claimsBefore best then some row else some best

def nextDue (nowMs : Int) (jobs : List JobRow) : Option JobRow :=
  firstToClaim (jobs.filter (·.isDue nowMs))

/-- The `SET` list of the claiming `UPDATE`. -/
def JobRow.claim (nowMs lockUntil : Int) (row : JobRow) : JobRow :=
  { row with
    status := .running
    attempts := row.attempts + 1
    startedAtMs := some nowMs
    lockedUntilMs := some lockUntil
    lastError := none }

/-- `attempts.max(0) as u32`. -/
def countAsU32 (n : Int) : Nat := (max n 0).toNat % 4294967296

/-- Map a row into the snapshot handed to a worker. -/
def rowToJob (row : JobRow) : Job where
  id := row.id
  kind := row.kind
  payload := row.payload
  dedupeKey := row.dedupeKey
  status := row.status
  attempts := countAsU32 row.attempts
  maxAttempts := countAsU32 row.maxAttempts
  availableAtMs := row.availableAtMs
  lockedUntilMs := row.lockedUntilMs
  lastError := row.lastError
  failureReason := row.failureReason
  failureClass := row.failureClass
  createdAtMs := row.createdAtMs
  startedAtMs := row.startedAtMs
  completedAtMs := row.completedAtMs

/-- Atomically claim the next due job. `none` when the queue is empty or not yet due. -/
def claimNext (nowMs lockDurationMs : Int) (jobs : List JobRow) :
    Except QueueError (List JobRow × Option Job) :=
  match nextDue nowMs jobs with
  | none => .ok (jobs, none)
  | some row => do
      let lockUntil := I64.saturatingAdd nowMs lockDurationMs
      let (next, _) ← updateJobs (·.id == row.id) (·.claim nowMs lockUntil) jobs
      .ok (next, some (rowToJob (row.claim nowMs lockUntil)))

/-- Delete the rows of retired kinds. -/
def purgeRetiredJobs (jobs : List JobRow) : List JobRow := jobs.filter (!·.kind.isRetired)

/-- Backoff before the next retry: `retry_base_ms * 2^(attempts - 1)`, capped. -/
def backoffMsWithPolicy (attemptsSoFar : Nat) (retryBaseMs retryCapMs : Int) : Int :=
  min (I64.saturatingMul retryBaseMs (2 ^ min (attemptsSoFar - 1) 20)) retryCapMs

/-- Every row has its own id and every active dedupe key one holder. -/
structure TableValid (jobs : List JobRow) : Prop where
  ids : (jobs.map JobRow.id).Nodup
  active : UniqueOn JobRow.activeKey jobs

theorem tableValid_nil : TableValid [] := ⟨List.nodup_nil, List.nodup_nil⟩

section Update

variable {p : JobRow → Bool} {f : JobRow → JobRow} {jobs : List JobRow}

theorem updateJobs_ok_iff {next : List JobRow} {n : Nat} :
    updateJobs p f jobs = .ok (next, n) ↔
      UniqueOn JobRow.activeKey (update p f jobs) ∧ update p f jobs = next ∧ jobs.countP p = n := by
  unfold updateJobs
  split_ifs with h
  · simp [h]
  · simp [h]

theorem updateJobs_of_unique (h : UniqueOn JobRow.activeKey (update p f jobs)) :
    updateJobs p f jobs = .ok (update p f jobs, jobs.countP p) := if_pos h

/-- A statement that matches no row changes nothing and cannot abort. -/
theorem updateJobs_of_forall_not (hv : TableValid jobs) (h : ∀ r ∈ jobs, ¬p r) :
    updateJobs p f jobs = .ok (jobs, 0) := by
  rw [updateJobs, update_of_forall_not h, if_pos hv.active, List.countP_eq_zero.mpr h]

/-- A statement that keeps ids and at most takes rows out of the index cannot abort. -/
theorem TableValid.update_of_drop (hv : TableValid jobs) (hid : ∀ r, (f r).id = r.id)
    (hdrop : ∀ r ∈ jobs, p r → (f r).activeKey = none ∨ (f r).activeKey = r.activeKey) :
    TableValid (update p f jobs) where
  ids := by rw [map_update hid]; exact hv.ids
  active := hv.active.update_of_drop hdrop

theorem TableValid.of_updateJobs (hv : TableValid jobs) {next : List JobRow} {n : Nat}
    (h : updateJobs p f jobs = .ok (next, n)) (hid : ∀ r, (f r).id = r.id) : TableValid next := by
  obtain ⟨huniq, rfl, -⟩ := updateJobs_ok_iff.mp h
  exact ⟨by rw [map_update hid]; exact hv.ids, huniq⟩

end Update

section Enqueue

variable {id : String} {nowMs : Int} {job : NewJob} {maxAttempts : Nat} {jobs : List JobRow}

/-- An enqueue either inserts the new row or leaves the table alone. -/
theorem enqueueConn_cases (id : String) (nowMs : Int) (job : NewJob) (maxAttempts : Nat)
    (jobs : List JobRow) :
    (enqueueConn id nowMs job maxAttempts jobs = (jobs ++ [newRow id nowMs job maxAttempts], some id) ∧
      id ∉ jobs.map JobRow.id ∧
      UniqueOn JobRow.activeKey (jobs ++ [newRow id nowMs job maxAttempts])) ∨
    (enqueueConn id nowMs job maxAttempts jobs = (jobs, none) ∧
      (id ∈ jobs.map JobRow.id ∨
        ¬UniqueOn JobRow.activeKey (jobs ++ [newRow id nowMs job maxAttempts]))) := by
  by_cases h : id ∈ jobs.map JobRow.id ∨
      ¬UniqueOn JobRow.activeKey (jobs ++ [newRow id nowMs job maxAttempts])
  · exact Or.inr ⟨if_pos h, h⟩
  · refine Or.inl ⟨if_neg h, ?_⟩
    push Not at h
    exact h

theorem TableValid.enqueueConn (hv : TableValid jobs) :
    TableValid (enqueueConn id nowMs job maxAttempts jobs).1 := by
  rcases enqueueConn_cases id nowMs job maxAttempts jobs with ⟨heq, hid, huniq⟩ | ⟨heq, -⟩
  · rw [heq]
    refine ⟨?_, huniq⟩
    rw [List.map_append, List.nodup_append]
    refine ⟨hv.ids, List.nodup_singleton _, fun a ha b hb => ?_⟩
    rw [List.map_singleton, List.mem_singleton] at hb
    rintro rfl
    exact hid (show (newRow id nowMs job maxAttempts).id ∈ _ from hb ▸ ha)
  · rw [heq]
    exact hv

theorem mem_enqueueConn {row : JobRow}
    (h : row ∈ (Queue.enqueueConn id nowMs job maxAttempts jobs).1) :
    row ∈ jobs ∨ (row = newRow id nowMs job maxAttempts ∧ id ∉ jobs.map JobRow.id) := by
  rcases enqueueConn_cases id nowMs job maxAttempts jobs with ⟨heq, hid, -⟩ | ⟨heq, -⟩
  · rw [heq, List.mem_append, List.mem_singleton] at h
    exact h.imp_right fun hrow => ⟨hrow, hid⟩
  · rw [heq] at h
    exact Or.inl h

theorem subset_enqueueConn : jobs ⊆ (Queue.enqueueConn id nowMs job maxAttempts jobs).1 := by
  rcases enqueueConn_cases id nowMs job maxAttempts jobs with ⟨heq, -⟩ | ⟨heq, -⟩
  · rw [heq]
    exact List.subset_append_left _ _
  · rw [heq]
    exact List.Subset.refl _

/-- After an enqueue under a key with a fresh id, some active row holds the key: the new one, or the
one that suppressed it. -/
theorem activeKey_enqueueConn (hv : TableValid jobs) (hid : id ∉ jobs.map JobRow.id) {key : String}
    (hkey : job.dedupeKey = some key) :
    key ∈ activeKeys (Queue.enqueueConn id nowMs job maxAttempts jobs).1 := by
  have hnew : (newRow id nowMs job maxAttempts).activeKey = some key := hkey
  rcases enqueueConn_cases id nowMs job maxAttempts jobs with ⟨heq, -, -⟩ | ⟨heq, hsupp⟩
  · rw [heq, activeKeys, mem_keys]
    exact ⟨_, List.mem_append_right _ List.mem_cons_self, hnew⟩
  · rw [heq]
    have hnot := hsupp.resolve_left hid
    rw [uniqueOn_concat, not_and] at hnot
    have htaken := hnot hv.active
    push Not at htaken
    obtain ⟨k, hk, hmem⟩ := htaken
    obtain rfl := Option.some.inj (hnew.symm.trans hk)
    exact hmem

end Enqueue

section Claim

theorem firstToClaim_mem {rows : List JobRow} {row : JobRow} (h : firstToClaim rows = some row) :
    row ∈ rows := by
  induction rows generalizing row with
  | nil => cases h
  | cons head rows ih =>
      unfold firstToClaim at h
      split at h
      · exact Option.some.inj h ▸ List.mem_cons_self
      · rename_i best hbest
        split_ifs at h
        · exact Option.some.inj h ▸ List.mem_cons_self
        · exact List.mem_cons_of_mem _ (Option.some.inj h ▸ ih hbest)

theorem nextDue_mem {nowMs : Int} {jobs : List JobRow} {row : JobRow}
    (h : nextDue nowMs jobs = some row) : row ∈ jobs ∧ row.isDue nowMs :=
  List.mem_filter.mp (firstToClaim_mem h)

theorem JobRow.isDue.ready {nowMs : Int} {row : JobRow} (h : row.isDue nowMs) :
    row.status = .ready := by
  simp only [JobRow.isDue, Bool.and_eq_true, beq_iff_eq] at h
  exact h.1.1

@[simp] theorem JobRow.claim_id (nowMs lockUntil : Int) (row : JobRow) :
    (row.claim nowMs lockUntil).id = row.id := rfl

theorem JobRow.claim_activeKey {nowMs lockUntil : Int} {row : JobRow} (h : row.status = .ready) :
    (row.claim nowMs lockUntil).activeKey = row.activeKey := by
  simp [JobRow.activeKey, JobRow.claim, h, JobStatus.isActive]

/-- A claim takes the next due row to running, and nothing else; it never aborts. -/
theorem claimNext_cases (nowMs lockDurationMs : Int) {jobs : List JobRow} (hv : TableValid jobs) :
    (claimNext nowMs lockDurationMs jobs = .ok (jobs, none) ∧ nextDue nowMs jobs = none) ∨
    ∃ row lockUntil, nextDue nowMs jobs = some row ∧ row ∈ jobs ∧ row.status = .ready ∧
      claimNext nowMs lockDurationMs jobs =
        .ok (update (·.id == row.id) (·.claim nowMs lockUntil) jobs,
          some (rowToJob (row.claim nowMs lockUntil))) ∧
      TableValid (update (·.id == row.id) (·.claim nowMs lockUntil) jobs) := by
  unfold claimNext
  cases hdue : nextDue nowMs jobs with
  | none => exact Or.inl ⟨rfl, rfl⟩
  | some row =>
      obtain ⟨hmem, hrow⟩ := nextDue_mem hdue
      have hready := JobRow.isDue.ready hrow
      have hvalid : TableValid (update (·.id == row.id)
          (·.claim nowMs (I64.saturatingAdd nowMs lockDurationMs)) jobs) := by
        refine hv.update_of_drop (fun _ => rfl) fun r hr hp => Or.inr ?_
        obtain rfl := eq_of_pk_eq hv.ids hr hmem (by simpa using hp)
        exact JobRow.claim_activeKey hready
      refine Or.inr ⟨row, _, rfl, hmem, hready, ?_, hvalid⟩
      simp only [updateJobs_of_unique hvalid.active]
      rfl

end Claim
end TinyCortex.Queue
