import TinyCortex.Queue.RowStep

/-! Which columns of a job row are filled in which status, over whole runs, and who may bring back a row
that failed for good. -/

namespace TinyCortex.Queue

open Table

/-- The columns that go with the status of a row. -/
structure JobRow.Shaped (row : JobRow) : Prop where
  failure : row.failureReason ≠ none ∨ row.failureClass ≠ none →
    row.status = .failed ∨ row.status = .cancelled
  lease : row.lockedUntilMs.isSome ↔ row.status = .running
  completed : row.completedAtMs.isSome ↔ row.status.isTerminal

/-- The row failed, and its failure was classified as unrecoverable. -/
def JobRow.Parked (row : JobRow) : Prop :=
  row.status = .failed ∧ row.failureClass = some "unrecoverable"

/-- A row of the table is left in no other shape, and a parked row becomes active only through
`requeue_failed`. -/
def KeepsShape (config : QueueConfig) (w : World) (label : Label) : Prop :=
  (∀ row ∈ (advance config w label).jobs, row.Shaped) ∧
    ∀ row ∈ w.jobs, row.Parked → ∀ row' ∈ (advance config w label).jobs, row'.id = row.id →
      row'.status.isActive → label.op = .requeueFailed

/-- What a settle may do to a row that is terminal already. -/
def Settle.Fits (config : QueueConfig) (nowMs : Int) (job : Job) (row : JobRow) : Settle → Prop
  | .done _ => row.failureReason = none ∧ row.failureClass = none
  | .failed _ failure => job.failsForGood failure
  | .deferred _ _ => row.Parked → row.tooOldToDefer config nowMs

/-- No lease has expired at a recovery, and a settle whose claim token fits a terminal row either aborts
on the index or fits the row. -/
def ShapeKept (config : QueueConfig) (w : World) (label : Label) : Prop :=
  (label.op = .recoverStaleLocks → ∀ row ∈ w.jobs, ¬row.isStale (w.now label)) ∧
    ∀ i how, label.op = .settle i how → ¬RevivesTakenKey config w label →
      ∀ claim, w.claims[i]? = some claim → ∀ row ∈ w.jobs, claim.job.matchesRow row →
        row.status.isTerminal → how.Fits config (w.now label) claim.job row

section Shapes

variable {row : JobRow}

/-- A ready or running row has neither been completed nor failed. -/
theorem JobRow.Shaped.of_active (h : row.Shaped) (hactive : row.status.isActive) :
    row.completedAtMs = none ∧ row.failureReason = none ∧ row.failureClass = none := by
  have hterminal : row.status.isTerminal = false := by
    rw [JobStatus.isTerminal_eq, hactive]
    rfl
  have hnot : ¬(row.failureReason ≠ none ∨ row.failureClass ≠ none) := by
    intro hfailure
    rcases h.failure hfailure with heq | heq
    · rw [heq] at hactive
      cases hactive
    · rw [heq] at hactive
      cases hactive
  push Not at hnot
  refine ⟨?_, hnot⟩
  rw [← Option.not_isSome_iff_eq_none, h.completed, hterminal]
  exact Bool.false_ne_true

theorem newRow_shaped (id : String) (nowMs : Int) (job : NewJob) (maxAttempts : Nat) :
    (newRow id nowMs job maxAttempts).Shaped where
  failure := by
    rintro (h | h)
    · exact absurd rfl h
    · exact absurd rfl h
  lease := by simp [newRow]
  completed := by simp [newRow, JobStatus.isTerminal]

/-- A row that is made ready without a lease, with nothing completed or failed. -/
theorem JobRow.Shaped.of_ready (hready : row.status = .ready) (hlease : row.lockedUntilMs = none)
    (hnone : row.completedAtMs = none ∧ row.failureReason = none ∧ row.failureClass = none) :
    row.Shaped where
  failure := by
    rw [hnone.2.1, hnone.2.2]
    rintro (h | h)
    · exact absurd rfl h
    · exact absurd rfl h
  lease := by simp [hready, hlease]
  completed := by simp [hready, hnone.1, JobStatus.isTerminal]

theorem JobRow.Shaped.of_failed (hfailed : row.status = .failed ∨ row.status = .cancelled)
    (hlease : row.lockedUntilMs = none) (hcompleted : row.completedAtMs.isSome) : row.Shaped where
  failure := fun _ => hfailed
  lease := by
    rw [hlease]
    rcases hfailed with h | h
    · simp [h]
    · simp [h]
  completed := by
    refine iff_of_true hcompleted ?_
    rcases hfailed with h | h
    · rw [h]
      rfl
    · rw [h]
      rfl

end Shapes

section Step

variable {config : QueueConfig} {w : World} {label : Label} {row row' : JobRow}

/-- What a settle needs to know about a row that its token fits. -/
theorem ShapeKept.fits (hkept : ShapeKept config w label) {i : Nat} {how : Settle} {claim : Claim}
    (hrevives : ¬RevivesTakenKey config w label) (hop : label.op = .settle i how)
    (hclaim : w.claims[i]? = some claim) (hrow : row ∈ w.jobs) (hmatch : claim.job.matchesRow row)
    (hshape : row.Shaped) :
    (row.completedAtMs = none ∧ row.failureReason = none ∧ row.failureClass = none) ∨
      how.Fits config (w.now label) claim.job row := by
  by_cases hterminal : row.status.isTerminal
  · exact Or.inr (hkept.2 i how hop hrevives claim hclaim row hrow hmatch hterminal)
  · rw [JobStatus.isTerminal_eq, Bool.not_eq_true', Bool.not_eq_false] at hterminal
    exact Or.inl (hshape.of_active hterminal)

theorem Shaped.step (h : row.Shaped) (hrow : row ∈ w.jobs) (hkept : ShapeKept config w label)
    (hrevives : ¬RevivesTakenKey config w label)
    (hstep : RowStep config (w.now label) w.claims label.op row row') : row'.Shaped := by
  obtain ⟨advanceMs, op⟩ := label
  dsimp only at hstep
  cases hstep with
  | same => exact h
  | claim lockDurationMs lockUntil _ hdue =>
      obtain ⟨hcompleted, hreason, hclass⟩ := h.of_active (by rw [JobRow.isDue.ready hdue]; rfl)
      refine ⟨?_, ?_, ?_⟩
      · rintro (hnot | hnot)
        · exact absurd hreason hnot
        · exact absurd hclass hnot
      · simp [JobRow.claim]
      · simp [JobRow.claim, hcompleted, JobStatus.isTerminal]
  | done i followUps claim _ hclaim hmatch =>
      have hnone : row.failureReason = none ∧ row.failureClass = none := by
        rcases hkept.fits hrevives rfl hclaim hrow hmatch h with hactive | hfits
        · exact hactive.2
        · exact hfits
      refine ⟨?_, ?_, ?_⟩
      · rintro (hnot | hnot)
        · exact absurd hnone.1 hnot
        · exact absurd hnone.2 hnot
      · simp [JobRow.markDone]
      · simp [JobRow.markDone, JobStatus.isTerminal]
  | failed => exact .of_failed (Or.inl rfl) rfl rfl
  | retry i error failure nextAt claim _ hclaim hmatch hgood =>
      rcases hkept.fits hrevives rfl hclaim hrow hmatch h with hactive | hfits
      · exact .of_ready rfl rfl hactive
      · rw [Settle.Fits, hgood] at hfits
        cases hfits
  | deferred i untilMs reason claim _ hclaim hmatch =>
      by_cases hold : row.tooOldToDefer config (w.now ⟨advanceMs, .settle i (.deferred untilMs reason)⟩)
      · refine .of_failed (Or.inl ?_) rfl ?_
        · simp [JobRow.markDeferred, hold]
        · simp [JobRow.markDeferred, hold]
      · refine .of_ready ?_ rfl ⟨?_, ?_, ?_⟩
        · simp [JobRow.markDeferred, hold]
        · simp [JobRow.markDeferred, hold]
        · simp [JobRow.markDeferred, hold]
        · simp [JobRow.markDeferred, hold]
  | recover _ hstale => exact absurd hstale (hkept.1 rfl row hrow)
  | release _ hrunning => exact .of_ready rfl rfl (h.of_active (by rw [hrunning]; rfl))
  | requeue => exact .of_ready rfl rfl ⟨rfl, rfl, rfl⟩
  | cancel => exact .of_failed (Or.inr rfl) rfl rfl

/-- Only `requeue_failed` makes a parked row active. -/
theorem parked_step (hparked : row.Parked) (hrow : row ∈ w.jobs)
    (hkept : ShapeKept config w label) (hrevives : ¬RevivesTakenKey config w label)
    (hstep : RowStep config (w.now label) w.claims label.op row row') (hactive : row'.status.isActive) :
    label.op = .requeueFailed := by
  obtain ⟨hfailed, hclass⟩ := hparked
  obtain ⟨advanceMs, op⟩ := label
  dsimp only at hstep ⊢
  have hterminal : row.status.isTerminal := by
    rw [hfailed]
    rfl
  cases hstep with
  | same =>
      rw [hfailed] at hactive
      cases hactive
  | claim lockDurationMs lockUntil _ hdue =>
      rw [JobRow.isDue.ready hdue] at hfailed
      cases hfailed
  | done => cases hactive
  | failed => cases hactive
  | retry i error failure nextAt claim _ hclaim hmatch hgood =>
      have hfits := hkept.2 _ _ rfl hrevives claim hclaim row hrow hmatch hterminal
      rw [Settle.Fits, hgood] at hfits
      cases hfits
  | deferred i untilMs reason claim _ hclaim hmatch =>
      have hfits := hkept.2 _ _ rfl hrevives claim hclaim row hrow hmatch hterminal ⟨hfailed, hclass⟩
      rw [JobRow.markDeferred] at hactive
      dsimp only at hactive
      rw [hfits] at hactive
      cases hactive
  | recover _ hstale => exact absurd hstale (hkept.1 rfl row hrow)
  | release _ hrunning =>
      rw [hrunning] at hfailed
      cases hfailed
  | requeue _ predicate _ hop hpredicate =>
      cases op with
      | requeueFailed => rfl
      | requeueTransientFailed =>
          obtain rfl := Option.some.inj hop
          simp [hfailed, hclass] at hpredicate
      | _ => cases hop
  | cancel => cases hactive

end Step

/-- Allowed steps keep the shape of all rows. -/
theorem keepsShape_of_kept {config : QueueConfig} {w : World} {label : Label} (hv : TableValid w.jobs)
    (h : ∀ row ∈ w.jobs, row.Shaped) (hkept : ShapeKept config w label) : KeepsShape config w label := by
  unfold KeepsShape
  cases hout : outcome config w label with
  | error e =>
      rw [advance_of_error hout]
      refine ⟨h, fun row hrow hparked row' hrow' hid hactive => ?_⟩
      obtain rfl := eq_of_pk_eq hv.ids hrow' hrow hid
      rw [hparked.1] at hactive
      cases hactive
  | ok next =>
      obtain ⟨jobs, claimed⟩ := next
      rw [advance_of_ok hout]
      have hrevives : ¬RevivesTakenKey config w label := by
        rw [← aborts_iff hv]
        rintro ⟨e, he⟩
        rw [hout] at he
        cases he
      refine ⟨fun row' hrow' => ?_, fun row hrow hparked row' hrow' hid hactive => ?_⟩
      · rcases perform_rows hv hout row' hrow' with ⟨id, job, -, rfl, -⟩ | ⟨row, hrow, hstep⟩
        · exact newRow_shaped id _ job _
        · exact Shaped.step (h row hrow) hrow hkept hrevives hstep
      · rcases perform_rows hv hout row' hrow' with ⟨id, job, -, rfl, hnew⟩ | ⟨other, hother, hstep⟩
        · have hold : row.id ∈ w.jobs.map JobRow.id := List.mem_map_of_mem hrow
          rw [← hid] at hold
          exact absurd hold hnew
        · obtain rfl := eq_of_pk_eq hv.ids hother hrow (hstep.id.symm.trans hid)
          exact parked_step hparked hrow hkept hrevives hstep hactive

/-- What a settle makes of a row that its token fits. -/
def Settle.onRow (config : QueueConfig) (nowMs : Int) (job : Job) (row : JobRow) : Settle → JobRow
  | .done _ => row.markDone nowMs
  | .failed error failure =>
      if job.failsForGood failure then row.markFailed nowMs error failure
      else row.markRetry (I64.saturatingAdd nowMs
        (backoffMsWithPolicy job.attempts config.retryBaseMs config.retryCapMs)) error
  | .deferred untilMs reason =>
      row.markDeferred config nowMs untilMs reason (I64.saturatingSub job.attempts 1)

theorem onRow_mem_settle {config : QueueConfig} {nowMs : Int} {job : Job} {how : Settle}
    {jobs next : List JobRow} {row : JobRow} (h : settle config nowMs job jobs how = .ok next)
    (hrow : row ∈ jobs) (hmatch : job.matchesRow row) : how.onRow config nowMs job row ∈ next := by
  cases how with
  | done followUps =>
      obtain ⟨⟨next', committed⟩, hdone, rfl⟩ := Fallible.map_ok_iff.mp h
      obtain ⟨⟨mid, n⟩, hmid, hrest⟩ := Fallible.bind_ok_iff.mp hdone
      obtain ⟨-, rfl, -⟩ := updateJobs_ok_iff.mp hmid
      have hmem : row.markDone nowMs ∈ update job.matchesRow (·.markDone nowMs) jobs :=
        mem_update_of_mem hrow hmatch
      dsimp only at hrest
      split_ifs at hrest
      · obtain ⟨rfl, -⟩ := Prod.mk.inj (Except.ok.inj hrest)
        obtain ⟨new, heq, -⟩ := enqueueAll_append nowMs config.maxAttempts followUps
          (update job.matchesRow (·.markDone nowMs) jobs)
        dsimp only
        rw [heq]
        exact List.mem_append_left _ hmem
      · obtain ⟨rfl, -⟩ := Prod.mk.inj (Except.ok.inj hrest)
        exact hmem
  | failed error failure =>
      obtain ⟨⟨next', n⟩, hfail, rfl⟩ := Fallible.map_ok_iff.mp h
      unfold markFailedTyped at hfail
      rw [Settle.onRow]
      by_cases hgood : job.failsForGood failure
      · rw [if_pos hgood] at hfail ⊢
        obtain ⟨-, rfl, -⟩ := updateJobs_ok_iff.mp hfail
        exact mem_update_of_mem hrow hmatch
      · rw [if_neg hgood] at hfail ⊢
        obtain ⟨-, rfl, -⟩ := updateJobs_ok_iff.mp hfail
        exact mem_update_of_mem hrow hmatch
  | deferred untilMs reason =>
      obtain ⟨⟨next', n⟩, hdefer, rfl⟩ := Fallible.map_ok_iff.mp h
      obtain ⟨-, rfl, -⟩ := updateJobs_ok_iff.mp hdefer
      exact mem_update_of_mem hrow hmatch

/-- A recovered row keeps its lease. -/
theorem not_keepsShape_of_stale {config : QueueConfig} {w : World} {label : Label} {row : JobRow}
    (hv : TableValid w.jobs) (hop : label.op = .recoverStaleLocks) (hrow : row ∈ w.jobs)
    (hstale : row.isStale (w.now label)) : ¬KeepsShape config w label := by
  intro hkeeps
  have hout : outcome config w label = .ok (update (·.isStale (w.now label)) JobRow.recover w.jobs, none) := by
    unfold outcome
    rw [hop]
    exact congrArg (Except.map _) (updateJobs_running_ok hv (fun _ => JobRow.isStale.running) fun _ => rfl)
  unfold KeepsShape at hkeeps
  rw [advance_of_ok hout] at hkeeps
  have hshape := hkeeps.1 row.recover (mem_update_of_mem hrow hstale)
  have hlease : row.recover.lockedUntilMs.isSome := by
    rw [JobRow.isStale, Bool.and_eq_true] at hstale
    change row.lockedUntilMs.isSome
    cases hlock : row.lockedUntilMs with
    | none =>
        rw [hlock] at hstale
        cases hstale.2
    | some lock => rfl
  have hrunning := hshape.lease.mp hlease
  cases hrunning

/-- A settle that does not fit a terminal row spoils it. -/
theorem not_keepsShape_of_unfit {config : QueueConfig} {w : World} {label : Label} {i : Nat}
    {how : Settle} {claim : Claim} {row : JobRow} (hv : TableValid w.jobs) (hshape : row.Shaped)
    (hop : label.op = .settle i how) (hrevives : ¬RevivesTakenKey config w label)
    (hclaim : w.claims[i]? = some claim) (hrow : row ∈ w.jobs) (hmatch : claim.job.matchesRow row)
    (hterminal : row.status.isTerminal) (hunfit : ¬how.Fits config (w.now label) claim.job row) :
    ¬KeepsShape config w label := by
  intro hkeeps
  rw [← aborts_iff hv] at hrevives
  cases hout : outcome config w label with
  | error e => exact hrevives ⟨e, hout⟩
  | ok next =>
      obtain ⟨jobs, claimed⟩ := next
      unfold KeepsShape at hkeeps
      rw [advance_of_ok hout] at hkeeps
      obtain ⟨hshapes, hparked⟩ := hkeeps
      have hmem : how.onRow config (w.now label) claim.job row ∈ jobs := by
        unfold outcome at hout
        rw [hop] at hout
        dsimp only [perform] at hout
        rw [hclaim] at hout
        obtain ⟨next, hnext, heq⟩ := Fallible.map_ok_iff.mp hout
        obtain ⟨rfl, -⟩ := Prod.mk.inj heq
        exact onRow_mem_settle hnext hrow hmatch
      have hresult := hshapes _ hmem
      cases how with
      | done followUps =>
          have hnone : row.failureReason ≠ none ∨ row.failureClass ≠ none := not_and_or.mp hunfit
          rcases hresult.failure hnone with heq | heq
          · cases heq
          · cases heq
      | failed error failure =>
          rw [Settle.Fits] at hunfit
          rw [Settle.onRow, if_neg hunfit] at hresult
          have hready := hresult.completed.mp (hshape.completed.mpr hterminal)
          cases hready
      | deferred untilMs reason =>
          obtain ⟨hpark, hyoung⟩ := Classical.not_imp.mp hunfit
          have hactive : (row.markDeferred config (w.now label) untilMs reason
              (I64.saturatingSub claim.job.attempts 1)).status.isActive := by
            simp [JobRow.markDeferred, hyoung, JobStatus.isActive]
          have hrequeue := hparked row hrow hpark _ hmem rfl hactive
          rw [hop] at hrequeue
          cases hrequeue

/-- In every run, all rows keep their shape and parked rows stay parked in every step exactly when every
step is allowed. -/
theorem rowShape_run_iff (config : QueueConfig) (labels : List Label) :
    (queue config).AllSteps (KeepsShape config) labels ↔
      (queue config).AllSteps (ShapeKept config) labels := by
  have hguard : (queue config).AllSteps (fun _ _ => True) labels := fun _ _ _ _ => trivial
  refine (queue config).allSteps_iff_of_guard
    (fun w => TableValid w.jobs ∧ ∀ row ∈ w.jobs, row.Shaped)
    ⟨tableValid_nil, fun _ hrow => absurd hrow List.not_mem_nil⟩ ?_ ?_ hguard
  · intro w label ⟨hv, hshape⟩ _ hkept
    have hkeeps := keepsShape_of_kept hv hshape hkept
    exact ⟨⟨advance_valid hv, hkeeps.1⟩, hkeeps⟩
  · intro w label ⟨hv, hshape⟩ _ hbad
    unfold ShapeKept at hbad
    rw [not_and_or] at hbad
    rcases hbad with hstale | hunfit
    · push Not at hstale
      obtain ⟨hop, row, hrow, hstale⟩ := hstale
      exact not_keepsShape_of_stale hv hop hrow hstale
    · push Not at hunfit
      obtain ⟨i, how, hop, hrevives, claim, hclaim, row, hrow, hmatch, hterminal, hnot⟩ := hunfit
      exact not_keepsShape_of_unfit hv (hshape row hrow) hop hrevives hclaim hrow hmatch hterminal hnot

/-- A worker stops in the middle of a job, and the lease expires before the next start. -/
def crashedWorker : List Label :=
  [⟨1000, .enqueue "job-1" (.extractChunk ⟨"chunk-1"⟩)⟩, ⟨0, .claimNext 300000⟩,
    ⟨300001, .recoverStaleLocks⟩]

/-- The recovered row is ready and still carries the lease. -/
theorem rowShape_fails :
    ¬∀ config labels, (queue config).AllSteps (KeepsShape config) labels := by
  intro hall
  have hkeeps := hall .default crashedWorker [_, _] _ [] rfl
  have hrow : ∃ row ∈ (advance .default ((queue .default).run (crashedWorker.take 2))
      ⟨300001, .recoverStaleLocks⟩).jobs, row.lockedUntilMs.isSome ∧ row.status = .ready := by
    decide
  obtain ⟨row, hrow, hlease, hready⟩ := hrow
  have hrunning := (hkeeps.1 row hrow).lease.mp hlease
  rw [hready] at hrunning
  cases hrunning

end TinyCortex.Queue
