import TinyCortex.Queue.DedupeIndex
import TinyCortex.Queue.WellKeyed

/-! What one store call can do to one row. Every call but the purge takes the rows of the table one by
one and appends new ones. -/

namespace TinyCortex.Queue

open Table

/-- The failed rows that a requeue looks at. -/
def Op.requeues : Op → Option (JobRow → Bool)
  | .requeueFailed => some (·.status == .failed)
  | .requeueTransientFailed =>
      some fun row => row.status == .failed && row.failureClass != some "unrecoverable"
  | _ => none

/-- All that can become of a row in a store call. -/
inductive RowStep (config : QueueConfig) (nowMs : Int) (claims : List Claim) :
    Op → JobRow → JobRow → Prop
  | same (op : Op) (row : JobRow) : RowStep config nowMs claims op row row
  | claim (lockDurationMs lockUntil : Int) (row : JobRow) (hdue : row.isDue nowMs) :
      RowStep config nowMs claims (.claimNext lockDurationMs) row (row.claim nowMs lockUntil)
  | done (i : Nat) (followUps : List (String × NewJob)) (claim : Claim) (row : JobRow)
      (hclaim : claims[i]? = some claim) (hmatch : claim.job.matchesRow row) :
      RowStep config nowMs claims (.settle i (.done followUps)) row (row.markDone nowMs)
  | failed (i : Nat) (error : String) (failure : Option JobFailure) (claim : Claim) (row : JobRow)
      (hclaim : claims[i]? = some claim) (hmatch : claim.job.matchesRow row)
      (hgood : claim.job.failsForGood failure) :
      RowStep config nowMs claims (.settle i (.failed error failure)) row
        (row.markFailed nowMs error failure)
  | retry (i : Nat) (error : String) (failure : Option JobFailure) (nextAt : Int) (claim : Claim)
      (row : JobRow) (hclaim : claims[i]? = some claim) (hmatch : claim.job.matchesRow row)
      (hgood : claim.job.failsForGood failure = false) :
      RowStep config nowMs claims (.settle i (.failed error failure)) row (row.markRetry nextAt error)
  | deferred (i : Nat) (untilMs : Int) (reason : String) (claim : Claim) (row : JobRow)
      (hclaim : claims[i]? = some claim) (hmatch : claim.job.matchesRow row) :
      RowStep config nowMs claims (.settle i (.deferred untilMs reason)) row
        (row.markDeferred config nowMs untilMs reason (I64.saturatingSub claim.job.attempts 1))
  | recover (row : JobRow) (hstale : row.isStale nowMs) :
      RowStep config nowMs claims .recoverStaleLocks row row.recover
  | release (row : JobRow) (hrunning : row.status = .running) :
      RowStep config nowMs claims .releaseRunningLocks row row.release
  | requeue (op : Op) (predicate : JobRow → Bool) (row : JobRow) (hop : op.requeues = some predicate)
      (hrow : predicate row) : RowStep config nowMs claims op row (row.requeue nowMs)
  | cancel (op : Op) (predicate : JobRow → Bool) (row : JobRow) (hop : op.requeues = some predicate)
      (hrow : predicate row) : RowStep config nowMs claims op row (row.cancel nowMs)

section Step

variable {config : QueueConfig} {nowMs : Int} {claims : List Claim} {op : Op} {row row' : JobRow}

/-- No store call rewrites the id, the job or the budget of a row. -/
theorem RowStep.keeps (h : RowStep config nowMs claims op row row') :
    row'.id = row.id ∧ row'.kind = row.kind ∧ row'.payload = row.payload ∧
      row'.dedupeKey = row.dedupeKey ∧ row'.maxAttempts = row.maxAttempts ∧
        row'.createdAtMs = row.createdAtMs := by
  cases h <;> exact ⟨rfl, rfl, rfl, rfl, rfl, rfl⟩

theorem RowStep.id (h : RowStep config nowMs claims op row row') : row'.id = row.id := h.keeps.1

end Step

/-- A row that a store call inserts. -/
def Inserted (config : QueueConfig) (nowMs : Int) (jobs : List JobRow) (op : Op) (row : JobRow) : Prop :=
  ∃ id, ∃ job ∈ op.newJobs, row = newRow id nowMs job config.maxAttempts ∧ id ∉ jobs.map JobRow.id

/-- The table after a store call that takes the rows one by one. -/
def StepsRows (config : QueueConfig) (nowMs : Int) (jobs : List JobRow) (claims : List Claim) (op : Op)
    (jobs' : List JobRow) : Prop :=
  ∃ f new, jobs' = jobs.map f ++ new ∧ (∀ row ∈ jobs, RowStep config nowMs claims op row (f row)) ∧
    ∀ row ∈ new, Inserted config nowMs jobs op row

section Statements

variable {config : QueueConfig} {nowMs : Int} {jobs jobs' : List JobRow} {claims : List Claim} {op : Op}

theorem stepsRows_refl (config : QueueConfig) (nowMs : Int) (jobs : List JobRow) (claims : List Claim)
    (op : Op) : StepsRows config nowMs jobs claims op jobs := by
  refine ⟨fun row => row, [], ?_, fun row _ => .same op row, fun _ h => absurd h List.not_mem_nil⟩
  rw [List.map_id', List.append_nil]

theorem stepsRows_update {p : JobRow → Bool} {f : JobRow → JobRow} {n : Nat}
    (h : updateJobs p f jobs = .ok (jobs', n))
    (hstep : ∀ row ∈ jobs, p row → RowStep config nowMs claims op row (f row)) :
    StepsRows config nowMs jobs claims op jobs' := by
  obtain ⟨-, rfl, -⟩ := updateJobs_ok_iff.mp h
  refine ⟨fun row => if p row then f row else row, [], (List.append_nil _).symm, ?_,
    fun _ h => absurd h List.not_mem_nil⟩
  intro row hrow
  dsimp only
  split_ifs with hp
  · exact hstep row hrow hp
  · exact .same op row

/-- The inserted rows of the follow-ups, in turn. -/
theorem enqueueAll_append (nowMs : Int) (maxAttempts : Nat) (followUps : List (String × NewJob))
    (jobs : List JobRow) : ∃ new, enqueueAll nowMs maxAttempts jobs followUps = jobs ++ new ∧
      ∀ row ∈ new, ∃ followUp ∈ followUps, row = newRow followUp.1 nowMs followUp.2 maxAttempts ∧
        followUp.1 ∉ jobs.map JobRow.id := by
  induction followUps generalizing jobs with
  | nil => exact ⟨[], (List.append_nil _).symm, fun _ h => absurd h List.not_mem_nil⟩
  | cons followUp followUps ih =>
      rw [enqueueAll, List.foldl_cons]
      obtain ⟨new, heq, hnew⟩ := ih (enqueueConn followUp.1 nowMs followUp.2 maxAttempts jobs).1
      rw [enqueueAll] at heq
      rw [heq]
      rcases enqueueConn_cases followUp.1 nowMs followUp.2 maxAttempts jobs with ⟨hin, hid, -⟩ | ⟨hout, -⟩
      · rw [hin] at hnew ⊢
        refine ⟨newRow followUp.1 nowMs followUp.2 maxAttempts :: new, ?_, ?_⟩
        · rw [List.append_assoc, List.singleton_append]
        · intro row hrow
          rcases List.mem_cons.mp hrow with rfl | hmore
          · exact ⟨followUp, List.mem_cons_self, rfl, hid⟩
          · obtain ⟨other, hother, hrow', hid'⟩ := hnew row hmore
            refine ⟨other, List.mem_cons_of_mem _ hother, hrow', fun hmem => hid' ?_⟩
            rw [List.map_append]
            exact List.mem_append_left _ hmem
      · rw [hout] at hnew ⊢
        refine ⟨new, rfl, fun row hrow => ?_⟩
        obtain ⟨other, hother, hrest⟩ := hnew row hrow
        exact ⟨other, List.mem_cons_of_mem _ hother, hrest⟩

/-- One update for each id takes the rows with these ids, once or several times over. -/
theorem updateEach_map {f : JobRow → JobRow} {ids : List String} {n : Nat}
    (h : updateEach f ids jobs = .ok (jobs', n)) (hid : ∀ row, (f row).id = row.id)
    (hidem : ∀ row, f (f row) = f row) :
    jobs' = jobs.map fun row => if row.id ∈ ids then f row else row := by
  induction ids generalizing jobs n with
  | nil =>
      obtain ⟨rfl, -⟩ := Prod.mk.inj (Except.ok.inj h)
      simp
  | cons id ids ih =>
      rw [updateEach] at h
      obtain ⟨⟨mid, k⟩, hmid, h⟩ := Fallible.bind_ok_iff.mp h
      obtain ⟨⟨last, m⟩, hlast, h⟩ := Fallible.bind_ok_iff.mp h
      obtain ⟨rfl, -⟩ := Prod.mk.inj (Except.ok.inj h)
      obtain ⟨-, rfl, -⟩ := updateJobs_ok_iff.mp hmid
      rw [ih hlast, update, List.map_map]
      refine List.map_congr_left fun row _ => ?_
      dsimp only [Function.comp]
      by_cases hrow : row.id = id
      · simp [hrow, hid, hidem]
      · simp [hrow]

end Statements

/-- A requeue plan takes its ids from the candidates, and none for both lists. -/
theorem planRequeue_disjoint (active claimed : List String) {candidates : List (String × Option String)}
    (hnd : (candidates.map Prod.fst).Nodup) :
    (∀ id ∈ (planRequeue active claimed candidates).toRequeue.map Prod.fst,
        id ∈ candidates.map Prod.fst) ∧
      (∀ id ∈ (planRequeue active claimed candidates).toCancel, id ∈ candidates.map Prod.fst) ∧
        ∀ id ∈ (planRequeue active claimed candidates).toCancel,
          id ∉ (planRequeue active claimed candidates).toRequeue.map Prod.fst := by
  induction candidates generalizing claimed with
  | nil => simp [planRequeue]
  | cons candidate rest ih =>
      obtain ⟨id, key⟩ := candidate
      rw [List.map_cons, List.nodup_cons] at hnd
      obtain ⟨hnew, hnd⟩ := hnd
      cases key with
      | none =>
          obtain ⟨hre, hca, hdis⟩ := ih claimed hnd
          refine ⟨?_, fun i hi => List.mem_cons_of_mem _ (hca i hi), ?_⟩
          · intro i hi
            rcases List.mem_cons.mp hi with rfl | hi
            · exact List.mem_cons_self
            · exact List.mem_cons_of_mem _ (hre i hi)
          · intro i hi hboth
            rcases List.mem_cons.mp hboth with rfl | hboth
            · exact hnew (hca _ hi)
            · exact hdis i hi hboth
      | some key =>
          unfold planRequeue
          split_ifs with hactive hclaimed
          · obtain ⟨hre, hca, hdis⟩ := ih claimed hnd
            exact ⟨fun i hi => List.mem_cons_of_mem _ (hre i hi),
              fun i hi => List.mem_cons_of_mem _ (hca i hi), hdis⟩
          · obtain ⟨hre, hca, hdis⟩ := ih claimed hnd
            refine ⟨fun i hi => List.mem_cons_of_mem _ (hre i hi), ?_, ?_⟩
            · intro i hi
              rcases List.mem_cons.mp hi with rfl | hi
              · exact List.mem_cons_self
              · exact List.mem_cons_of_mem _ (hca i hi)
            · intro i hi hboth
              rcases List.mem_cons.mp hi with rfl | hi
              · exact hnew (hre _ hboth)
              · exact hdis i hi hboth
          · obtain ⟨hre, hca, hdis⟩ := ih (key :: claimed) hnd
            refine ⟨?_, fun i hi => List.mem_cons_of_mem _ (hca i hi), ?_⟩
            · intro i hi
              rcases List.mem_cons.mp hi with rfl | hi
              · exact List.mem_cons_self
              · exact List.mem_cons_of_mem _ (hre i hi)
            · intro i hi hboth
              rcases List.mem_cons.mp hboth with rfl | hboth
              · exact hnew (hca _ hi)
              · exact hdis i hi hboth

section Perform

variable {config : QueueConfig} {nowMs : Int} {jobs jobs' : List JobRow} {claims : List Claim} {op : Op}

theorem stepsRows_requeue {predicate : JobRow → Bool} (hop : op.requeues = some predicate)
    (hv : TableValid jobs) {n : Nat} (h : requeueFailedWhere predicate nowMs jobs = .ok (jobs', n)) :
    StepsRows config nowMs jobs claims op jobs' := by
  obtain ⟨⟨mid, k⟩, hcancel, hrequeue⟩ := Fallible.bind_ok_iff.mp h
  dsimp only at hrequeue
  have hids : (((jobs.filter predicate).insertionSort (fun a b => a.newerFirst b)).map
      fun row => (row.id, row.dedupeKey)).map Prod.fst =
        ((jobs.filter predicate).insertionSort (fun a b => a.newerFirst b)).map JobRow.id := List.map_map
  have hnodup : (((jobs.filter predicate).insertionSort (fun a b => a.newerFirst b)).map
      fun row => (row.id, row.dedupeKey)).map Prod.fst |>.Nodup := by
    rw [hids]
    refine ((List.perm_insertionSort _ (jobs.filter predicate)).map JobRow.id).nodup_iff.mpr ?_
    exact hv.ids.sublist (List.filter_sublist.map _)
  have hfrom (row : JobRow) (hrow : row ∈ jobs) (hid : row.id ∈ (((jobs.filter
      predicate).insertionSort (fun a b => a.newerFirst b)).map
        fun row => (row.id, row.dedupeKey)).map Prod.fst) : predicate row := by
    rw [hids] at hid
    obtain ⟨other, hother, heq⟩ := List.mem_map.mp hid
    obtain ⟨hmem, hp⟩ := List.mem_filter.mp ((List.mem_insertionSort _).mp hother)
    obtain rfl := eq_of_pk_eq hv.ids hmem hrow heq
    exact hp
  generalize ((jobs.filter predicate).insertionSort (fun a b => a.newerFirst b)).map
    (fun row => (row.id, row.dedupeKey)) = candidates at hcancel hrequeue hnodup hfrom
  obtain ⟨hre, hca, hdis⟩ := planRequeue_disjoint (activeKeys jobs) [] hnodup
  generalize planRequeue (activeKeys jobs) [] candidates = plan at hcancel hrequeue hre hca hdis
  have hlast := updateEach_map hrequeue (fun _ => rfl) fun _ => rfl
  rw [updateEach_map hcancel (fun _ => rfl) fun _ => rfl, List.map_map] at hlast
  refine ⟨_, [], hlast.trans (List.append_nil _).symm, ?_, fun _ hnew => absurd hnew List.not_mem_nil⟩
  intro row hrow
  dsimp only [Function.comp]
  by_cases hcancelled : row.id ∈ plan.toCancel
  · simp only [if_pos hcancelled, JobRow.cancel_id, if_neg (hdis row.id hcancelled)]
    exact .cancel op predicate row hop (hfrom row hrow (hca row.id hcancelled))
  · simp only [if_neg hcancelled]
    split_ifs with hrequeued
    · exact .requeue op predicate row hop (hfrom row hrow (hre row.id hrequeued))
    · exact .same op row

theorem stepsRows_settle {i : Nat} {how : Settle} {claim : Claim} (hclaim : claims[i]? = some claim)
    (h : settle config nowMs claim.job jobs how = .ok jobs') :
    StepsRows config nowMs jobs claims (.settle i how) jobs' := by
  cases how with
  | done followUps =>
      obtain ⟨⟨next', committed⟩, hdone, rfl⟩ := Fallible.map_ok_iff.mp h
      obtain ⟨⟨mid, n⟩, hmid, hrest⟩ := Fallible.bind_ok_iff.mp hdone
      have hsteps : StepsRows config nowMs jobs claims (.settle i (.done followUps)) mid :=
        stepsRows_update hmid fun row _ hmatch => .done i followUps claim row hclaim hmatch
      dsimp only at hrest
      split_ifs at hrest
      · obtain ⟨rfl, -⟩ := Prod.mk.inj (Except.ok.inj hrest)
        obtain ⟨-, hupdate, -⟩ := updateJobs_ok_iff.mp hmid
        have hids : mid.map JobRow.id = jobs.map JobRow.id := by
          rw [← hupdate]
          exact map_update (fun row => JobRow.markDone_id nowMs row) jobs
        obtain ⟨f, new, rfl, hf, hnew⟩ := hsteps
        obtain ⟨more, heq, hmore⟩ := enqueueAll_append nowMs config.maxAttempts followUps
          (jobs.map f ++ new)
        refine ⟨f, new ++ more, ?_, hf, ?_⟩
        · dsimp only
          rw [heq, List.append_assoc]
        · intro row hrow
          rcases List.mem_append.mp hrow with hrow | hrow
          · exact hnew row hrow
          · obtain ⟨followUp, hfollowUp, rfl, hid⟩ := hmore row hrow
            rw [hids] at hid
            exact ⟨followUp.1, followUp.2, List.mem_map_of_mem hfollowUp, rfl, hid⟩
      · obtain ⟨rfl, -⟩ := Prod.mk.inj (Except.ok.inj hrest)
        exact hsteps
  | failed error failure =>
      obtain ⟨⟨next', n⟩, hfail, rfl⟩ := Fallible.map_ok_iff.mp h
      unfold markFailedTyped at hfail
      split_ifs at hfail with hgood
      · exact stepsRows_update hfail fun row _ hmatch =>
          .failed i error failure claim row hclaim hmatch hgood
      · exact stepsRows_update hfail fun row _ hmatch =>
          .retry i error failure _ claim row hclaim hmatch (Bool.not_eq_true _ ▸ hgood)
  | deferred untilMs reason =>
      obtain ⟨⟨next', n⟩, hdefer, rfl⟩ := Fallible.map_ok_iff.mp h
      exact stepsRows_update hdefer fun row _ hmatch =>
        .deferred i untilMs reason claim row hclaim hmatch

/-- A store call that returns takes the rows one by one, unless it is the purge. -/
theorem perform_stepsRows {claimed : Option Job} (hv : TableValid jobs)
    (h : perform config nowMs jobs claims op = .ok (jobs', claimed)) :
    StepsRows config nowMs jobs claims op jobs' ∨
      op = .purgeRetiredJobs ∧ jobs' = purgeRetiredJobs jobs := by
  cases op with
  | enqueue id job =>
      obtain ⟨rfl, rfl⟩ := Prod.mk.inj (Except.ok.inj h)
      left
      rcases enqueueConn_cases id nowMs job config.maxAttempts jobs with ⟨heq, hid, -⟩ | ⟨heq, -⟩
      · rw [heq]
        refine ⟨fun row => row, [newRow id nowMs job config.maxAttempts], ?_,
          fun row _ => .same _ row, ?_⟩
        · rw [List.map_id']
        · intro row hrow
          rw [List.mem_singleton] at hrow
          exact ⟨id, job, List.mem_cons_self, hrow, hid⟩
      · rw [heq]
        exact stepsRows_refl config nowMs jobs claims _
  | claimNext lockDurationMs =>
      left
      unfold perform claimNext at h
      cases hdue : nextDue nowMs jobs with
      | none =>
          rw [hdue] at h
          obtain ⟨rfl, -⟩ := Prod.mk.inj (Except.ok.inj h)
          exact stepsRows_refl config nowMs jobs claims _
      | some row =>
          rw [hdue] at h
          obtain ⟨⟨next, n⟩, hnext, heq⟩ := Fallible.bind_ok_iff.mp h
          obtain ⟨rfl, -⟩ := Prod.mk.inj (Except.ok.inj heq)
          obtain ⟨hmem, hrow⟩ := nextDue_mem hdue
          refine stepsRows_update hnext fun other hother hid => ?_
          obtain rfl := eq_of_pk_eq hv.ids hother hmem (beq_iff_eq.mp hid)
          exact .claim lockDurationMs _ other hrow
  | settle i how =>
      left
      dsimp only [perform] at h
      split at h
      · obtain ⟨rfl, rfl⟩ := Prod.mk.inj (Except.ok.inj h)
        exact stepsRows_refl config nowMs jobs claims _
      · rename_i claim hclaim
        obtain ⟨next, hnext, heq⟩ := Fallible.map_ok_iff.mp h
        obtain ⟨rfl, rfl⟩ := Prod.mk.inj heq
        exact stepsRows_settle hclaim hnext
  | recoverStaleLocks =>
      left
      obtain ⟨⟨next, n⟩, hnext, heq⟩ := Fallible.map_ok_iff.mp h
      obtain ⟨rfl, rfl⟩ := Prod.mk.inj heq
      exact stepsRows_update hnext fun row _ hstale => .recover row hstale
  | releaseRunningLocks =>
      left
      obtain ⟨⟨next, n⟩, hnext, heq⟩ := Fallible.map_ok_iff.mp h
      obtain ⟨rfl, rfl⟩ := Prod.mk.inj heq
      exact stepsRows_update hnext fun row _ hrunning => .release row (beq_iff_eq.mp hrunning)
  | requeueFailed =>
      left
      obtain ⟨⟨next, n⟩, hnext, heq⟩ := Fallible.map_ok_iff.mp h
      obtain ⟨rfl, rfl⟩ := Prod.mk.inj heq
      exact stepsRows_requeue rfl hv hnext
  | requeueTransientFailed =>
      left
      obtain ⟨⟨next, n⟩, hnext, heq⟩ := Fallible.map_ok_iff.mp h
      obtain ⟨rfl, rfl⟩ := Prod.mk.inj heq
      exact stepsRows_requeue rfl hv hnext
  | purgeRetiredJobs =>
      obtain ⟨rfl, rfl⟩ := Prod.mk.inj (Except.ok.inj h)
      exact Or.inr ⟨rfl, rfl⟩

/-- Each row after a store call was there before, or was inserted. -/
theorem perform_rows {claimed : Option Job} (hv : TableValid jobs)
    (h : perform config nowMs jobs claims op = .ok (jobs', claimed)) :
    ∀ row' ∈ jobs', Inserted config nowMs jobs op row' ∨
      ∃ row ∈ jobs, RowStep config nowMs claims op row row' := by
  intro row' hrow'
  rcases perform_stepsRows hv h with ⟨f, new, rfl, hf, hnew⟩ | ⟨rfl, rfl⟩
  · rcases List.mem_append.mp hrow' with hold | hadded
    · obtain ⟨row, hrow, rfl⟩ := List.mem_map.mp hold
      exact Or.inr ⟨row, hrow, hf row hrow⟩
    · exact Or.inl (hnew row' hadded)
  · exact Or.inr ⟨row', List.mem_of_mem_filter hrow', .same _ row'⟩

end Perform

end TinyCortex.Queue
