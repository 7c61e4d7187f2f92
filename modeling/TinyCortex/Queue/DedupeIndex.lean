import TinyCortex.Queue.World

/-! The partial unique index over whole runs: which store calls can propose a row set that violates
it. Enqueue is suppressed by the index, a claim, a recovery and a release move active rows only, and
the requeue transaction plans around the keys that live rows hold. Only a settle may bring a row back
that its token still fits but that has become terminal in the meantime. -/

namespace TinyCortex.Queue

open Table

/-- At most one row with a given dedupe key is ready or running. -/
def OneActivePerKey (jobs : List JobRow) : Prop :=
  ∀ key, (jobs.countP fun row => row.status.isActive && row.dedupeKey == some key) ≤ 1

theorem TableValid.oneActivePerKey {jobs : List JobRow} (hv : TableValid jobs) :
    OneActivePerKey jobs := by
  intro key
  have hcount := List.nodup_iff_count_le_one.mp hv.active key
  rw [keys, List.count_filterMap] at hcount
  refine le_trans (le_of_eq (List.countP_congr fun row _ => ?_)) hcount
  by_cases h : row.status.isActive
  · simp [JobRow.activeKey, h]
  · simp [JobRow.activeKey, h]

/-- The label's store call aborts on the unique index. -/
def Aborts (config : QueueConfig) (w : World) (label : Label) : Prop :=
  ∃ e, outcome config w label = .error e

/-- The settle makes a row it matches ready again. -/
def Settle.putsBack (config : QueueConfig) (nowMs : Int) (job : Job) (row : JobRow) : Settle → Bool
  | .done _ => false
  | .failed _ failure => !job.failsForGood failure
  | .deferred _ _ => !row.tooOldToDefer config nowMs

/-- A settle that puts a row back which is already terminal, while a live row holds its key. -/
def RevivesTakenKey (config : QueueConfig) (w : World) (label : Label) : Prop :=
  ∃ i how claim row key, label.op = .settle i how ∧ w.claims[i]? = some claim ∧ row ∈ w.jobs ∧
    claim.job.matchesRow row ∧ row.status.isTerminal ∧
    how.putsBack config (w.now label) claim.job row ∧ row.dedupeKey = some key ∧
    key ∈ activeKeys w.jobs

section Update

variable {p : JobRow → Bool} {f : JobRow → JobRow} {jobs : List JobRow}

/-- A statement on one row aborts exactly when it brings a terminal row back under a held key. -/
theorem updateJobs_error_iff (hv : TableValid jobs)
    (hone : ∀ r ∈ jobs, ∀ s ∈ jobs, p r → p s → s.id = r.id)
    (hkey : ∀ r, (f r).activeKey = none ∨ (f r).activeKey = r.dedupeKey) :
    (∃ e, updateJobs p f jobs = .error e) ↔ ∃ row ∈ jobs, p row ∧ row.status.isTerminal ∧
      ∃ key, (f row).activeKey = some key ∧ key ∈ activeKeys jobs := by
  have herror : (∃ e, updateJobs p f jobs = .error e) ↔
      ¬UniqueOn JobRow.activeKey (update p f jobs) := by
    unfold updateJobs
    split_ifs with h
    · simp [h]
    · exact iff_of_true ⟨_, rfl⟩ h
  rw [herror]
  constructor
  · intro hbroken
    by_contra hnone
    push Not at hnone
    refine hbroken ?_
    by_cases hmatch : ∃ row ∈ jobs, p row ∧ row.status.isTerminal ∧ (f row).activeKey ≠ none
    · obtain ⟨row, hrow, hp, hterm, hin⟩ := hmatch
      obtain ⟨key, hin⟩ := Option.ne_none_iff_exists'.mp hin
      exact (uniqueOn_enter_iff hv.ids hv.active hrow hp (fun s hs hps => hone row hrow s hs hp hps)
        (JobRow.activeKey_of_terminal hterm) hin).mpr (hnone row hrow hp hterm key hin)
    · push Not at hmatch
      refine hv.active.update_of_drop fun r hr hp => ?_
      by_cases hterm : r.status.isTerminal
      · exact Or.inl (hmatch r hr hp hterm)
      · rw [JobStatus.isTerminal_eq, Bool.not_eq_true', Bool.not_eq_false] at hterm
        rw [JobRow.activeKey_of_active hterm]
        exact hkey r
  · rintro ⟨row, hrow, hp, hterm, key, hin, hheld⟩ huniq
    exact (uniqueOn_enter_iff hv.ids hv.active hrow hp (fun s hs hps => hone row hrow s hs hp hps)
      (JobRow.activeKey_of_terminal hterm) hin).mp huniq hheld

theorem matchesRow_one (job : Job) :
    ∀ r ∈ jobs, ∀ s ∈ jobs, job.matchesRow r → job.matchesRow s → s.id = r.id :=
  fun _ _ _ _ hr hs => (matchesRow_iff.mp hs).1.trans (matchesRow_iff.mp hr).1.symm

/-- A statement on running rows that leaves them active cannot abort. -/
theorem updateJobs_running_ok (hv : TableValid jobs) (hp : ∀ r, p r → r.status = .running)
    (hkey : ∀ r, (f r).activeKey = r.dedupeKey) :
    updateJobs p f jobs = .ok (update p f jobs, jobs.countP p) := by
  refine updateJobs_of_unique (hv.active.update_of_drop fun r _ hpr => Or.inr ?_)
  rw [hkey r, JobRow.activeKey_of_active]
  rw [hp r hpr]
  rfl

end Update

theorem settle_error_iff {config : QueueConfig} {nowMs : Int} {job : Job} {jobs : List JobRow}
    (hv : TableValid jobs) (how : Settle) :
    (∃ e, settle config nowMs job jobs how = .error e) ↔ ∃ row ∈ jobs, job.matchesRow row ∧
      row.status.isTerminal ∧ how.putsBack config nowMs job row ∧
      ∃ key, row.dedupeKey = some key ∧ key ∈ activeKeys jobs := by
  cases how with
  | done followUps =>
      have hdrop := hv.active.update_of_drop (p := job.matchesRow) (f := (·.markDone nowMs))
        fun _ _ _ => Or.inl rfl
      have hok : ∀ e, settle config nowMs job jobs (.done followUps) ≠ .error e := by
        intro e h
        rw [settle, Fallible.map_error_iff, markDoneWithFollowups, updateJobs_of_unique hdrop] at h
        dsimp only [bind, Except.bind] at h
        split_ifs at h
      constructor
      · rintro ⟨e, h⟩
        exact absurd h (hok e)
      · rintro ⟨row, -, -, -, hback, -⟩
        cases hback
  | failed error failure =>
      simp only [settle, Fallible.map_error_iff, markFailedTyped, Settle.putsBack]
      split_ifs with hgood
      · rw [updateJobs_error_iff hv (matchesRow_one job) fun _ => Or.inl rfl]
        simp [hgood]
      · rw [updateJobs_error_iff hv (matchesRow_one job) fun _ => Or.inr rfl]
        simp [hgood]
  | deferred untilMs reason =>
      simp only [settle, Fallible.map_error_iff, markDeferred, Settle.putsBack]
      rw [updateJobs_error_iff hv (matchesRow_one job) fun row => ?_]
      · simp only [JobRow.markDeferred_activeKey]
        refine exists_congr fun row => and_congr_right fun _ => and_congr_right fun _ =>
          and_congr_right fun _ => ?_
        cases row.tooOldToDefer config nowMs <;> simp
      · rw [JobRow.markDeferred_activeKey]
        split_ifs
        · exact Or.inl rfl
        · exact Or.inr rfl

/-! ### The requeue transaction -/

/-- What the plan promises: it chooses among the candidates, and each chosen key once, none of them
held by a live row or won before. -/
structure RequeuePlan.Sound (plan : RequeuePlan) (active claimed : List String)
    (candidates : List (String × Option String)) : Prop where
  chosen : plan.toRequeue ⊆ candidates
  once : (plan.toRequeue.filterMap Prod.snd).Nodup
  free : ∀ key ∈ plan.toRequeue.filterMap Prod.snd, key ∉ active ∧ key ∉ claimed

theorem planRequeue_sound (active claimed : List String)
    (candidates : List (String × Option String)) :
    (planRequeue active claimed candidates).Sound active claimed candidates := by
  induction candidates generalizing claimed with
  | nil => exact ⟨List.Subset.refl _, List.nodup_nil, by simp [planRequeue]⟩
  | cons candidate rest ih =>
      obtain ⟨id, key⟩ := candidate
      cases key with
      | none =>
          obtain ⟨hchosen, honce, hfree⟩ := ih claimed
          exact ⟨List.cons_subset_cons _ hchosen, honce, hfree⟩
      | some key =>
          unfold planRequeue
          split_ifs with hactive hclaimed
          · obtain ⟨hchosen, honce, hfree⟩ := ih claimed
            exact ⟨List.subset_cons_of_subset _ hchosen, honce, hfree⟩
          · obtain ⟨hchosen, honce, hfree⟩ := ih claimed
            exact ⟨List.subset_cons_of_subset _ hchosen, honce, hfree⟩
          · obtain ⟨hchosen, honce, hfree⟩ := ih (key :: claimed)
            refine ⟨List.cons_subset_cons _ hchosen, ?_, ?_⟩
            · refine List.nodup_cons.mpr ⟨fun hmem => ?_, honce⟩
              exact (hfree key hmem).2 List.mem_cons_self
            · intro key' hkey'
              rcases List.mem_cons.mp hkey' with rfl | hrest
              · exact ⟨hactive, hclaimed⟩
              · exact ⟨(hfree key' hrest).1, fun h => (hfree key' hrest).2 (List.mem_cons_of_mem _ h)⟩

/-- The cancelling updates go through, keep every row's key and free keys at most. -/
theorem updateEach_cancel_ok (nowMs : Int) (ids : List String) {jobs : List JobRow}
    (hv : TableValid jobs) :
    ∃ next n, updateEach (·.cancel nowMs) ids jobs = .ok (next, n) ∧ TableValid next ∧
      (∀ row ∈ next, ∃ old ∈ jobs, old.id = row.id ∧ old.dedupeKey = row.dedupeKey) ∧
      activeKeys next ⊆ activeKeys jobs := by
  induction ids generalizing jobs with
  | nil => exact ⟨jobs, 0, rfl, hv, fun row hrow => ⟨row, hrow, rfl, rfl⟩, List.Subset.refl _⟩
  | cons id ids ih =>
      have hdrop : ∀ r ∈ jobs, (r.id == id) = true →
          (r.cancel nowMs).activeKey = none ∨ (r.cancel nowMs).activeKey = r.activeKey :=
        fun _ _ _ => Or.inl rfl
      have hmid := hv.update_of_drop (f := (·.cancel nowMs)) (fun _ => rfl) hdrop
      obtain ⟨next, n, hnext, hvalid, hrows, hkeys⟩ := ih hmid
      refine ⟨next, jobs.countP (·.id == id) + n, ?_, hvalid, fun row hrow => ?_,
        List.Subset.trans hkeys (keys_update_sublist hdrop).subset⟩
      · rw [updateEach, updateJobs_of_unique hmid.active]
        dsimp only [bind, Except.bind]
        rw [hnext]
      · obtain ⟨mid, hmem, hid, hkey⟩ := hrows row hrow
        rcases mem_update.mp hmem with ⟨old, hold, -, rfl⟩ | ⟨hold, -⟩
        · exact ⟨old, hold, hid, hkey⟩
        · exact ⟨mid, hold, hid, hkey⟩

/-- Requeuing rows under distinct keys that no live row holds goes through. -/
theorem updateEach_requeue_ok {nowMs : Int} {targets : List (String × Option String)}
    {jobs : List JobRow} (hv : TableValid jobs)
    (hrows : ∀ target ∈ targets, ∀ row ∈ jobs, row.id = target.1 → row.dedupeKey = target.2)
    (honce : (targets.filterMap Prod.snd).Nodup)
    (hfree : ∀ key ∈ targets.filterMap Prod.snd, key ∉ activeKeys jobs) :
    ∃ r, updateEach (·.requeue nowMs) (targets.map Prod.fst) jobs = .ok r := by
  induction targets generalizing jobs with
  | nil => exact ⟨_, rfl⟩
  | cons target targets ih =>
      have hone : ∀ r ∈ jobs, ∀ s ∈ jobs, (r.id == target.1) = true → (s.id == target.1) = true →
          s.id = r.id := by
        intro r _ s _ hr hs
        rw [beq_iff_eq] at hr hs
        exact hs.trans hr.symm
      have hnoerror : ¬∃ e, updateJobs (·.id == target.1) (·.requeue nowMs) jobs = .error e := by
        rw [updateJobs_error_iff hv hone fun _ => Or.inr rfl]
        rintro ⟨row, hrow, hp, -, key, hin, hheld⟩
        rw [beq_iff_eq] at hp
        have hkey : target.2 = some key := (hrows target List.mem_cons_self row hrow hp).symm.trans hin
        exact hfree key (List.mem_filterMap.mpr ⟨target, List.mem_cons_self, hkey⟩) hheld
      cases hmid : updateJobs (·.id == target.1) (·.requeue nowMs) jobs with
      | error e => exact absurd ⟨e, hmid⟩ hnoerror
      | ok mid =>
          obtain ⟨next, n⟩ := mid
          have hvalid := hv.of_updateJobs hmid fun _ => rfl
          obtain ⟨-, rfl, -⟩ := updateJobs_ok_iff.mp hmid
          have hrest : ∃ r, updateEach (·.requeue nowMs) (targets.map Prod.fst)
              (update (·.id == target.1) (·.requeue nowMs) jobs) = .ok r := by
            refine ih hvalid ?_ ?_ ?_
            · intro later hlater row hrow hid
              rcases mem_update.mp hrow with ⟨old, hold, -, rfl⟩ | ⟨hold, -⟩
              · exact hrows later (List.mem_cons_of_mem _ hlater) old hold hid
              · exact hrows later (List.mem_cons_of_mem _ hlater) row hold hid
            · rw [List.filterMap_cons] at honce
              split at honce
              · exact honce
              · exact (List.nodup_cons.mp honce).2
            · intro key hkey hheld
              obtain ⟨row, hrow, hactive⟩ := mem_keys.mp hheld
              rcases mem_update.mp hrow with ⟨old, hold, hp, rfl⟩ | ⟨hold, -⟩
              · rw [beq_iff_eq] at hp
                have hhead : target.2 = some key :=
                  (hrows target List.mem_cons_self old hold hp).symm.trans hactive
                rw [List.filterMap_cons, hhead] at honce
                exact (List.nodup_cons.mp honce).1 hkey
              · obtain ⟨later, hlater, hsnd⟩ := List.mem_filterMap.mp hkey
                exact hfree key (List.mem_filterMap.mpr ⟨later, List.mem_cons_of_mem _ hlater, hsnd⟩)
                  (mem_keys.mpr ⟨row, hold, hactive⟩)
          obtain ⟨⟨last, m⟩, hlast⟩ := hrest
          refine ⟨(last, n + m), ?_⟩
          rw [List.map_cons, updateEach, hmid]
          dsimp only [bind, Except.bind]
          rw [hlast]

/-- The requeue transaction never aborts, however many failed siblings of a key it meets. -/
theorem requeueFailedWhere_ok (predicate : JobRow → Bool) (nowMs : Int) {jobs : List JobRow}
    (hv : TableValid jobs) : ∃ r, requeueFailedWhere predicate nowMs jobs = .ok r := by
  let candidates := ((jobs.filter predicate).insertionSort (fun a b => a.newerFirst b)).map
    fun row => (row.id, row.dedupeKey)
  let plan := planRequeue (activeKeys jobs) [] candidates
  obtain ⟨hchosen, honce, hfree⟩ := planRequeue_sound (activeKeys jobs) [] candidates
  obtain ⟨mid, n, hmid, hvalid, hrows, hkeys⟩ := updateEach_cancel_ok nowMs plan.toCancel hv
  have hrequeue : ∃ r, updateEach (·.requeue nowMs) (plan.toRequeue.map Prod.fst) mid = .ok r := by
    refine updateEach_requeue_ok hvalid ?_ honce fun key hkey hheld => (hfree key hkey).1 (hkeys hheld)
    intro target htarget row hrow hid
    obtain ⟨source, hsource, rfl⟩ := List.mem_map.mp (hchosen htarget)
    obtain ⟨old, hold, holdId, holdKey⟩ := hrows row hrow
    have hsourceMem : source ∈ jobs :=
      List.mem_of_mem_filter ((List.mem_insertionSort _).mp hsource)
    obtain rfl := eq_of_pk_eq hv.ids hold hsourceMem (holdId.trans hid)
    exact holdKey.symm
  obtain ⟨r, hr⟩ := hrequeue
  refine ⟨r, ?_⟩
  change (updateEach (·.cancel nowMs) plan.toCancel jobs >>= fun cancelled =>
    updateEach (·.requeue nowMs) (plan.toRequeue.map Prod.fst) cancelled.1) = .ok r
  rw [hmid]
  exact hr

/-! ### Every store call -/

/-- A store call aborts on the index exactly when it is a settle that revives a taken key. -/
theorem aborts_iff {config : QueueConfig} {w : World} {label : Label} (hv : TableValid w.jobs) :
    Aborts config w label ↔ RevivesTakenKey config w label := by
  obtain ⟨advanceMs, op⟩ := label
  have hother : (∃ r, outcome config w ⟨advanceMs, op⟩ = .ok r) → (∀ i how, op ≠ .settle i how) →
      (Aborts config w ⟨advanceMs, op⟩ ↔ RevivesTakenKey config w ⟨advanceMs, op⟩) := by
    rintro ⟨r, hr⟩ hop
    refine iff_of_false ?_ ?_
    · rintro ⟨e, he⟩
      rw [hr] at he
      cases he
    · rintro ⟨i, how, -, -, -, heq, -⟩
      exact hop i how heq
  cases op with
  | settle i how =>
      cases hclaim : w.claims[i]? with
      | none =>
          refine iff_of_false ?_ ?_
          · rintro ⟨e, he⟩
            simp only [outcome, perform, hclaim] at he
            cases he
          · rintro ⟨i', how', claim, -, -, heq, hi', -⟩
            obtain ⟨rfl, rfl⟩ := Op.settle.inj heq
            rw [hclaim] at hi'
            cases hi'
      | some claim =>
          have hsettle : Aborts config w ⟨advanceMs, .settle i how⟩ ↔
              ∃ e, settle config (w.clock + advanceMs) claim.job w.jobs how = .error e := by
            simp only [Aborts, outcome, perform, hclaim, Fallible.map_error_iff, World.now]
          rw [hsettle, settle_error_iff hv]
          constructor
          · rintro ⟨row, hrow, hmatch, hterm, hback, key, hkey, hheld⟩
            exact ⟨i, how, claim, row, key, rfl, hclaim, hrow, hmatch, hterm, hback, hkey, hheld⟩
          · rintro ⟨i', how', claim', row, key, heq, hi', hrow, hmatch, hterm, hback, hkey, hheld⟩
            obtain ⟨rfl, rfl⟩ := Op.settle.inj heq
            obtain rfl := Option.some.inj (hclaim.symm.trans hi')
            exact ⟨row, hrow, hmatch, hterm, hback, key, hkey, hheld⟩
  | enqueue id job => exact hother ⟨_, rfl⟩ (by simp)
  | claimNext lockDurationMs =>
      refine hother ?_ (by simp)
      rcases claimNext_cases _ _ hv with ⟨heq, -⟩ | ⟨row, lockUntil, -, -, -, heq, -⟩
      · exact ⟨_, heq⟩
      · exact ⟨_, heq⟩
  | recoverStaleLocks =>
      have hok := updateJobs_running_ok (p := (·.isStale (w.clock + advanceMs))) (f := JobRow.recover) hv
        (fun r hr => JobRow.isStale.running hr) fun _ => rfl
      exact hother ⟨_, congrArg (Except.map _) hok⟩ (by simp)
  | releaseRunningLocks =>
      have hok := updateJobs_running_ok (p := (·.status == .running)) (f := JobRow.release) hv
        (fun r hr => by simpa using hr) fun _ => rfl
      exact hother ⟨_, congrArg (Except.map _) hok⟩ (by simp)
  | requeueFailed =>
      obtain ⟨r, hr⟩ := requeueFailedWhere_ok (·.status == .failed) (w.clock + advanceMs) hv
      exact hother ⟨_, congrArg (Except.map _) hr⟩ (by simp)
  | requeueTransientFailed =>
      obtain ⟨r, hr⟩ := requeueFailedWhere_ok
        (fun row => row.status == .failed && row.failureClass != some "unrecoverable")
        (w.clock + advanceMs) hv
      exact hother ⟨_, congrArg (Except.map _) hr⟩ (by simp)
  | purgeRetiredJobs => exact hother ⟨_, rfl⟩ (by simp)

/-- In every run one active row a key is the invariant, and no store call aborts on the index exactly
when no settle of the run revives a taken key. -/
theorem dedupeIndex_run (config : QueueConfig) (labels : List Label) :
    (queue config).Throughout (fun w => OneActivePerKey w.jobs) labels ∧
      ((queue config).AllSteps (fun w label => ¬Aborts config w label) labels ↔
        (queue config).AllSteps (fun w label => ¬RevivesTakenKey config w label) labels) := by
  refine ⟨fun done _ => (tableValid_run config done).oneActivePerKey, ?_⟩
  have hstep : ∀ done label, ¬Aborts config ((queue config).run done) label ↔
      ¬RevivesTakenKey config ((queue config).run done) label :=
    fun done label => not_congr (aborts_iff (tableValid_run config done))
  exact ⟨fun h done label rest heq => (hstep done label).mp (h done label rest heq),
    fun h done label rest heq => (hstep done label).mpr (h done label rest heq)⟩

/-- Two claims of one row within one millisecond; the second worker finishes, the key is enqueued
again, and the first worker reports a failure. -/
def failureAfterReenqueue : List Label :=
  [⟨1000, .enqueue "job-1" (.extractChunk ⟨"chunk-1"⟩)⟩, ⟨0, .claimNext 300000⟩,
    ⟨0, .releaseRunningLocks⟩, ⟨0, .claimNext 300000⟩, ⟨0, .settle 1 (.done [])⟩,
    ⟨0, .enqueue "job-2" (.extractChunk ⟨"chunk-1"⟩)⟩]

/-- The failure report of the first worker aborts on the unique index. -/
theorem failureAfterReenqueue_aborts :
    ¬∀ config labels, (queue config).AllSteps (fun w label => ¬Aborts config w label) labels := by
  intro hall
  refine hall .default (failureAfterReenqueue ++ [⟨0, .settle 0 (.failed "timeout" none)⟩])
    failureAfterReenqueue _ [] rfl ⟨.dedupeKeyTaken, ?_⟩
  decide

end TinyCortex.Queue
