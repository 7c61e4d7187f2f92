import TinyCortex.Queue.ClaimToken
import TinyCortex.Queue.RowStep

/-! The attempt budget over whole runs. Beside the queue runs a list of the claims that count: those made
since the last requeue of their job that no deferral and no release ended. -/

namespace TinyCortex.Queue

open Table

/-- A claim that counts, by its position in the list of all claims, and the job that it is of. -/
structure Handout where
  claim : Nat
  id : String
  deriving DecidableEq

structure HandWorld extends World where
  handed : List Handout

/-- No later claim is of the same job. -/
def Handout.isLatest (claims : List Claim) (handout : Handout) : Bool :=
  (claims.drop (handout.claim + 1)).all fun later => later.job.id != handout.id

def hasStatus (status : JobStatus) (id : String) (jobs : List JobRow) : Bool :=
  jobs.any fun row => row.id == id && row.status == status

/-- The claims that count after a store call that took `w.jobs` to `jobs`. -/
def HandWorld.handedAfter (w : HandWorld) (jobs : List JobRow) (claimed : Option Job) : Op → List Handout
  | .claimNext _ => w.handed ++ (claimed.map fun job => ⟨w.claims.length, job.id⟩).toList
  | .settle i (.deferred _ _) =>
      if (w.claims[i]?).any fun claim => w.jobs.any claim.job.matchesRow then
        w.handed.filter fun handout => handout.claim != i
      else w.handed
  | .releaseRunningLocks => w.handed.filter fun handout =>
      !(hasStatus .running handout.id w.jobs && handout.isLatest w.claims)
  | .requeueFailed => w.handed.filter fun handout =>
      !(hasStatus .failed handout.id w.jobs && hasStatus .ready handout.id jobs)
  | .requeueTransientFailed => w.handed.filter fun handout =>
      !(hasStatus .failed handout.id w.jobs && hasStatus .ready handout.id jobs)
  | _ => w.handed

def advanceHanded (config : QueueConfig) (w : HandWorld) (label : Label) : HandWorld where
  toWorld := advance config w.toWorld label
  handed :=
    match outcome config w.toWorld label with
    | .ok (jobs, claimed) => w.handedAfter jobs claimed label.op
    | .error _ => w.handed

def handQueue (config : QueueConfig) : Machine HandWorld Label :=
  ⟨⟨World.empty, []⟩, advanceHanded config⟩

/-- How often the job was handed out, as far as it counts. -/
def timesHanded (handed : List Handout) (id : String) : Nat := handed.countP fun handout => handout.id == id

/-- No job has more attempts than its budget, nor was it handed out more often. -/
def WithinBudget (w : HandWorld) : Prop :=
  ∀ row ∈ w.jobs, row.attempts ≤ row.maxAttempts ∧ (timesHanded w.handed row.id : Int) ≤ row.maxAttempts

/-- Jobs have a budget, each worker settles its claim once, no claim repeats the token of a claim that is
still to be settled, and a recovery finds no stale row with its budget spent. -/
structure BudgetKept (config : QueueConfig) (w : World) (label : Label) : Prop where
  budget : ∀ job ∈ label.op.newJobs,
    0 < job.maxAttempts.getD config.maxAttempts ∧ job.maxAttempts.getD config.maxAttempts < 2 ^ 32
  once : ∀ i how, label.op = .settle i how → ∀ claim, w.claims[i]? = some claim → claim.settled = false
  fresh : FreshToken w label
  recover : label.op = .recoverStaleLocks → ∀ row ∈ w.jobs, row.isStale (w.now label) →
    row.attempts < row.maxAttempts

/-- The latest claim of the row's job carries the token of the row, and it counts. -/
def Held (claimed : List Job) (handed : List Handout) (row : JobRow) : Prop :=
  ∃ i job, claimed[i]? = some job ∧ job.matchesRow row ∧ ⟨i, row.id⟩ ∈ handed ∧
    ∀ j later, claimed[j]? = some later → i < j → later.id ≠ row.id

/-- What holds of each row. -/
structure RowBudget (claimed : List Job) (handed : List Handout) (row : JobRow) : Prop where
  live : row.kind.isRetired = false
  positive : 0 < row.maxAttempts
  bounded : row.maxAttempts < 2 ^ 32
  counted : row.attempts = timesHanded handed row.id
  within : row.attempts ≤ row.maxAttempts
  ready : row.status = .ready → row.attempts < row.maxAttempts
  running : row.status = .running → row.startedAtMs ≠ none
  held : row.startedAtMs ≠ none → Held claimed handed row
  budget : ∀ job ∈ claimed, job.id = row.id → (job.maxAttempts : Int) = row.maxAttempts

structure Budgeted (w : HandWorld) : Prop where
  apart : ClaimsApart w.toWorld
  rows : ∀ row ∈ w.jobs, RowBudget (w.claims.map Claim.job) w.handed row
  owned : ∀ handout ∈ w.handed, handout.id ∈ w.jobs.map JobRow.id
  known : ∀ handout ∈ w.handed, ∃ job, (w.claims.map Claim.job)[handout.claim]? = some job ∧
    job.id = handout.id
  once : (w.handed.map Handout.claim).Nodup
  claimedIds : ∀ claim ∈ w.claims, claim.job.id ∈ w.jobs.map JobRow.id

theorem Budgeted.withinBudget {w : HandWorld} (h : Budgeted w) : WithinBudget w := by
  intro row hrow
  have hbudget := h.rows row hrow
  refine ⟨hbudget.within, ?_⟩
  rw [← hbudget.counted]
  exact hbudget.within

/-- A store call that claims nothing leaves the claimed snapshots as they are. -/
theorem map_job_recordClaims_none (claims : List Claim) (op : Op) :
    (recordClaims claims none op).map Claim.job = claims.map Claim.job := by
  cases op with
  | settle i how =>
      apply List.ext_getElem?
      intro j
      rw [recordClaims, List.getElem?_map, List.getElem?_map, List.getElem?_modify]
      cases claims[j]? with
      | none => rfl
      | some claim =>
          change some (if i = j then claim.settle else claim).job = some claim.job
          split_ifs
          · rfl
          · rfl
  | _ => simp [recordClaims]

section Counting

variable {handed : List Handout} {id : String}

theorem timesHanded_filter (handed : List Handout) (keep : Handout → Bool) (id : String) :
    timesHanded (handed.filter keep) id = handed.countP fun handout => handout.id == id && keep handout :=
  List.countP_filter

theorem timesHanded_filter_of_keep {keep : Handout → Bool}
    (h : ∀ handout ∈ handed, handout.id = id → keep handout) :
    timesHanded (handed.filter keep) id = timesHanded handed id := by
  rw [timesHanded_filter, timesHanded]
  refine List.countP_congr fun handout hmem => ?_
  rw [Bool.and_eq_true, beq_iff_eq]
  exact and_iff_left_of_imp (h handout hmem)

/-- Without one claim of the job it counts once less. -/
theorem timesHanded_drop {i : Nat} (honce : (handed.map Handout.claim).Nodup) (hmem : ⟨i, id⟩ ∈ handed) :
    handed.countP (fun handout => handout.id == id && handout.claim != i) + 1 = timesHanded handed id := by
  obtain ⟨above, below, rfl, habove, hbelow⟩ := exists_split honce hmem
  have hother (part : List Handout) (hpart : ∀ handout ∈ part, handout.claim ≠ i) :
      part.countP (fun handout => handout.id == id && handout.claim != i) =
        part.countP fun handout => handout.id == id := by
    refine List.countP_congr fun handout hin => ?_
    rw [Bool.and_eq_true]
    exact and_iff_left (bne_iff_ne.mpr (hpart handout hin))
  rw [timesHanded, List.countP_append, List.countP_append, hother above habove,
    List.countP_cons_of_neg (by simp), List.countP_cons_of_pos (by simp), hother below hbelow]
  omega

theorem timesHanded_append_of_ne {handout : Handout} (h : handout.id ≠ id) :
    timesHanded (handed ++ [handout]) id = timesHanded handed id := by
  simp [timesHanded, h]

theorem timesHanded_append_self (handed : List Handout) (i : Nat) (id : String) :
    timesHanded (handed ++ [⟨i, id⟩]) id = timesHanded handed id + 1 := by
  simp [timesHanded]

end Counting

section Rows

variable {claimed : List Job} {handed : List Handout} {row row' : JobRow}

/-- A row keeps its budget while its token stays and it is not made ready at the end of it. -/
theorem RowBudget.mono (h : RowBudget claimed handed row) (hid : row'.id = row.id)
    (hkind : row'.kind = row.kind) (hmax : row'.maxAttempts = row.maxAttempts)
    (hattempts : row'.attempts = row.attempts) (hstarted : row'.startedAtMs = row.startedAtMs)
    (hready : row'.status = .ready → row.attempts < row.maxAttempts)
    (hrunning : row'.status = .running → row.status = .running) : RowBudget claimed handed row' where
  live := by
    rw [hkind]
    exact h.live
  positive := by
    rw [hmax]
    exact h.positive
  bounded := by
    rw [hmax]
    exact h.bounded
  counted := by
    rw [hattempts, hid]
    exact h.counted
  within := by
    rw [hattempts, hmax]
    exact h.within
  ready := by
    rw [hattempts, hmax]
    exact hready
  running := by
    rw [hstarted]
    exact fun hrun => h.running (hrunning hrun)
  held := by
    rw [hstarted]
    intro hsome
    obtain ⟨i, job, hjob, hmatch, hhanded, hlatest⟩ := h.held hsome
    refine ⟨i, job, hjob, ?_, ?_, ?_⟩
    · rw [matchesRow_iff, hid, hattempts, hstarted]
      exact matchesRow_iff.mp hmatch
    · rw [hid]
      exact hhanded
    · rw [hid]
      exact hlatest
  budget := by
    rw [hid, hmax]
    exact h.budget

/-- A row is as well off with other lists that agree on its job. -/
theorem RowBudget.congr {claimed' : List Job} {handed' : List Handout} (h : RowBudget claimed handed row)
    (hcount : timesHanded handed' row.id = timesHanded handed row.id)
    (hheld : Held claimed handed row → Held claimed' handed' row)
    (hbudget : ∀ job ∈ claimed', job.id = row.id → job ∈ claimed) : RowBudget claimed' handed' row where
  live := h.live
  positive := h.positive
  bounded := h.bounded
  counted := by
    rw [hcount]
    exact h.counted
  within := h.within
  ready := h.ready
  running := h.running
  held := fun hsome => hheld (h.held hsome)
  budget := fun job hjob hid => h.budget job (hbudget job hjob hid) hid

/-- A row that is put back without a token: its job counts less, or not at all. -/
theorem RowBudget.reset {handed' : List Handout} (h : RowBudget claimed handed row)
    (hid : row'.id = row.id) (hkind : row'.kind = row.kind) (hmax : row'.maxAttempts = row.maxAttempts)
    (hcount : row'.attempts = timesHanded handed' row.id) (hless : row'.attempts < row.maxAttempts)
    (hstarted : row'.startedAtMs = none) (hrunning : row'.status ≠ .running) :
    RowBudget claimed handed' row' where
  live := by
    rw [hkind]
    exact h.live
  positive := by
    rw [hmax]
    exact h.positive
  bounded := by
    rw [hmax]
    exact h.bounded
  counted := by
    rw [hid]
    exact hcount
  within := by
    rw [hmax]
    exact hless.le
  ready := by
    rw [hmax]
    exact fun _ => hless
  running := fun hrun => absurd hrun hrunning
  held := fun hsome => absurd hstarted hsome
  budget := by
    rw [hid, hmax]
    exact h.budget

theorem countAsU32_of_lt {n : Int} (hpos : 0 ≤ n) (hlt : n < 2 ^ 32) : (countAsU32 n : Int) = n := by
  unfold countAsU32
  rw [max_eq_left hpos]
  omega

theorem RowBudget.attempts_nonneg (h : RowBudget claimed handed row) : 0 ≤ row.attempts := by
  rw [h.counted]
  exact Int.natCast_nonneg _

end Rows

section Steps

variable {config : QueueConfig} {w : HandWorld} {label : Label}

theorem Budgeted.valid (h : Budgeted w) : TableValid w.jobs := h.apart.valid

/-- An unsettled claim whose token fits a row is the latest one of its job, and it counts. -/
theorem Budgeted.handed_of_match (h : Budgeted w) {i : Nat} {claim : Claim} {row : JobRow}
    (hclaim : w.claims[i]? = some claim) (hopen : claim.settled = false) (hrow : row ∈ w.jobs)
    (hmatch : claim.job.matchesRow row) : ⟨i, row.id⟩ ∈ w.handed := by
  obtain ⟨hid, -, hstarted⟩ := matchesRow_iff.mp hmatch
  have hsome : row.startedAtMs ≠ none := by
    rw [hstarted]
    exact h.apart.started claim (List.mem_of_getElem? hclaim)
  obtain ⟨k, job, hjob, hmatch', hhanded, hlatest⟩ := (h.rows row hrow).held hsome
  rcases Nat.lt_trichotomy i k with hlt | rfl | hlt
  · rw [List.getElem?_map] at hjob
    obtain ⟨later, hlater, rfl⟩ := Option.map_eq_some_iff.mp hjob
    have hsuperseded : Superseded w.claims i :=
      ⟨claim, k, later, hclaim, hlater, hlt, (matchesRow_iff.mp hmatch').1.symm.trans hid⟩
    exact absurd hmatch (h.apart.apart i claim hclaim hopen hsuperseded row hrow)
  · exact hhanded
  · refine absurd hid.symm (hlatest i claim.job ?_ hlt)
    rw [List.getElem?_map, hclaim]
    rfl

/-- The row that a handout is of. -/
theorem Budgeted.owner (h : Budgeted w) {handout : Handout} (hmem : handout ∈ w.handed) :
    ∃ row ∈ w.jobs, row.id = handout.id := List.mem_map.mp (h.owned handout hmem)

theorem hasStatus_iff {jobs : List JobRow} (hv : TableValid jobs) {row : JobRow} (hrow : row ∈ jobs)
    (status : JobStatus) : hasStatus status row.id jobs ↔ row.status = status := by
  unfold hasStatus
  rw [List.any_eq_true]
  constructor
  · rintro ⟨other, hother, hboth⟩
    rw [Bool.and_eq_true, beq_iff_eq, beq_iff_eq] at hboth
    rw [← eq_of_pk_eq hv.ids hother hrow hboth.1]
    exact hboth.2
  · intro hstatus
    refine ⟨row, hrow, ?_⟩
    rw [Bool.and_eq_true, beq_iff_eq, beq_iff_eq]
    exact ⟨rfl, hstatus⟩

/-- A call that leaves the handouts and snapshots as they are, and takes each row along. -/
theorem Budgeted.keep (h : Budgeted w) {w' : HandWorld} (hapart : ClaimsApart w'.toWorld)
    (hclaims : w'.claims.map Claim.job = w.claims.map Claim.job) (hsub : w'.handed.Sublist w.handed)
    (hids : w.jobs.map JobRow.id ⊆ w'.jobs.map JobRow.id)
    (hrows : ∀ row ∈ w'.jobs, RowBudget (w.claims.map Claim.job) w'.handed row) : Budgeted w' where
  apart := hapart
  rows := by
    rw [hclaims]
    exact hrows
  owned := fun handout hmem => hids (h.owned handout (hsub.subset hmem))
  known := by
    rw [hclaims]
    exact fun handout hmem => h.known handout (hsub.subset hmem)
  once := h.once.sublist (hsub.map _)
  claimedIds := by
    intro claim hclaim
    have hjob : claim.job ∈ w.claims.map Claim.job := hclaims ▸ List.mem_map_of_mem hclaim
    obtain ⟨before, hbefore, heq⟩ := List.mem_map.mp hjob
    rw [← heq]
    exact hids (h.claimedIds before hbefore)

/-- A new row: its job was never handed out. -/
theorem Budgeted.inserted (h : Budgeted w) (hkept : BudgetKept config w.toWorld label) {row : JobRow}
    (hnew : Inserted config (w.now label) w.jobs label.op row) :
    RowBudget (w.claims.map Claim.job) w.handed row := by
  obtain ⟨id, job, hjob, rfl, hid⟩ := hnew
  obtain ⟨hpos, hlt⟩ := hkept.budget job hjob
  have hnone : timesHanded w.handed id = 0 := by
    refine List.countP_eq_zero.mpr fun handout hmem heq => hid ?_
    rw [← beq_iff_eq.mp heq]
    exact h.owned handout hmem
  constructor
  case live => rfl
  case positive =>
    dsimp only [newRow]
    omega
  case bounded =>
    dsimp only [newRow]
    omega
  case counted =>
    dsimp only [newRow]
    rw [hnone]
    rfl
  case within =>
    dsimp only [newRow]
    omega
  case ready =>
    dsimp only [newRow]
    omega
  case running =>
    intro hrun
    cases hrun
  case held => exact fun hsome => absurd rfl hsome
  case budget =>
    intro job' hjob' heq
    obtain ⟨claim, hclaim, rfl⟩ := List.mem_map.mp hjob'
    refine absurd (h.claimedIds claim hclaim) ?_
    rw [heq]
    exact hid

/-- A settle that ends no claim by deferral, a recovery, an enqueue or a purge. -/
theorem Budgeted.plain (h : Budgeted w) (hkept : BudgetKept config w.toWorld label) {row row' : JobRow}
    (hrow : row ∈ w.jobs) (hstep : RowStep config (w.now label) w.claims label.op row row')
    (hclaim : ∀ lockDurationMs, label.op ≠ .claimNext lockDurationMs)
    (hdefer : ∀ i untilMs reason, label.op ≠ .settle i (.deferred untilMs reason))
    (hrelease : label.op ≠ .releaseRunningLocks) (hrequeue : label.op.requeues = none) :
    RowBudget (w.claims.map Claim.job) w.handed row' := by
  have hbudget := h.rows row hrow
  obtain ⟨advanceMs, op⟩ := label
  dsimp only at hstep hclaim hdefer hrelease hrequeue
  cases hstep with
  | same => exact hbudget
  | claim lockDurationMs => exact absurd rfl (hclaim lockDurationMs)
  | done => exact hbudget.mono rfl rfl rfl rfl rfl nofun nofun
  | failed => exact hbudget.mono rfl rfl rfl rfl rfl nofun nofun
  | retry i error failure nextAt claim _ hmem hmatch hgood =>
      refine hbudget.mono rfl rfl rfl rfl rfl (fun _ => ?_) nofun
      obtain ⟨hid, hattempts, -⟩ := matchesRow_iff.mp hmatch
      have hmax := hbudget.budget claim.job
        (List.mem_map_of_mem (List.mem_of_getElem? hmem)) hid.symm
      rw [Job.failsForGood, Bool.or_eq_false_iff, decide_eq_false_iff_not] at hgood
      rw [hattempts, ← hmax]
      omega
  | deferred i untilMs reason => exact absurd rfl (hdefer i untilMs reason)
  | recover _ hstale =>
      exact hbudget.mono rfl rfl rfl rfl rfl (fun _ => hkept.recover rfl row hrow hstale) nofun
  | release => exact absurd rfl hrelease
  | requeue _ _ _ hop =>
      rw [hrequeue] at hop
      cases hop
  | cancel _ _ _ hop =>
      rw [hrequeue] at hop
      cases hop

/-- The deferral of a claim whose token fits: it counts no longer. -/
theorem Budgeted.deferred (h : Budgeted w) {i : Nat} {claim : Claim} {row : JobRow} {nowMs untilMs : Int}
    {reason : String} (hclaim : w.claims[i]? = some claim) (hopen : claim.settled = false)
    (hrow : row ∈ w.jobs) (hmatch : claim.job.matchesRow row) :
    RowBudget (w.claims.map Claim.job) (w.handed.filter fun handout => handout.claim != i)
      (row.markDeferred config nowMs untilMs reason (I64.saturatingSub claim.job.attempts 1)) := by
  have hbudget := h.rows row hrow
  have hdrop := timesHanded_drop h.once (h.handed_of_match hclaim hopen hrow hmatch)
  have hattempts := (matchesRow_iff.mp hmatch).2.1
  have hcounted := hbudget.counted
  have hwithin := hbudget.within
  have hbounded := hbudget.bounded
  have hless : I64.saturatingSub (claim.job.attempts : Int) 1 = row.attempts - 1 := by
    rw [← hattempts, I64.saturatingSub, I64.saturate_eq]
    · unfold I64.minValue
      omega
    · unfold I64.maxValue
      omega
  refine hbudget.reset rfl rfl rfl ?_ ?_ rfl ?_
  · dsimp only [JobRow.markDeferred]
    rw [hless, timesHanded_filter]
    omega
  · dsimp only [JobRow.markDeferred]
    rw [hless]
    omega
  · dsimp only [JobRow.markDeferred]
    split_ifs
    · decide
    · decide

/-- A row that a filter of the handouts is not about. -/
theorem RowBudget.untouched {claimed : List Job} {handed : List Handout} {row : JobRow}
    (h : RowBudget claimed handed row) {keep : Handout → Bool}
    (hkeep : ∀ handout ∈ handed, handout.id = row.id → keep handout) :
    RowBudget claimed (handed.filter keep) row := by
  refine h.congr (timesHanded_filter_of_keep hkeep) ?_ fun job hjob _ => hjob
  rintro ⟨i, job, hjob, hmatch, hhanded, hlatest⟩
  exact ⟨i, job, hjob, hmatch, List.mem_filter.mpr ⟨hhanded, hkeep _ hhanded rfl⟩, hlatest⟩

/-- The latest handout of a job is the one that its running row is held by. -/
theorem Budgeted.isLatest_iff (h : Budgeted w) {row : JobRow} {i : Nat} {job : Job}
    (hjob : (w.claims.map Claim.job)[i]? = some job) (hid : job.id = row.id)
    (hlatest : ∀ j later, (w.claims.map Claim.job)[j]? = some later → i < j → later.id ≠ row.id)
    {handout : Handout} (hmem : handout ∈ w.handed) (hof : handout.id = row.id) :
    handout.isLatest w.claims ↔ handout.claim = i := by
  unfold Handout.isLatest
  rw [List.all_eq_true]
  constructor
  · intro hall
    obtain ⟨own, hown, hownId⟩ := h.known handout hmem
    rcases Nat.lt_trichotomy handout.claim i with hlt | heq | hlt
    · rw [List.getElem?_map] at hjob
      obtain ⟨later, hlater, rfl⟩ := Option.map_eq_some_iff.mp hjob
      have hin : later ∈ w.claims.drop (handout.claim + 1) := by
        refine List.mem_of_getElem? (i := i - (handout.claim + 1)) ?_
        rw [List.getElem?_drop, Nat.add_sub_cancel' hlt]
        exact hlater
      exact absurd (hid.trans hof.symm) (bne_iff_ne.mp (hall later hin))
    · exact heq
    · exact absurd (hownId.trans hof) (hlatest _ own hown hlt)
  · intro heq later hlater
    obtain ⟨k, hk⟩ := List.mem_iff_getElem?.mp hlater
    rw [List.getElem?_drop] at hk
    rw [bne_iff_ne, hof]
    refine hlatest (handout.claim + 1 + k) later.job ?_ (by omega)
    rw [List.getElem?_map, hk]
    rfl

/-- An orderly release: the claims that hold the running rows count no longer. -/
theorem Budgeted.released (h : Budgeted w) {row : JobRow} (hrow : row ∈ w.jobs)
    (hrunning : row.status = .running) :
    RowBudget (w.claims.map Claim.job) (w.handed.filter fun handout =>
      !(hasStatus .running handout.id w.jobs && handout.isLatest w.claims)) row.release := by
  have hbudget := h.rows row hrow
  obtain ⟨i, job, hjob, hmatch, hhanded, hlatest⟩ := hbudget.held (hbudget.running hrunning)
  have hdrop := timesHanded_drop h.once hhanded
  have hid := (matchesRow_iff.mp hmatch).1.symm
  have hsame : timesHanded (w.handed.filter fun handout =>
      !(hasStatus .running handout.id w.jobs && handout.isLatest w.claims)) row.id =
        w.handed.countP fun handout => handout.id == row.id && handout.claim != i := by
    rw [timesHanded_filter]
    refine List.countP_congr fun handout hmem => ?_
    rw [Bool.and_eq_true, Bool.and_eq_true, beq_iff_eq]
    refine and_congr_right fun hof => ?_
    have hstatus : hasStatus .running handout.id w.jobs = true := by
      rw [hof]
      exact (hasStatus_iff h.valid hrow .running).mpr hrunning
    rw [hstatus, Bool.true_and, Bool.not_eq_true', ← Bool.not_eq_true, bne_iff_ne]
    exact not_congr (h.isLatest_iff hjob hid hlatest hmem hof)
  have hcounted := hbudget.counted
  have hwithin := hbudget.within
  have hless : row.release.attempts = row.attempts - 1 := by
    dsimp only [JobRow.release]
    rw [if_pos]
    omega
  refine hbudget.reset rfl rfl rfl ?_ ?_ rfl nofun
  · rw [hless, hsame]
    omega
  · rw [hless]
    omega

/-- A requeue: a row made ready starts anew, any other stays as it is. -/
theorem Budgeted.requeued (h : Budgeted w) {jobs : List JobRow} (hv : TableValid jobs) {row row' : JobRow}
    (hrow : row ∈ w.jobs) (hrow' : row' ∈ jobs)
    (hstep : RowStep config (w.now label) w.claims label.op row row') (hop : label.op.requeues.isSome) :
    RowBudget (w.claims.map Claim.job) (w.handed.filter fun handout =>
      !(hasStatus .failed handout.id w.jobs && hasStatus .ready handout.id jobs)) row' := by
  have hbudget := h.rows row hrow
  have hid := hstep.id
  have hfailed (id : String) (heq : id = row.id) :
      hasStatus .failed id w.jobs ↔ row.status = .failed := by
    rw [heq]
    exact hasStatus_iff h.valid hrow .failed
  have hready (id : String) (heq : id = row.id) : hasStatus .ready id jobs ↔ row'.status = .ready := by
    rw [heq, ← hid]
    exact hasStatus_iff hv hrow' .ready
  have huntouched (hnot : ¬(row.status = .failed ∧ row'.status = .ready)) :
      RowBudget (w.claims.map Claim.job) (w.handed.filter fun handout =>
        !(hasStatus .failed handout.id w.jobs && hasStatus .ready handout.id jobs)) row := by
    refine hbudget.untouched fun handout _ hof => ?_
    rw [Bool.not_eq_true', ← Bool.not_eq_true, Bool.and_eq_true, hfailed _ hof, hready _ hof]
    exact hnot
  obtain ⟨advanceMs, op⟩ := label
  dsimp only at hstep hop
  cases hstep with
  | same =>
      apply huntouched
      rintro ⟨hone, htwo⟩
      rw [hone] at htwo
      cases htwo
  | requeue _ predicate _ hpredicate hholds =>
      have hstatus : row.status = .failed := by
        cases op with
        | requeueFailed =>
            obtain rfl := Option.some.inj hpredicate
            exact beq_iff_eq.mp hholds
        | requeueTransientFailed =>
            obtain rfl := Option.some.inj hpredicate
            rw [Bool.and_eq_true] at hholds
            exact beq_iff_eq.mp hholds.1
        | _ => cases hpredicate
      refine hbudget.reset rfl rfl rfl ?_ hbudget.positive rfl nofun
      symm
      rw [timesHanded_filter]
      refine Int.natCast_eq_zero.mpr (List.countP_eq_zero.mpr fun handout _ hboth => ?_)
      rw [Bool.and_eq_true, beq_iff_eq, Bool.not_eq_true', ← Bool.not_eq_true, Bool.and_eq_true] at hboth
      exact hboth.2 ⟨(hfailed _ hboth.1).mpr hstatus, (hready _ hboth.1).mpr rfl⟩
  | cancel => exact (huntouched nofun).mono rfl rfl rfl rfl rfl nofun nofun
  | _ => cases hop

section Claim

variable {nowMs lockUntil : Int} {row : JobRow}

/-- The claimed row. -/
theorem Budgeted.claimedRow (h : Budgeted w) (hrow : row ∈ w.jobs) (hready : row.status = .ready) :
    RowBudget (w.claims.map Claim.job ++ [rowToJob (row.claim nowMs lockUntil)])
      (w.handed ++ [⟨w.claims.length, row.id⟩]) (row.claim nowMs lockUntil) := by
  have hbudget := h.rows row hrow
  have hless := hbudget.ready hready
  have hnonneg := hbudget.attempts_nonneg
  have hbounded := hbudget.bounded
  constructor
  case live => exact hbudget.live
  case positive => exact hbudget.positive
  case bounded => exact hbounded
  case counted =>
    change row.attempts + 1 = _
    rw [hbudget.counted, JobRow.claim_id, timesHanded_append_self]
    rfl
  case within =>
    change row.attempts + 1 ≤ row.maxAttempts
    omega
  case ready => exact nofun
  case running => exact fun _ => Option.some_ne_none nowMs
  case held =>
    intro _
    refine ⟨w.claims.length, rowToJob (row.claim nowMs lockUntil), ?_, ?_, ?_, ?_⟩
    · rw [← List.length_map (f := Claim.job), List.getElem?_concat_length]
    · refine matchesRow_iff.mpr ⟨rfl, ?_, rfl⟩
      symm
      apply countAsU32_of_lt
      · change 0 ≤ row.attempts + 1
        omega
      · change row.attempts + 1 < 2 ^ 32
        omega
    · exact List.mem_append_right _ (List.mem_singleton.mpr rfl)
    · intro j later hlater hlt
      have hj := (List.getElem?_eq_some_iff.mp hlater).1
      rw [List.length_append, List.length_map, List.length_singleton] at hj
      omega
  case budget =>
    intro job hjob hid
    rcases List.mem_append.mp hjob with hold | hnew
    · exact hbudget.budget job hold hid
    · rw [List.mem_singleton.mp hnew]
      exact countAsU32_of_lt hbudget.positive.le hbounded

/-- The other rows. -/
theorem RowBudget.besideClaim {claims : List Claim} {handed : List Handout} {other : JobRow}
    (h : RowBudget (claims.map Claim.job) handed other) (hne : other.id ≠ row.id) :
    RowBudget (claims.map Claim.job ++ [rowToJob (row.claim nowMs lockUntil)])
      (handed ++ [⟨claims.length, row.id⟩]) other := by
  refine h.congr (timesHanded_append_of_ne hne.symm) ?_ ?_
  · rintro ⟨i, job, hjob, hmatch, hhanded, hlatest⟩
    refine ⟨i, job, ?_, hmatch, List.mem_append_left _ hhanded, ?_⟩
    · rw [List.getElem?_append_left (List.getElem?_eq_some_iff.mp hjob).1]
      exact hjob
    · intro j later hlater hlt
      by_cases hj : j < (claims.map Claim.job).length
      · rw [List.getElem?_append_left hj] at hlater
        exact hlatest j later hlater hlt
      · have hlater' := List.mem_of_getElem? ((List.getElem?_append_right (not_lt.mp hj)).symm.trans hlater)
        rw [List.mem_singleton.mp hlater']
        exact hne.symm
  · intro job hjob hid
    rcases List.mem_append.mp hjob with hold | hnew
    · exact hold
    · rw [List.mem_singleton.mp hnew] at hid
      exact absurd hid.symm hne

theorem Budgeted.claim (h : Budgeted w) (hrow : row ∈ w.jobs) (hready : row.status = .ready)
    {w' : HandWorld} (hapart : ClaimsApart w'.toWorld)
    (hjobs : w'.jobs = update (·.id == row.id) (·.claim nowMs lockUntil) w.jobs)
    (hclaims : w'.claims = w.claims ++ [⟨rowToJob (row.claim nowMs lockUntil), false⟩])
    (hhanded : w'.handed = w.handed ++ [⟨w.claims.length, row.id⟩]) : Budgeted w' := by
  have hids : w'.jobs.map JobRow.id = w.jobs.map JobRow.id := by
    rw [hjobs]
    exact map_update (fun r => JobRow.claim_id nowMs lockUntil r) w.jobs
  have hlist : w'.claims.map Claim.job =
      w.claims.map Claim.job ++ [rowToJob (row.claim nowMs lockUntil)] := by
    rw [hclaims, List.map_append]
    rfl
  have hown : row.id ∈ w.jobs.map JobRow.id := List.mem_map_of_mem hrow
  constructor
  case apart => exact hapart
  case rows =>
    intro row' hrow'
    rw [hlist, hhanded]
    rw [hjobs] at hrow'
    rcases mem_update.mp hrow' with ⟨source, hsource, hp, rfl⟩ | ⟨hold, hp⟩
    · obtain rfl := eq_of_pk_eq h.valid.ids hsource hrow (beq_iff_eq.mp hp)
      exact h.claimedRow hrow hready
    · exact (h.rows row' hold).besideClaim fun heq => hp (beq_iff_eq.mpr heq)
  case owned =>
    intro handout hmem
    rw [hids]
    rw [hhanded] at hmem
    rcases List.mem_append.mp hmem with hold | hnew
    · exact h.owned handout hold
    · rw [List.mem_singleton.mp hnew]
      exact hown
  case known =>
    intro handout hmem
    rw [hlist]
    rw [hhanded] at hmem
    rcases List.mem_append.mp hmem with hold | hnew
    · obtain ⟨job, hjob, hid⟩ := h.known handout hold
      refine ⟨job, ?_, hid⟩
      rw [List.getElem?_append_left (List.getElem?_eq_some_iff.mp hjob).1]
      exact hjob
    · rw [List.mem_singleton.mp hnew]
      refine ⟨rowToJob (row.claim nowMs lockUntil), ?_, rfl⟩
      rw [← List.length_map (f := Claim.job), List.getElem?_concat_length]
  case once =>
    rw [hhanded, List.map_append, List.nodup_append]
    refine ⟨h.once, List.nodup_singleton _, ?_⟩
    intro i hi j hj heq
    obtain ⟨handout, hmem, rfl⟩ := List.mem_map.mp hi
    obtain ⟨job, hjob, -⟩ := h.known handout hmem
    have hlt := (List.getElem?_eq_some_iff.mp hjob).1
    rw [List.map_singleton, List.mem_singleton] at hj
    rw [List.length_map, heq, hj] at hlt
    exact absurd hlt (lt_irrefl _)
  case claimedIds =>
    intro claim hmem
    rw [hids]
    rw [hclaims] at hmem
    rcases List.mem_append.mp hmem with hold | hnew
    · exact h.claimedIds claim hold
    · rw [List.mem_singleton.mp hnew]
      exact hown

end Claim

theorem ids_subset_of_stepsRows {jobs jobs' : List JobRow} {nowMs : Int} {claims : List Claim} {op : Op}
    (h : StepsRows config nowMs jobs claims op jobs') : jobs.map JobRow.id ⊆ jobs'.map JobRow.id := by
  obtain ⟨f, new, rfl, hf, -⟩ := h
  intro id hid
  obtain ⟨row, hrow, rfl⟩ := List.mem_map.mp hid
  rw [← (hf row hrow).id]
  exact List.mem_map_of_mem (List.mem_append_left _ (List.mem_map_of_mem hrow))

/-- No retired row is in the table, so the purge finds nothing. -/
theorem Budgeted.purge (h : Budgeted w) : purgeRetiredJobs w.jobs = w.jobs := by
  refine List.filter_eq_self.mpr fun row hrow => ?_
  rw [(h.rows row hrow).live]
  rfl

/-- Any call that claims nothing, once the rows are seen to. -/
theorem Budgeted.advance (h : Budgeted w) (hkept : BudgetKept config w.toWorld label)
    {jobs : List JobRow} (hout : outcome config w.toWorld label = .ok (jobs, none))
    (hsub : (w.handedAfter jobs none label.op).Sublist w.handed)
    (hrows : ∀ row ∈ jobs, RowBudget (w.claims.map Claim.job) (w.handedAfter jobs none label.op) row) :
    Budgeted (advanceHanded config w label) := by
  have hapart := @claimsApart_advance config _ _ h.apart hkept.fresh
  have hheq : (advanceHanded config w label).handed = w.handedAfter jobs none label.op := by
    unfold advanceHanded
    rw [hout]
  have hadv : (advanceHanded config w label).toWorld =
      ⟨jobs, w.now label, recordClaims w.claims none label.op⟩ := advance_of_ok hout
  have hids : w.jobs.map JobRow.id ⊆ jobs.map JobRow.id := by
    rcases perform_stepsRows h.valid hout with hsteps | ⟨-, rfl⟩
    · exact ids_subset_of_stepsRows hsteps
    · rw [h.purge]
      exact List.Subset.refl _
  refine h.keep hapart ?_ ?_ ?_ ?_
  · rw [hadv]
    exact map_job_recordClaims_none w.claims label.op
  · rw [hheq]
    exact hsub
  · rw [hadv]
    exact hids
  · rw [hheq, hadv]
    exact hrows

/-- A call that leaves the handouts as they are. -/
theorem Budgeted.advancePlain (h : Budgeted w) (hkept : BudgetKept config w.toWorld label)
    {jobs : List JobRow} (hout : outcome config w.toWorld label = .ok (jobs, none))
    (hhanded : w.handedAfter jobs none label.op = w.handed)
    (hclaim : ∀ lockDurationMs, label.op ≠ .claimNext lockDurationMs)
    (hdefer : ∀ i untilMs reason, label.op ≠ .settle i (.deferred untilMs reason))
    (hrelease : label.op ≠ .releaseRunningLocks) (hrequeue : label.op.requeues = none) :
    Budgeted (advanceHanded config w label) := by
  refine h.advance hkept hout ?_ ?_
  · rw [hhanded]
  · rw [hhanded]
    intro row' hrow'
    rcases perform_rows h.valid hout row' hrow' with hnew | ⟨row, hrow, hstep⟩
    · exact h.inserted hkept hnew
    · exact h.plain hkept hrow hstep hclaim hdefer hrelease hrequeue

theorem Budgeted.advanceDeferred (h : Budgeted w) {advanceMs i : Nat} {untilMs : Int} {reason : String}
    (hkept : BudgetKept config w.toWorld ⟨advanceMs, .settle i (.deferred untilMs reason)⟩)
    {jobs : List JobRow} {claimed : Option Job}
    (hout : outcome config w.toWorld ⟨advanceMs, .settle i (.deferred untilMs reason)⟩ =
      .ok (jobs, claimed)) :
    Budgeted (advanceHanded config w ⟨advanceMs, .settle i (.deferred untilMs reason)⟩) := by
  have hperform := hout
  unfold outcome at hperform
  dsimp only [perform] at hperform
  cases hclaim : w.claims[i]? with
  | none =>
      rw [hclaim] at hperform
      obtain ⟨rfl, rfl⟩ := Prod.mk.inj (Except.ok.inj hperform)
      have hsame : w.handedAfter w.jobs none (.settle i (.deferred untilMs reason)) = w.handed := by
        unfold HandWorld.handedAfter
        dsimp only
        rw [hclaim]
        rfl
      refine h.advance hkept hout ?_ ?_
      · rw [hsame]
      · rw [hsame]
        exact h.rows
  | some claim =>
      rw [hclaim] at hperform
      obtain ⟨next, hnext, heq⟩ := Fallible.map_ok_iff.mp hperform
      obtain ⟨rfl, rfl⟩ := Prod.mk.inj heq
      obtain ⟨⟨next', n⟩, hdefer, rfl⟩ := Fallible.map_ok_iff.mp hnext
      obtain ⟨-, rfl, -⟩ := updateJobs_ok_iff.mp hdefer
      have hopen := hkept.once i _ rfl claim hclaim
      by_cases hany : w.jobs.any claim.job.matchesRow
      · have hafter (jobs : List JobRow) :
            w.handedAfter jobs none (.settle i (.deferred untilMs reason)) =
              w.handed.filter fun handout => handout.claim != i := by
          unfold HandWorld.handedAfter
          dsimp only
          rw [hclaim, Option.any_some, if_pos hany]
        refine h.advance hkept hout ?_ ?_
        · rw [hafter]
          exact List.filter_sublist
        · rw [hafter]
          intro row' hrow'
          rcases mem_update.mp hrow' with ⟨row, hrow, hmatch, rfl⟩ | ⟨hrow, hnot⟩
          · exact h.deferred hclaim hopen hrow hmatch
          · refine (h.rows row' hrow).untouched fun handout hmem hof => bne_iff_ne.mpr ?_
            rintro rfl
            obtain ⟨job, hjob, hid⟩ := h.known handout hmem
            rw [List.getElem?_map, hclaim] at hjob
            obtain rfl := Option.some.inj hjob
            obtain ⟨row, hrow', hmatch⟩ := List.any_eq_true.mp hany
            refine hnot ?_
            rw [eq_of_pk_eq h.valid.ids hrow hrow'
              (hof.symm.trans (hid.symm.trans (matchesRow_iff.mp hmatch).1.symm))]
            exact hmatch
      · have hafter (jobs : List JobRow) :
            w.handedAfter jobs none (.settle i (.deferred untilMs reason)) = w.handed := by
          unfold HandWorld.handedAfter
          dsimp only
          rw [hclaim, Option.any_some, if_neg hany]
        refine h.advance hkept hout ?_ ?_
        · rw [hafter]
        · rw [hafter]
          intro row' hrow'
          rcases mem_update.mp hrow' with ⟨row, hrow, hmatch, -⟩ | ⟨hrow, -⟩
          · exact absurd (List.any_eq_true.mpr ⟨row, hrow, hmatch⟩) hany
          · exact h.rows row' hrow

theorem Budgeted.step (h : Budgeted w) (hkept : BudgetKept config w.toWorld label) :
    Budgeted (advanceHanded config w label) := by
  cases hout : outcome config w.toWorld label with
  | error e =>
      have hadv : (advanceHanded config w label).toWorld =
          ⟨w.jobs, w.now label, recordClaims w.claims none label.op⟩ := advance_of_error hout
      have hheq : (advanceHanded config w label).handed = w.handed := by
        unfold advanceHanded
        rw [hout]
      refine h.keep (claimsApart_advance h.apart hkept.fresh) ?_ ?_ ?_ ?_
      · rw [hadv]
        exact map_job_recordClaims_none w.claims label.op
      · rw [hheq]
      · rw [hadv]
        exact List.Subset.refl _
      · rw [hheq, hadv]
        exact h.rows
  | ok next =>
      obtain ⟨jobs, claimed⟩ := next
      obtain ⟨advanceMs, op⟩ := label
      cases op with
      | enqueue id job =>
          obtain ⟨rfl, rfl⟩ := Prod.mk.inj (Except.ok.inj hout)
          exact h.advancePlain hkept hout rfl nofun nofun nofun rfl
      | claimNext lockDurationMs =>
          rcases claimNext_cases (w.clock + advanceMs) lockDurationMs h.valid with
            ⟨heq, -⟩ | ⟨row, lockUntil, -, hrow, hready, heq, -⟩
          · have hout' : outcome config w.toWorld ⟨advanceMs, .claimNext lockDurationMs⟩ =
                .ok (w.jobs, none) := heq
            have hsame : w.handedAfter w.jobs none (.claimNext lockDurationMs) = w.handed :=
              List.append_nil _
            refine h.advance hkept hout' ?_ ?_
            · rw [hsame]
            · rw [hsame]
              exact h.rows
          · have hout' : outcome config w.toWorld ⟨advanceMs, .claimNext lockDurationMs⟩ = _ := heq
            have hjobs := congrArg World.jobs (advance_of_ok hout')
            have hclaims := congrArg World.claims (advance_of_ok hout')
            refine h.claim hrow hready (claimsApart_advance h.apart hkept.fresh) hjobs hclaims ?_
            unfold advanceHanded
            rw [hout']
            rfl
      | settle i how =>
          have hnone : claimed = none := by
            rcases (perform_cases h.valid hout).2 with ⟨hnone, -⟩ | ⟨_, _, _, hop, -⟩
            · exact hnone
            · cases hop
          subst hnone
          cases how with
          | deferred untilMs reason => exact h.advanceDeferred hkept hout
          | done followUps => exact h.advancePlain hkept hout rfl nofun nofun nofun rfl
          | failed error failure => exact h.advancePlain hkept hout rfl nofun nofun nofun rfl
      | recoverStaleLocks =>
          obtain ⟨r, -, heq⟩ := Fallible.map_ok_iff.mp hout
          obtain ⟨rfl, rfl⟩ := Prod.mk.inj heq
          exact h.advancePlain hkept hout rfl nofun nofun nofun rfl
      | releaseRunningLocks =>
          obtain ⟨⟨next, n⟩, hrelease, heq⟩ := Fallible.map_ok_iff.mp hout
          obtain ⟨rfl, rfl⟩ := Prod.mk.inj heq
          refine h.advance hkept hout List.filter_sublist ?_
          obtain ⟨-, rfl, -⟩ := updateJobs_ok_iff.mp hrelease
          intro row' hrow'
          rcases mem_update.mp hrow' with ⟨row, hrow, hrunning, rfl⟩ | ⟨hrow, hnot⟩
          · exact h.released hrow (beq_iff_eq.mp hrunning)
          · refine (h.rows row' hrow).untouched fun handout _ hof => ?_
            rw [hof, Bool.not_eq_true', ← Bool.not_eq_true, Bool.and_eq_true,
              hasStatus_iff h.valid hrow .running]
            exact fun hboth => hnot (beq_iff_eq.mpr hboth.1)
      | requeueFailed =>
          obtain ⟨⟨next, n⟩, hrequeue, heq⟩ := Fallible.map_ok_iff.mp hout
          obtain ⟨rfl, rfl⟩ := Prod.mk.inj heq
          refine h.advance hkept hout List.filter_sublist fun row' hrow' => ?_
          rcases perform_rows h.valid hout row' hrow' with ⟨-, job, hjob, -⟩ | ⟨row, hrow, hstep⟩
          · exact absurd hjob List.not_mem_nil
          · exact h.requeued (h.valid.requeueFailedWhere hrequeue) hrow hrow' hstep rfl
      | requeueTransientFailed =>
          obtain ⟨⟨next, n⟩, hrequeue, heq⟩ := Fallible.map_ok_iff.mp hout
          obtain ⟨rfl, rfl⟩ := Prod.mk.inj heq
          refine h.advance hkept hout List.filter_sublist fun row' hrow' => ?_
          rcases perform_rows h.valid hout row' hrow' with ⟨-, job, hjob, -⟩ | ⟨row, hrow, hstep⟩
          · exact absurd hjob List.not_mem_nil
          · exact h.requeued (h.valid.requeueFailedWhere hrequeue) hrow hrow' hstep rfl
      | purgeRetiredJobs =>
          obtain ⟨rfl, rfl⟩ := Prod.mk.inj (Except.ok.inj hout)
          exact h.advancePlain hkept hout rfl nofun nofun nofun rfl

end Steps

theorem budgeted_empty : Budgeted ⟨World.empty, []⟩ where
  apart := claimsApart_empty
  rows := fun _ hrow => absurd hrow List.not_mem_nil
  owned := fun _ hmem => absurd hmem List.not_mem_nil
  known := fun _ hmem => absurd hmem List.not_mem_nil
  once := List.nodup_nil
  claimedIds := fun _ hmem => absurd hmem List.not_mem_nil

/-- In every run of allowed steps no job exceeds its attempt budget, nor is it handed out more often. -/
theorem withinBudget_run (config : QueueConfig) (labels : List Label)
    (hlabels : (handQueue config).AllSteps (fun w label => BudgetKept config w.toWorld label) labels) :
    (handQueue config).Throughout WithinBudget labels :=
  (handQueue config).throughout_of_steps budgeted_empty (fun _ _ h hkept => h.step hkept)
    (fun _ h => h.withinBudget) hlabels

/-- A job that stops its worker once and is claimed again. -/
def killsOneWorker : List Label :=
  [⟨1000, .enqueue "job-1" (.extractChunk ⟨"chunk-1"⟩)⟩, ⟨0, .claimNext 300000⟩,
    ⟨300001, .recoverStaleLocks⟩, ⟨0, .claimNext 300000⟩]

theorem withinBudget_killsOneWorker : (handQueue .default).Throughout WithinBudget killsOneWorker := by
  apply withinBudget_run
  rw [Machine.allSteps_iff_stepsFrom]
  refine ⟨?_, ?_, ?_, ?_, trivial⟩
  · refine ⟨by decide, fun _ _ hop => (nomatch hop), fun _ _ hop => (nomatch hop), ?_⟩
    exact fun hop => (nomatch hop)
  · refine ⟨fun _ hjob => absurd hjob List.not_mem_nil, fun _ _ hop => (nomatch hop), ?_, ?_⟩
    · exact fun _ _ _ _ _ hclaim => absurd hclaim List.not_mem_nil
    · exact fun hop => (nomatch hop)
  · refine ⟨fun _ hjob => absurd hjob List.not_mem_nil, fun _ _ hop => (nomatch hop), ?_, ?_⟩
    · exact fun _ _ hop => (nomatch hop)
    · exact fun _ => by decide
  · refine ⟨fun _ hjob => absurd hjob List.not_mem_nil, fun _ _ hop => (nomatch hop), ?_, ?_⟩
    · intro _ _ _ _ claim hclaim _ _ _ hstarted
      have hnone : ∀ claim ∈ ((queue .default).run (killsOneWorker.take 3)).claims,
          claim.job.startedAtMs ≠ some 301001 := by decide
      exact hnone claim hclaim hstarted
    · exact fun hop => (nomatch hop)

/-- A job that stops its worker each time, until its budget of one is spent and beyond. -/
def killsWorkers : List Label :=
  [⟨1000, .enqueue "job-1" ⟨.extractChunk, .extractChunk ⟨"chunk-1"⟩, some "extract:chunk-1", none, some 1⟩⟩,
    ⟨0, .claimNext 300000⟩, ⟨300001, .recoverStaleLocks⟩, ⟨0, .claimNext 300000⟩]

/-- The second claim takes the job over its budget. -/
theorem withinBudget_fails : ¬∀ config labels, (handQueue config).Throughout WithinBudget labels := by
  intro hall
  have hwithin := hall .default killsWorkers killsWorkers List.prefix_rfl
  have hrow : ∃ row ∈ ((handQueue .default).run killsWorkers).jobs, row.maxAttempts < row.attempts := by
    decide
  obtain ⟨row, hrow, hover⟩ := hrow
  exact absurd (hwithin row hrow).1 (not_le.mpr hover)

end TinyCortex.Queue
