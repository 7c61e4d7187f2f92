import TinyCortex.Lib.Machine
import TinyCortex.Queue.StoreSettle

/-! The queue as a machine: any number of workers and maintenance calls interleave over one
`mem_tree_jobs` table. A label says by how many milliseconds the clock moves on and which store call
runs next; a settle names the claim it is made for by its position in the list of all claims. -/

namespace TinyCortex.Queue

open Table

/-- A snapshot that `claim_next` returned and whether its worker has made its settle call. -/
structure Claim where
  job : Job
  settled : Bool
  deriving DecidableEq, Repr

/-- The job table, the clock, and every claim made so far, oldest first. -/
structure World where
  jobs : List JobRow
  clock : Int
  claims : List Claim
  deriving DecidableEq, Repr

def World.empty : World := ⟨[], 0, []⟩

/-- One store call. -/
inductive Op
  | enqueue (id : String) (job : NewJob)
  | claimNext (lockDurationMs : Int)
  | settle (claim : Nat) (how : Settle)
  | recoverStaleLocks
  | releaseRunningLocks
  | requeueFailed
  | requeueTransientFailed
  | purgeRetiredJobs
  deriving DecidableEq, Repr

structure Label where
  advanceMs : Nat
  op : Op
  deriving DecidableEq, Repr

def World.now (w : World) (label : Label) : Int := w.clock + label.advanceMs

/-- A store call on the table: the table it leaves and the snapshot it hands to a worker, or the error
it aborts with. -/
def perform (config : QueueConfig) (nowMs : Int) (jobs : List JobRow) (claims : List Claim) :
    Op → Except QueueError (List JobRow × Option Job)
  | .enqueue id job => .ok ((enqueueConn id nowMs job config.maxAttempts jobs).1, none)
  | .claimNext lockDurationMs => claimNext nowMs lockDurationMs jobs
  | .settle i how =>
      match claims[i]? with
      | none => .ok (jobs, none)
      | some claim => (settle config nowMs claim.job jobs how).map (·, none)
  | .recoverStaleLocks => (recoverStaleLocks nowMs jobs).map fun r => (r.1, none)
  | .releaseRunningLocks => (releaseRunningLocks jobs).map fun r => (r.1, none)
  | .requeueFailed => (requeueFailed nowMs jobs).map fun r => (r.1, none)
  | .requeueTransientFailed => (requeueTransientFailed nowMs jobs).map fun r => (r.1, none)
  | .purgeRetiredJobs => .ok (purgeRetiredJobs jobs, none)

/-- The claim a settle call is made for, now settled. -/
def Claim.settle (claim : Claim) : Claim := { claim with settled := true }

/-- The claims after a call: a settle uses its claim up, a claimed snapshot joins the list. -/
def recordClaims (claims : List Claim) (claimed : Option Job) : Op → List Claim
  | .settle i _ => claims.modify i Claim.settle
  | _ => claims ++ (claimed.map (⟨·, false⟩)).toList

/-- What the label's store call returns in a world. -/
def outcome (config : QueueConfig) (w : World) (label : Label) :
    Except QueueError (List JobRow × Option Job) :=
  perform config (w.now label) w.jobs w.claims label.op

/-- The label's store call runs; a call that aborts leaves the table as it was. -/
def advance (config : QueueConfig) (w : World) (label : Label) : World :=
  match outcome config w label with
  | .ok (jobs, claimed) => ⟨jobs, w.now label, recordClaims w.claims claimed label.op⟩
  | .error _ => ⟨w.jobs, w.now label, recordClaims w.claims none label.op⟩

/-- The queue under arbitrary calls: a claim may be settled any number of times. -/
def queue (config : QueueConfig) : Machine World Label := ⟨World.empty, advance config⟩

theorem advance_of_ok {config : QueueConfig} {w : World} {label : Label} {jobs : List JobRow}
    {claimed : Option Job} (h : outcome config w label = .ok (jobs, claimed)) :
    advance config w label = ⟨jobs, w.now label, recordClaims w.claims claimed label.op⟩ := by
  rw [advance, h]

theorem advance_of_error {config : QueueConfig} {w : World} {label : Label} {e : QueueError}
    (h : outcome config w label = .error e) :
    advance config w label = ⟨w.jobs, w.now label, recordClaims w.claims none label.op⟩ := by
  rw [advance, h]

/-- Every store call that returns either claims the next due row, or keeps every claim token. -/
theorem perform_cases {config : QueueConfig} {nowMs : Int} {jobs jobs' : List JobRow}
    {claims : List Claim} {claimed : Option Job} {op : Op} (hv : TableValid jobs)
    (h : perform config nowMs jobs claims op = .ok (jobs', claimed)) :
    TableValid jobs' ∧ ((claimed = none ∧ TokensFrom jobs jobs') ∨
      ∃ lockDurationMs row lockUntil, op = .claimNext lockDurationMs ∧
        nextDue nowMs jobs = some row ∧ row ∈ jobs ∧
        jobs' = update (·.id == row.id) (·.claim nowMs lockUntil) jobs ∧
        claimed = some (rowToJob (row.claim nowMs lockUntil))) := by
  cases op with
  | enqueue id job =>
      obtain ⟨rfl, rfl⟩ := Prod.mk.inj (Except.ok.inj h)
      exact ⟨hv.enqueueConn, Or.inl ⟨rfl, tokensFrom_enqueueConn _ _ _ _ _⟩⟩
  | claimNext lockDurationMs =>
      rcases claimNext_cases _ _ hv with ⟨heq, -⟩ | ⟨row, lockUntil, hdue, hmem, -, heq, hvalid⟩
      · obtain ⟨rfl, rfl⟩ := Prod.mk.inj (Except.ok.inj (heq.symm.trans h))
        exact ⟨hv, Or.inl ⟨rfl, TokensFrom.refl _⟩⟩
      · obtain ⟨rfl, rfl⟩ := Prod.mk.inj (Except.ok.inj (heq.symm.trans h))
        exact ⟨hvalid, Or.inr ⟨lockDurationMs, row, lockUntil, rfl, hdue, hmem, rfl, rfl⟩⟩
  | settle i how =>
      dsimp only [perform] at h
      split at h
      · obtain ⟨rfl, rfl⟩ := Prod.mk.inj (Except.ok.inj h)
        exact ⟨hv, Or.inl ⟨rfl, TokensFrom.refl _⟩⟩
      · obtain ⟨next, hnext, heq⟩ := Fallible.map_ok_iff.mp h
        obtain ⟨rfl, rfl⟩ := Prod.mk.inj heq
        exact ⟨hv.settle hnext, Or.inl ⟨rfl, tokensFrom_settle hnext⟩⟩
  | recoverStaleLocks =>
      obtain ⟨⟨next, n⟩, hnext, heq⟩ := Fallible.map_ok_iff.mp h
      obtain ⟨rfl, rfl⟩ := Prod.mk.inj heq
      exact ⟨hv.of_updateJobs hnext fun _ => rfl,
        Or.inl ⟨rfl, tokensFrom_updateJobs hnext fun _ => ⟨rfl, Or.inr ⟨rfl, rfl⟩⟩⟩⟩
  | releaseRunningLocks =>
      obtain ⟨⟨next, n⟩, hnext, heq⟩ := Fallible.map_ok_iff.mp h
      obtain ⟨rfl, rfl⟩ := Prod.mk.inj heq
      exact ⟨hv.of_updateJobs hnext fun _ => rfl,
        Or.inl ⟨rfl, tokensFrom_updateJobs hnext fun _ => ⟨rfl, Or.inl rfl⟩⟩⟩
  | requeueFailed =>
      obtain ⟨⟨next, n⟩, hnext, heq⟩ := Fallible.map_ok_iff.mp h
      obtain ⟨rfl, rfl⟩ := Prod.mk.inj heq
      exact ⟨hv.requeueFailedWhere hnext, Or.inl ⟨rfl, tokensFrom_requeueFailedWhere hnext⟩⟩
  | requeueTransientFailed =>
      obtain ⟨⟨next, n⟩, hnext, heq⟩ := Fallible.map_ok_iff.mp h
      obtain ⟨rfl, rfl⟩ := Prod.mk.inj heq
      exact ⟨hv.requeueFailedWhere hnext, Or.inl ⟨rfl, tokensFrom_requeueFailedWhere hnext⟩⟩
  | purgeRetiredJobs =>
      obtain ⟨rfl, rfl⟩ := Prod.mk.inj (Except.ok.inj h)
      have hvalid : TableValid (purgeRetiredJobs jobs) :=
        ⟨hv.ids.sublist (List.filter_sublist.map _), hv.active.sublist (List.filter_sublist.filterMap _)⟩
      exact ⟨hvalid, Or.inl ⟨rfl, fun row hrow =>
        Or.inr ⟨row, List.mem_of_mem_filter hrow, rfl, rfl, rfl⟩⟩⟩

theorem advance_valid {config : QueueConfig} {w : World} {label : Label} (hv : TableValid w.jobs) :
    TableValid (advance config w label).jobs := by
  cases h : outcome config w label with
  | error e =>
      rw [advance_of_error h]
      exact hv
  | ok next =>
      rw [advance_of_ok h]
      exact (perform_cases hv h).1

/-- In every reachable state ids are distinct and no dedupe key is active twice. -/
theorem tableValid_run (config : QueueConfig) (labels : List Label) :
    TableValid ((queue config).run labels).jobs :=
  have hstep : ∀ w label, TableValid w.jobs → TableValid ((queue config).step w label).jobs :=
    fun _ _ hv => advance_valid hv
  (queue config).invariant tableValid_nil hstep labels

end TinyCortex.Queue
