import TinyCortex.Queue.World

/-! Claim tokens over whole runs. A settle is gated on the attempt number and the start millisecond
of the claim it is made for. Deferral and release give the attempt back, so the token of a superseded
claim stays away from the row exactly as long as no later claim repeats both numbers. -/

namespace TinyCortex.Queue

open Table

/-- The row of claim `i` was claimed again later. -/
def Superseded (claims : List Claim) (i : Nat) : Prop :=
  ∃ claim j later, claims[i]? = some claim ∧ claims[j]? = some later ∧ i < j ∧
    later.job.id = claim.job.id

/-- Whatever settle a superseded claim's worker still makes, whenever it makes it, changes no row and
inserts no job. -/
def LateSettlesInert (config : QueueConfig) (w : World) : Prop :=
  ∀ i claim, w.claims[i]? = some claim → claim.settled = false → Superseded w.claims i →
    ∀ nowMs how, w.clock ≤ nowMs → settle config nowMs claim.job w.jobs how = .ok w.jobs

/-- A claim that hands a row out under the attempt number of an unsettled earlier claim of that row
does so in another millisecond than that claim. -/
def FreshToken (w : World) (label : Label) : Prop :=
  ∀ lockDurationMs row, label.op = .claimNext lockDurationMs →
    nextDue (w.now label) w.jobs = some row →
    ∀ claim ∈ w.claims, claim.settled = false → claim.job.id = row.id →
      (claim.job.attempts : Int) = row.attempts + 1 → claim.job.startedAtMs ≠ some (w.now label)

/-- The invariant: no row carries the token of an unsettled superseded claim. -/
structure ClaimsApart (w : World) : Prop where
  valid : TableValid w.jobs
  started : ∀ claim ∈ w.claims, claim.job.startedAtMs ≠ none
  apart : ∀ i claim, w.claims[i]? = some claim → claim.settled = false → Superseded w.claims i →
    ∀ row ∈ w.jobs, ¬claim.job.matchesRow row

theorem claimsApart_empty : ClaimsApart World.empty where
  valid := tableValid_nil
  started := by simp [World.empty]
  apart := by simp [World.empty]

theorem ClaimsApart.lateSettlesInert {config : QueueConfig} {w : World} (h : ClaimsApart w) :
    LateSettlesInert config w := by
  intro i claim hi hopen hlate nowMs how _
  exact settle_of_stale h.valid (h.apart i claim hi hopen hlate) how

/-- A call that claims nothing keeps every snapshot, and opens no claim again. -/
theorem getElem?_recordClaims_none {claims : List Claim} {op : Op} {i : Nat} {claim : Claim}
    (h : (recordClaims claims none op)[i]? = some claim) :
    ∃ before, claims[i]? = some before ∧ claim.job = before.job ∧
      (claim.settled = false → before.settled = false) := by
  cases op with
  | settle k how =>
      rw [recordClaims, List.getElem?_modify] at h
      obtain ⟨before, hbefore, rfl⟩ := Option.map_eq_some_iff.mp h
      refine ⟨before, hbefore, ?_, ?_⟩
      · split_ifs <;> rfl
      · split_ifs
        · intro hsettled
          cases hsettled
        · exact id
  | _ =>
      refine ⟨claim, ?_, rfl, id⟩
      simpa [recordClaims] using h

theorem Superseded.of_recordClaims_none {claims : List Claim} {op : Op} {i : Nat}
    (h : Superseded (recordClaims claims none op) i) : Superseded claims i := by
  obtain ⟨claim, j, later, hclaim, hlater, hij, hid⟩ := h
  obtain ⟨before, hbefore, hjob, -⟩ := getElem?_recordClaims_none hclaim
  obtain ⟨before', hbefore', hjob', -⟩ := getElem?_recordClaims_none hlater
  exact ⟨before, j, before', hbefore, hbefore', hij, by rw [← hjob, ← hjob', hid]⟩

/-- A call that claims nothing and gives no row a new token keeps superseded claims apart. -/
theorem ClaimsApart.of_tokensFrom {w : World} (h : ClaimsApart w) {jobs : List JobRow} {clock : Int}
    {op : Op} (hv : TableValid jobs) (htokens : TokensFrom w.jobs jobs) :
    ClaimsApart ⟨jobs, clock, recordClaims w.claims none op⟩ where
  valid := hv
  started := by
    intro claim hclaim
    obtain ⟨i, hi⟩ := List.mem_iff_getElem?.mp hclaim
    obtain ⟨before, hbefore, hjob, -⟩ := getElem?_recordClaims_none hi
    rw [hjob]
    exact h.started before (List.mem_of_getElem? hbefore)
  apart := by
    intro i claim hi hopen hlate row hrow hmatch
    obtain ⟨before, hbefore, hjob, hsettled⟩ := getElem?_recordClaims_none hi
    rw [hjob] at hmatch
    obtain ⟨hid, hatt, hst⟩ := matchesRow_iff.mp hmatch
    rcases htokens row hrow with hnone | ⟨old, hold, hid', hatt', hst'⟩
    · exact h.started before (List.mem_of_getElem? hbefore) (hst.symm.trans hnone)
    · exact h.apart i before hbefore (hsettled hopen) hlate.of_recordClaims_none old hold
        (matchesRow_iff.mpr ⟨hid'.trans hid, hatt'.trans hatt, hst'.trans hst⟩)

/-- Claiming the next due row under a fresh token keeps superseded claims apart. -/
theorem ClaimsApart.of_claim {w : World} (h : ClaimsApart w) {row : JobRow} {nowMs lockUntil : Int}
    (hv : TableValid (update (·.id == row.id) (·.claim nowMs lockUntil) w.jobs))
    (hmem : row ∈ w.jobs)
    (hfresh : ∀ claim ∈ w.claims, claim.settled = false → claim.job.id = row.id →
      (claim.job.attempts : Int) = row.attempts + 1 → claim.job.startedAtMs ≠ some nowMs) :
    ClaimsApart ⟨update (·.id == row.id) (·.claim nowMs lockUntil) w.jobs, nowMs,
      w.claims ++ [⟨rowToJob (row.claim nowMs lockUntil), false⟩]⟩ where
  valid := hv
  started := by
    intro claim hclaim
    rcases List.mem_append.mp hclaim with hold | hnew
    · exact h.started claim hold
    · rw [List.mem_singleton] at hnew
      rw [hnew]
      exact Option.some_ne_none nowMs
  apart := by
    rintro i claim hi hopen ⟨claim', j, later, hclaim', hlater, hij, hid⟩ s hs hmatch
    obtain rfl : claim = claim' := Option.some.inj (hi.symm.trans hclaim')
    have hjlt := (List.getElem?_eq_some_iff.mp hlater).1
    rw [List.length_append, List.length_singleton] at hjlt
    rw [List.getElem?_append_left (by omega)] at hi
    obtain ⟨hsid, hsatt, hsst⟩ := matchesRow_iff.mp hmatch
    dsimp only at hs
    rcases mem_update.mp hs with ⟨r, hr, hp, rfl⟩ | ⟨hold, hp⟩
    · obtain rfl := eq_of_pk_eq h.valid.ids hr hmem (by simpa using hp)
      exact hfresh claim (List.mem_of_getElem? hi) hopen hsid.symm hsatt.symm hsst.symm
    · by_cases hj : j < w.claims.length
      · rw [List.getElem?_append_left hj] at hlater
        exact h.apart i claim hi hopen ⟨claim, j, later, hi, hlater, hij, hid⟩ s hold hmatch
      · obtain rfl : j = w.claims.length := by omega
        rw [List.getElem?_concat_length] at hlater
        rw [← Option.some.inj hlater] at hid
        exact hp (beq_iff_eq.mpr (hsid.trans hid.symm))

/-- One step under fresh tokens keeps superseded claims apart. -/
theorem claimsApart_advance {config : QueueConfig} {w : World} {label : Label} (h : ClaimsApart w)
    (hfresh : FreshToken w label) : ClaimsApart (advance config w label) := by
  cases hout : outcome config w label with
  | error e =>
      rw [advance_of_error hout]
      exact h.of_tokensFrom h.valid (TokensFrom.refl _)
  | ok next =>
      obtain ⟨jobs, claimed⟩ := next
      rw [advance_of_ok hout]
      obtain ⟨hv, ⟨rfl, htokens⟩ | ⟨lockMs, row, lockUntil, hop, hdue, hmem, rfl, rfl⟩⟩ :=
        perform_cases h.valid hout
      · exact h.of_tokensFrom hv htokens
      · rw [hop]
        exact h.of_claim hv hmem (hfresh lockMs row hop hdue)

theorem update_eq_self {ρ : Type*} {p : ρ → Bool} {f : ρ → ρ} {rows : List ρ}
    (h : update p f rows = rows) {r : ρ} (hr : r ∈ rows) (hp : p r) : f r = r := by
  have hmap : rows.map (fun r => if p r then f r else r) = rows.map id := by
    rw [List.map_id]
    exact h
  have hr' := List.map_inj_left.mp hmap r hr
  rwa [if_pos hp] at hr'

/-- A worker that ends a claim whose token a running row carries changes that row. -/
theorem settle_done_ne {config : QueueConfig} {nowMs : Int} {job : Job} {jobs : List JobRow}
    {row : JobRow} (hrow : row ∈ jobs) (hmatch : job.matchesRow row)
    (hrunning : row.status = .running) :
    settle config nowMs job jobs (.done []) ≠ .ok jobs := by
  intro h
  obtain ⟨⟨next, committed⟩, hdone, rfl⟩ := Fallible.map_ok_iff.mp h
  obtain ⟨⟨mid, n⟩, hmid, hrest⟩ := Fallible.bind_ok_iff.mp hdone
  obtain ⟨-, hupdate, -⟩ := updateJobs_ok_iff.mp hmid
  have hnext : mid = next := by
    dsimp only [enqueueAll, List.foldl_nil] at hrest
    split_ifs at hrest <;> exact (Prod.mk.inj (Except.ok.inj hrest)).1
  rw [hnext] at hupdate
  have hself := congrArg JobRow.status (update_eq_self hupdate hrow hmatch)
  rw [hrunning] at hself
  cases hself

/-- Handing a row out under the token of an unsettled earlier claim lets that claim's worker end the
new one. -/
theorem not_lateSettlesInert_advance {config : QueueConfig} {w : World} {label : Label}
    (hv : TableValid w.jobs) (hstale : ¬FreshToken w label) :
    ¬LateSettlesInert config (advance config w label) := by
  simp only [FreshToken] at hstale
  push Not at hstale
  obtain ⟨lockMs, row, hop, hdue, claim, hclaim, hopen, hid, hatt, hst⟩ := hstale
  obtain ⟨i, hi⟩ := List.mem_iff_getElem?.mp hclaim
  have hout : ∃ lockUntil, outcome config w label =
      .ok (update (·.id == row.id) (·.claim (w.now label) lockUntil) w.jobs,
        some (rowToJob (row.claim (w.now label) lockUntil))) := by
    rcases claimNext_cases _ _ hv with ⟨-, hnone⟩ | ⟨row', lockUntil, hdue', -, -, heq, -⟩
    · rw [hdue] at hnone
      cases hnone
    · obtain rfl := Option.some.inj (hdue.symm.trans hdue')
      refine ⟨lockUntil, ?_⟩
      rw [outcome, hop]
      exact heq
  obtain ⟨lockUntil, hout⟩ := hout
  rw [advance_of_ok hout, hop]
  have hlt := (List.getElem?_eq_some_iff.mp hi).1
  have hnew : (recordClaims w.claims (some (rowToJob (row.claim (w.now label) lockUntil)))
      (.claimNext lockMs))[i]? = some claim := (List.getElem?_append_left hlt).trans hi
  have hrow : row.claim (w.now label) lockUntil ∈
      update (·.id == row.id) (·.claim (w.now label) lockUntil) w.jobs :=
    mem_update.mpr (Or.inl ⟨row, (nextDue_mem hdue).1, beq_self_eq_true row.id, rfl⟩)
  intro hinert
  refine settle_done_ne hrow (matchesRow_iff.mpr ⟨hid.symm, hatt.symm, hst.symm⟩) rfl
    (hinert i claim hnew hopen ?_ (w.now label) (.done []) le_rfl)
  exact ⟨claim, w.claims.length, _, hnew, List.getElem?_concat_length, hlt, hid.symm⟩

/-- In every run, late settles are inert in every state passed exactly when every claim in the run
is made under a fresh token. -/
theorem lateSettlesInert_throughout_iff (config : QueueConfig) (labels : List Label) :
    (queue config).Throughout (LateSettlesInert config) labels ↔
      (queue config).AllSteps FreshToken labels :=
  (queue config).throughout_iff claimsApart_empty (fun _ _ h hfresh => claimsApart_advance h hfresh)
    (fun _ h => h.lateSettlesInert) (fun _ _ h hstale => not_lateSettlesInert_advance h.valid hstale)
    labels

/-- A graceful shutdown between two claims of one row within one millisecond. -/
def reclaimedInOneMillisecond : List Label :=
  [⟨1000, .enqueue "job-1" (.extractChunk ⟨"chunk-1"⟩)⟩, ⟨0, .claimNext 300000⟩,
    ⟨0, .releaseRunningLocks⟩, ⟨0, .claimNext 300000⟩]

/-- The first worker's settle then ends the second worker's claim. -/
theorem lateSettlesInert_throughout_fails :
    ¬∀ config labels, (queue config).Throughout (LateSettlesInert config) labels := by
  intro hall
  have hinert := hall .default reclaimedInOneMillisecond reclaimedInOneMillisecond List.prefix_rfl
  have hclaims : ∃ first second, ((queue .default).run reclaimedInOneMillisecond).claims =
      [⟨first, false⟩, ⟨second, false⟩] ∧ second.id = first.id ∧
      settle .default 1000 first ((queue .default).run reclaimedInOneMillisecond).jobs (.done []) ≠
        .ok ((queue .default).run reclaimedInOneMillisecond).jobs :=
    ⟨_, _, rfl, rfl, by decide⟩
  obtain ⟨first, second, hlist, hid, hchanged⟩ := hclaims
  refine hchanged (hinert 0 ⟨first, false⟩ (by rw [hlist]; rfl) rfl ?_ 1000 (.done []) (by decide))
  exact ⟨⟨first, false⟩, 1, ⟨second, false⟩, by rw [hlist]; rfl, by rw [hlist]; rfl, by decide, hid⟩

end TinyCortex.Queue
