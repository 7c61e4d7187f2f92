import TinyCortex.Queue.World

/-! Every job carries the dedupe key of its own payload. The constructors of `queue/types.rs` see to it,
no store call rewrites a payload or a key, and keys of different kinds start differently, so the active
row that suppresses an extract job is itself an extract job for the same chunk. -/

namespace TinyCortex.Queue

open Table

/-- A kind and a dedupe key that the payload's constructor may have set. -/
def JobPayload.Keyed : JobPayload → JobKind → Option String → Prop
  | .extractChunk p, kind, key => kind = .extractChunk ∧ key = some p.dedupeKey
  | .appendBuffer p, kind, key => kind = .appendBuffer ∧ key = some p.dedupeKey
  | .seal p, kind, key => kind = .seal ∧ key = some p.dedupeKey
  | .flushStale p, kind, key =>
      kind = .flushStale ∧ ∃ dateIso hourBlock, key = some (p.dedupeKey dateIso hourBlock)
  | .reembedBackfill p, kind, key => kind = .reembedBackfill ∧ key = some p.dedupeKey
  | .sealDocument p, kind, key => kind = .sealDocument ∧ key = some p.dedupeKey

/-- Built by one of the constructors, with any retry budget and availability. -/
def NewJob.Keyed (job : NewJob) : Prop := job.payload.Keyed job.kind job.dedupeKey

def JobRow.Keyed (row : JobRow) : Prop :=
  ∃ kind, row.kind = .live kind ∧ row.payload.Keyed kind row.dedupeKey

def WellKeyed (jobs : List JobRow) : Prop := ∀ row ∈ jobs, row.Keyed

/-- The new jobs of a store call. -/
def Op.newJobs : Op → List NewJob
  | .enqueue _ job => [job]
  | .settle _ (.done followUps) => followUps.map Prod.snd
  | _ => []

/-! ### The key of an extract job -/

theorem ExtractChunkPayload.dedupeKey_inj {p q : ExtractChunkPayload}
    (h : p.dedupeKey = q.dedupeKey) : p = q := by
  have hchars := congrArg String.toList h
  simp only [ExtractChunkPayload.dedupeKey, String.toList_append] at hchars
  exact congrArg ExtractChunkPayload.mk (String.toList_inj.mp (List.append_cancel_left hchars))

/-- A key that starts with another character is no extract key. -/
theorem ExtractChunkPayload.dedupeKey_ne {p : ExtractChunkPayload} {c : Char} (tag rest : String)
    (htag : tag.toList.head? = some c) (hc : c ≠ 'e') : p.dedupeKey ≠ tag ++ rest := by
  intro h
  have hchars := congrArg (·.toList.head?) h
  simp only [ExtractChunkPayload.dedupeKey, String.toList_append, List.head?_append, htag,
    Option.some_or] at hchars
  exact hc (Option.some.inj hchars).symm

/-- Only extract jobs are keyed like extract jobs. -/
theorem JobPayload.Keyed.extract_of_key {payload : JobPayload} {kind : JobKind}
    {p : ExtractChunkPayload} (h : payload.Keyed kind (some p.dedupeKey)) :
    payload = .extractChunk p := by
  match payload, h with
  | .extractChunk q, h => rw [ExtractChunkPayload.dedupeKey_inj (Option.some.inj h.2)]
  | .appendBuffer q, h =>
      have hkey := Option.some.inj h.2
      unfold AppendBufferPayload.dedupeKey at hkey
      split at hkey
      · rw [String.append_assoc, String.append_assoc] at hkey
        exact absurd hkey (ExtractChunkPayload.dedupeKey_ne (c := 'a') _ _ (by decide) (by decide))
      · rw [String.append_assoc, String.append_assoc] at hkey
        exact absurd hkey (ExtractChunkPayload.dedupeKey_ne (c := 'a') _ _ (by decide) (by decide))
  | .seal q, h =>
      have hkey := Option.some.inj h.2
      rw [SealPayload.dedupeKey, String.append_assoc, String.append_assoc] at hkey
      exact absurd hkey (ExtractChunkPayload.dedupeKey_ne (c := 's') _ _ (by decide) (by decide))
  | .flushStale q, ⟨_, dateIso, hourBlock, h⟩ =>
      have hkey := Option.some.inj h
      rw [FlushStalePayload.dedupeKey, String.append_assoc, String.append_assoc] at hkey
      exact absurd hkey (ExtractChunkPayload.dedupeKey_ne (c := 'f') _ _ (by decide) (by decide))
  | .reembedBackfill q, h =>
      exact absurd (Option.some.inj h.2)
        (ExtractChunkPayload.dedupeKey_ne (c := 'r') _ _ (by decide) (by decide))
  | .sealDocument q, h =>
      have hkey := Option.some.inj h.2
      unfold SealDocumentPayload.dedupeKey at hkey
      split at hkey
      · rw [String.append_assoc, String.append_assoc] at hkey
        exact absurd hkey (ExtractChunkPayload.dedupeKey_ne (c := 's') _ _ (by decide) (by decide))
      · exact absurd hkey (ExtractChunkPayload.dedupeKey_ne (c := 's') _ _ (by decide) (by decide))

/-! ### Keys across a statement -/

/-- A row function that leaves the job of a row alone. -/
def KeepsJob (f : JobRow → JobRow) : Prop :=
  ∀ row, (f row).kind = row.kind ∧ (f row).payload = row.payload ∧
    (f row).dedupeKey = row.dedupeKey

theorem wellKeyed_update {p : JobRow → Bool} {f : JobRow → JobRow} {jobs : List JobRow}
    (h : WellKeyed jobs) (hf : KeepsJob f) : WellKeyed (update p f jobs) := by
  intro row' hrow'
  rcases mem_update.mp hrow' with ⟨row, hrow, -, rfl⟩ | ⟨hrow, -⟩
  · obtain ⟨hkind, hpayload, hkey⟩ := hf row
    rw [JobRow.Keyed, hkind, hpayload, hkey]
    exact h row hrow
  · exact h row' hrow

theorem wellKeyed_updateJobs {p : JobRow → Bool} {f : JobRow → JobRow} {jobs next : List JobRow}
    {n : Nat} (h : WellKeyed jobs) (hok : updateJobs p f jobs = .ok (next, n)) (hf : KeepsJob f) :
    WellKeyed next := by
  obtain ⟨-, rfl, -⟩ := updateJobs_ok_iff.mp hok
  exact wellKeyed_update h hf

theorem wellKeyed_enqueueConn {id : String} {nowMs : Int} {job : NewJob} {maxAttempts : Nat}
    {jobs : List JobRow} (h : WellKeyed jobs) (hjob : job.Keyed) :
    WellKeyed (enqueueConn id nowMs job maxAttempts jobs).1 := by
  intro row hrow
  rcases mem_enqueueConn hrow with hmem | ⟨rfl, -⟩
  · exact h row hmem
  · exact ⟨job.kind, rfl, hjob⟩

theorem wellKeyed_enqueueAll {nowMs : Int} {maxAttempts : Nat} {followUps : List (String × NewJob)}
    {jobs : List JobRow} (h : WellKeyed jobs) (hjobs : ∀ job ∈ followUps.map Prod.snd, job.Keyed) :
    WellKeyed (enqueueAll nowMs maxAttempts jobs followUps) := by
  induction followUps generalizing jobs with
  | nil => exact h
  | cons f followUps ih =>
      rw [List.map_cons, List.forall_mem_cons] at hjobs
      exact ih (wellKeyed_enqueueConn h hjobs.1) hjobs.2

theorem wellKeyed_updateEach {f : JobRow → JobRow} {ids : List String} {jobs next : List JobRow}
    {n : Nat} (h : WellKeyed jobs) (hok : updateEach f ids jobs = .ok (next, n)) (hf : KeepsJob f) :
    WellKeyed next := by
  induction ids generalizing jobs next n with
  | nil =>
      obtain ⟨rfl, -⟩ := Prod.mk.inj (Except.ok.inj hok)
      exact h
  | cons id ids ih =>
      rw [updateEach] at hok
      obtain ⟨⟨mid, k⟩, hmid, hok⟩ := Fallible.bind_ok_iff.mp hok
      obtain ⟨⟨last, m⟩, hlast, hok⟩ := Fallible.bind_ok_iff.mp hok
      obtain ⟨rfl, -⟩ := Prod.mk.inj (Except.ok.inj hok)
      exact ih (wellKeyed_updateJobs h hmid hf) hlast

theorem wellKeyed_settle {config : QueueConfig} {nowMs : Int} {job : Job} {how : Settle}
    {jobs next : List JobRow} (h : WellKeyed jobs)
    (hjobs : ∀ followUps, how = .done followUps → ∀ job ∈ followUps.map Prod.snd, job.Keyed)
    (hok : settle config nowMs job jobs how = .ok next) : WellKeyed next := by
  cases how with
  | done followUps =>
      obtain ⟨⟨next', committed⟩, hdone, rfl⟩ := Fallible.map_ok_iff.mp hok
      obtain ⟨⟨mid, n⟩, hmid, hrest⟩ := Fallible.bind_ok_iff.mp hdone
      have hkeyed : WellKeyed mid := wellKeyed_updateJobs h hmid fun _ => ⟨rfl, rfl, rfl⟩
      dsimp only at hrest
      split_ifs at hrest
      · obtain ⟨rfl, -⟩ := Prod.mk.inj (Except.ok.inj hrest)
        exact wellKeyed_enqueueAll hkeyed (hjobs followUps rfl)
      · obtain ⟨rfl, -⟩ := Prod.mk.inj (Except.ok.inj hrest)
        exact hkeyed
  | failed error failure =>
      obtain ⟨⟨next', n⟩, hfail, rfl⟩ := Fallible.map_ok_iff.mp hok
      unfold markFailedTyped at hfail
      split_ifs at hfail
      · exact wellKeyed_updateJobs h hfail fun _ => ⟨rfl, rfl, rfl⟩
      · exact wellKeyed_updateJobs h hfail fun _ => ⟨rfl, rfl, rfl⟩
  | deferred untilMs reason =>
      obtain ⟨⟨next', n⟩, hdefer, rfl⟩ := Fallible.map_ok_iff.mp hok
      exact wellKeyed_updateJobs h hdefer fun _ => ⟨rfl, rfl, rfl⟩

theorem wellKeyed_requeueFailedWhere {predicate : JobRow → Bool} {nowMs : Int}
    {jobs next : List JobRow} {n : Nat} (h : WellKeyed jobs)
    (hok : requeueFailedWhere predicate nowMs jobs = .ok (next, n)) : WellKeyed next := by
  obtain ⟨⟨mid, k⟩, hcancel, hrequeue⟩ := Fallible.bind_ok_iff.mp hok
  exact wellKeyed_updateEach (wellKeyed_updateEach h hcancel fun _ => ⟨rfl, rfl, rfl⟩) hrequeue
    fun _ => ⟨rfl, rfl, rfl⟩

/-- Every store call whose new jobs are keyed leaves a keyed table. -/
theorem wellKeyed_perform {config : QueueConfig} {nowMs : Int} {jobs jobs' : List JobRow}
    {claims : List Claim} {claimed : Option Job} {op : Op} (h : WellKeyed jobs)
    (hjobs : ∀ job ∈ op.newJobs, job.Keyed)
    (hok : perform config nowMs jobs claims op = .ok (jobs', claimed)) : WellKeyed jobs' := by
  cases op with
  | enqueue id job =>
      obtain ⟨rfl, -⟩ := Prod.mk.inj (Except.ok.inj hok)
      exact wellKeyed_enqueueConn h (hjobs job List.mem_cons_self)
  | claimNext lockDurationMs =>
      rw [perform, claimNext] at hok
      split at hok
      · obtain ⟨rfl, -⟩ := Prod.mk.inj (Except.ok.inj hok)
        exact h
      · obtain ⟨⟨next, n⟩, hnext, hok⟩ := Fallible.bind_ok_iff.mp hok
        obtain ⟨rfl, -⟩ := Prod.mk.inj (Except.ok.inj hok)
        exact wellKeyed_updateJobs h hnext fun _ => ⟨rfl, rfl, rfl⟩
  | settle i how =>
      dsimp only [perform] at hok
      split at hok
      · obtain ⟨rfl, -⟩ := Prod.mk.inj (Except.ok.inj hok)
        exact h
      · obtain ⟨next, hnext, heq⟩ := Fallible.map_ok_iff.mp hok
        obtain ⟨rfl, -⟩ := Prod.mk.inj heq
        refine wellKeyed_settle h ?_ hnext
        rintro followUps rfl
        exact hjobs
  | recoverStaleLocks =>
      obtain ⟨⟨next, n⟩, hnext, heq⟩ := Fallible.map_ok_iff.mp hok
      obtain ⟨rfl, -⟩ := Prod.mk.inj heq
      exact wellKeyed_updateJobs h hnext fun _ => ⟨rfl, rfl, rfl⟩
  | releaseRunningLocks =>
      obtain ⟨⟨next, n⟩, hnext, heq⟩ := Fallible.map_ok_iff.mp hok
      obtain ⟨rfl, -⟩ := Prod.mk.inj heq
      exact wellKeyed_updateJobs h hnext fun _ => ⟨rfl, rfl, rfl⟩
  | requeueFailed =>
      obtain ⟨⟨next, n⟩, hnext, heq⟩ := Fallible.map_ok_iff.mp hok
      obtain ⟨rfl, -⟩ := Prod.mk.inj heq
      exact wellKeyed_requeueFailedWhere h hnext
  | requeueTransientFailed =>
      obtain ⟨⟨next, n⟩, hnext, heq⟩ := Fallible.map_ok_iff.mp hok
      obtain ⟨rfl, -⟩ := Prod.mk.inj heq
      exact wellKeyed_requeueFailedWhere h hnext
  | purgeRetiredJobs =>
      obtain ⟨rfl, -⟩ := Prod.mk.inj (Except.ok.inj hok)
      exact fun row hrow => h row (List.mem_of_mem_filter hrow)

theorem wellKeyed_advance {config : QueueConfig} {w : World} {label : Label}
    (h : WellKeyed w.jobs) (hjobs : ∀ job ∈ label.op.newJobs, job.Keyed) :
    WellKeyed (advance config w label).jobs := by
  cases hout : outcome config w label with
  | error e =>
      rw [advance_of_error hout]
      exact h
  | ok next =>
      rw [advance_of_ok hout]
      exact wellKeyed_perform h hjobs hout

/-! ### Active extract jobs -/

/-- The ready and running extract jobs of a chunk. -/
def activeExtracts (chunkId : String) (jobs : List JobRow) : List JobRow :=
  jobs.filter fun row => row.status.isActive && row.payload == .extractChunk ⟨chunkId⟩

theorem activeExtracts_le_one {chunkId : String} {jobs : List JobRow} (hv : TableValid jobs)
    (hkeyed : WellKeyed jobs) : (activeExtracts chunkId jobs).length ≤ 1 := by
  let key := ExtractChunkPayload.dedupeKey ⟨chunkId⟩
  have hkey : ∀ row ∈ activeExtracts chunkId jobs, row.activeKey = some key := by
    intro row hrow
    obtain ⟨hmem, hsel⟩ := List.mem_filter.mp hrow
    obtain ⟨hactive, hpayload⟩ := Bool.and_eq_true_iff.mp hsel
    obtain ⟨kind, -, hkey⟩ := hkeyed row hmem
    rw [beq_iff_eq.mp hpayload] at hkey
    rw [JobRow.activeKey_of_active hactive, hkey.2]
  have hsub : (keys JobRow.activeKey (activeExtracts chunkId jobs)).Sublist (activeKeys jobs) :=
    List.filter_sublist.filterMap _
  have hkeys : keys JobRow.activeKey (activeExtracts chunkId jobs) =
      List.replicate (activeExtracts chunkId jobs).length key := by
    rw [keys, List.filterMap_congr hkey, List.filterMap_eq_map', List.map_const']
  have hnodup := hv.active.sublist hsub
  rw [hkeys] at hnodup
  exact List.nodup_replicate.mp hnodup

/-- An active row under the extract key of a chunk is an extract job of the chunk. -/
theorem activeExtracts_ne_nil {chunkId : String} {jobs : List JobRow} (hkeyed : WellKeyed jobs)
    (h : ExtractChunkPayload.dedupeKey ⟨chunkId⟩ ∈ activeKeys jobs) :
    activeExtracts chunkId jobs ≠ [] := by
  obtain ⟨row, hrow, hkey⟩ := mem_keys.mp h
  unfold JobRow.activeKey at hkey
  split_ifs at hkey with hactive
  obtain ⟨kind, -, hpayload⟩ := hkeyed row hrow
  rw [hkey] at hpayload
  refine List.ne_nil_of_mem (List.mem_filter.mpr ⟨hrow, ?_⟩)
  rw [hactive, hpayload.extract_of_key, Bool.true_and, beq_self_eq_true]

end TinyCortex.Queue
