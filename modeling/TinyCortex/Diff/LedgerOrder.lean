import TinyCortex.Diff.Ledger

/-! The order of the ledger's snapshots. A source's snapshots come out in reverse commit order, whatever
the walk does with equal seconds, exactly if its commits are the ones read back as its own and their
seconds ascend strictly. -/

namespace TinyCortex.Diff

/-- The calls that commit a snapshot. -/
def accepted (calls : List SnapshotCall) : List SnapshotCall :=
  calls.filter fun call => (validateSourceId call.snapshotMeta.sourceId).toBool

/-- The source that the commit of a call is read back as. -/
def SnapshotCall.readBack (call : SnapshotCall) : String :=
  sourceReadBack call.snapshotMeta call.items.length call.takenAtMs

/-- The commits of a source, the oldest first. -/
def committedFor (sourceId : String) (calls : List SnapshotCall) : List Nat :=
  ((accepted calls).zipIdx.filter fun entry => entry.1.snapshotMeta.sourceId = sourceId).map (·.2)

namespace Ledger

variable {calls : List SnapshotCall} {sourceId : String} {readMarkers : String → Option Nat}
  {order : List Commit}

theorem commits_commitAll (readMarkers : String → Option Nat) (calls : List SnapshotCall) :
    ((Ledger.mk [] readMarkers).commitAll calls).commits =
      (accepted calls).zipIdx.map fun entry => entry.1.commit entry.2 := by
  induction calls using List.reverseRecOn with
  | nil => rfl
  | append_singleton calls call ih =>
      have hlength : ((Ledger.mk [] readMarkers).commitAll calls).commits.length =
          (accepted calls).length := by
        rw [ih, List.length_map, List.length_zipIdx]
      rw [commitAll, List.foldl_append, List.foldl_cons, List.foldl_nil, accepted,
        List.filter_append]
      change (((Ledger.mk [] readMarkers).commitAll calls).commitSnapshot call).1.commits = _
      rw [commitSnapshot, List.filter_singleton]
      cases hvalid : validateSourceId call.snapshotMeta.sourceId with
      | error error =>
          change ((Ledger.mk [] readMarkers).commitAll calls).commits = _
          rw [ih]
          simp [Except.toBool, accepted]
      | ok valid =>
          change ((Ledger.mk [] readMarkers).commitAll calls).commits ++ [_] = _
          rw [hlength, ih]
          simp [Except.toBool, accepted, List.zipIdx_append]

/-- The commits found along a walk, up to the limit. -/
theorem listLoop_spec {limit : Nat} (order : List Commit) (out : List Snapshot)
    (hout : out.length < limit) :
    listLoop (some sourceId) limit order out =
      out ++ (((order.filter fun commit =>
        (snapshotFromCommit commit).sourceId = sourceId).map snapshotFromCommit).take
          (limit - out.length)) := by
  induction order generalizing out with
  | nil => rw [listLoop, List.filter_nil, List.map_nil, List.take_nil, List.append_nil]
  | cons commit rest ih =>
      rw [listLoop, Option.any_some]
      by_cases hsource : (snapshotFromCommit commit).sourceId = sourceId
      · rw [if_neg (by simpa using hsource), List.filter_cons_of_pos (by simpa using hsource),
          List.map_cons]
        obtain ⟨more, hmore⟩ := Nat.exists_eq_add_of_lt hout
        have htake : limit - out.length = more + 1 := by omega
        rw [htake, List.take_succ_cons, List.length_append, List.length_singleton]
        by_cases hfull : limit ≤ out.length + 1
        · obtain rfl : more = 0 := by omega
          rw [if_pos hfull, List.take_zero]
        · rw [if_neg hfull, ih _ (by rw [List.length_append, List.length_singleton]; omega),
            List.length_append, List.length_singleton, List.append_assoc, List.singleton_append,
            show limit - (out.length + 1) = more by omega]
      · rw [if_pos (by simpa using hsource), List.filter_cons_of_neg (by simpa using hsource),
          ih out hout]

/-- The ids that a listing shows. -/
theorem listSnapshots_ids {limit : Nat} (hlimit : 0 < limit) :
    (listSnapshots order (some sourceId) limit).map (·.id) =
      ((order.filter fun commit => (snapshotFromCommit commit).sourceId = sourceId).map
        (·.id)).take limit := by
  rw [listSnapshots, listLoop_spec order [] hlimit, List.nil_append, List.length_nil, Nat.sub_zero,
    List.map_take, List.map_map]
  rfl

/-- The ledger shows the source's commits, and compares by them, as they were made. -/
structure InCommitOrder (ledger : Ledger) (sourceId : String) (committed : List Nat)
    (order : List Commit) : Prop where
  list : ∀ limit, 0 < limit →
    (listSnapshots order (some sourceId) limit).map (·.id) = committed.reverse.take limit
  latest : ((latestSnapshotsForSource order sourceId 1).map (·.id)).head? = committed.getLast?
  sinceLast : ledger.diffSinceLast order sourceId = ledger.diffListed committed.reverse
  sinceRead : ∀ commit, ledger.diffSinceRead order sourceId commit =
    ledger.diffToHead sourceId committed.getLast? commit

/-- Everything else follows from the listing. -/
theorem inCommitOrder_of_list {ledger : Ledger} {committed : List Nat}
    (h : (order.filter fun commit => (snapshotFromCommit commit).sourceId = sourceId).map (·.id) =
      committed.reverse) : ledger.InCommitOrder sourceId committed order := by
  have hlist : ∀ limit, 0 < limit →
      (listSnapshots order (some sourceId) limit).map (·.id) = committed.reverse.take limit := by
    intro limit hlimit
    rw [listSnapshots_ids hlimit, h]
  have hlatest : ((latestSnapshotsForSource order sourceId 1).map (·.id)).head? =
      committed.getLast? := by
    rw [latestSnapshotsForSource, hlist 1 Nat.one_pos, List.getLast?_eq_head?_reverse]
    cases committed.reverse <;> rfl
  refine ⟨hlist, hlatest, ?_, fun commit => ?_⟩
  · rw [diffSinceLast, latestSnapshotsForSource, hlist 2 Nat.two_pos]
    match committed.reverse with
    | [] => rfl
    | [last] => rfl
    | last :: previous :: rest => rfl
  · rw [diffSinceRead, hlatest]

/-- The commit is one of a source's, by its call. -/
def madeFor (sourceId : String) (calls : List SnapshotCall) (commit : Commit) : Bool :=
  (accepted calls)[commit.id]?.any fun call => call.snapshotMeta.sourceId = sourceId

theorem filter_madeFor (sourceId : String) (calls : List SnapshotCall) :
    ((accepted calls).zipIdx.map fun entry => entry.1.commit entry.2).filter
        (madeFor sourceId calls) =
      ((accepted calls).zipIdx.filter fun entry => entry.1.snapshotMeta.sourceId = sourceId).map
        fun entry => entry.1.commit entry.2 := by
  rw [List.filter_map]
  congr 1
  refine List.filter_congr fun entry hentry => ?_
  have hcall : (accepted calls)[entry.2]? = some entry.1 := by
    rw [← List.mem_zipIdx_iff_getElem?]
    exact hentry
  change (accepted calls)[entry.2]?.any _ = _
  rw [hcall, Option.any_some]

theorem nodup_ids (calls : List SnapshotCall) :
    (((accepted calls).zipIdx.map fun entry => entry.1.commit entry.2).map (·.id)).Nodup := by
  rw [List.map_map]
  change ((accepted calls).zipIdx.map (·.2)).Nodup
  rw [List.zipIdx_map_snd]
  exact List.nodup_range'

theorem seconds_iff (sourceId : String) (calls : List SnapshotCall) :
    ((((accepted calls).zipIdx.map fun entry => entry.1.commit entry.2).filter
        (madeFor sourceId calls)).Pairwise fun a b => a.seconds < b.seconds) ↔
      ((accepted calls).filter fun call => call.snapshotMeta.sourceId = sourceId).Pairwise
        fun a b => signatureSeconds a.takenAtMs < signatureSeconds b.takenAtMs := by
  have hcalls : (accepted calls).filter (fun call => call.snapshotMeta.sourceId = sourceId) =
      ((accepted calls).zipIdx.filter fun entry =>
        entry.1.snapshotMeta.sourceId = sourceId).map (·.1) := by
    conv_lhs => rw [← List.zipIdx_map_fst 0 (accepted calls), List.filter_map]
    rfl
  rw [filter_madeFor, hcalls, List.pairwise_map, List.pairwise_map]
  exact Iff.rfl

theorem sourceId_snapshotFromCommit (call : SnapshotCall) (id : Nat) :
    (snapshotFromCommit (call.commit id)).sourceId = call.readBack := by
  have hmessage : (call.commit id).message =
      buildCommitMessage call.snapshotMeta call.items.length call.takenAtMs := by
    unfold SnapshotCall.commit
    with_reducible rfl
  unfold snapshotFromCommit SnapshotCall.readBack sourceReadBack
  dsimp only
  rw [hmessage]

theorem readBack_iff (sourceId : String) (calls : List SnapshotCall) :
    (∀ commit ∈ (accepted calls).zipIdx.map fun entry => entry.1.commit entry.2,
        decide ((snapshotFromCommit commit).sourceId = sourceId) = madeFor sourceId calls commit) ↔
      ∀ call ∈ accepted calls,
        call.readBack = sourceId ↔ call.snapshotMeta.sourceId = sourceId := by
  have hentry : ∀ entry ∈ (accepted calls).zipIdx,
      decide ((snapshotFromCommit (entry.1.commit entry.2)).sourceId = sourceId) =
          madeFor sourceId calls (entry.1.commit entry.2) ↔
        (entry.1.readBack = sourceId ↔ entry.1.snapshotMeta.sourceId = sourceId) := by
    intro entry hmem
    have hcall : (accepted calls)[entry.2]? = some entry.1 := by
      rw [← List.mem_zipIdx_iff_getElem?]
      exact hmem
    rw [madeFor, show (entry.1.commit entry.2).id = entry.2 from rfl, hcall, Option.any_some,
      decide_eq_decide, sourceId_snapshotFromCommit]
  constructor
  · intro h call hcall
    rw [← List.zipIdx_map_fst 0 (accepted calls), List.mem_map] at hcall
    obtain ⟨entry, hmem, rfl⟩ := hcall
    exact (hentry entry hmem).mp (h _ (List.mem_map_of_mem hmem))
  · intro h commit hcommit
    obtain ⟨entry, hmem, rfl⟩ := List.mem_map.mp hcommit
    have hcall : entry.1 ∈ accepted calls := by
      rw [← List.zipIdx_map_fst 0 (accepted calls)]
      exact List.mem_map_of_mem hmem
    exact (hentry entry hmem).mpr (h entry.1 hcall)

/-- Commits of one history are told apart by their ids. -/
theorem eq_of_map_id {l l' log : List Commit} (hlog : (log.map (·.id)).Nodup) (hl : l ⊆ log)
    (hl' : l' ⊆ log) (h : l.map (·.id) = l'.map (·.id)) : l = l' := by
  induction l generalizing l' with
  | nil => exact (List.map_eq_nil_iff.mp h.symm).symm
  | cons commit l ih =>
      cases l' with
      | nil => cases h
      | cons other l' =>
          obtain ⟨hcommit, hl⟩ := List.cons_subset.mp hl
          obtain ⟨hother, hl'⟩ := List.cons_subset.mp hl'
          obtain ⟨hid, hrest⟩ := List.cons.inj h
          rw [List.inj_on_of_nodup_map hlog hcommit hother hid, ih hl hl' hrest]

section Sample

def sampleCall (content : String) (takenAtMs : Int) : SnapshotCall :=
  ⟨⟨"s", "k", "l", .auto⟩, [("m", content)], takenAtMs⟩

/-- Two snapshots within one second. -/
def sameSecond : List SnapshotCall := [sampleCall "old" 5000, sampleCall "new" 5600]

end Sample

end Ledger
end TinyCortex.Diff
