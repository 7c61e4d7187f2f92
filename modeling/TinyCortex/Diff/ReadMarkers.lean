import TinyCortex.Diff.ItemTrees
import TinyCortex.Diff.LedgerOrder
import TinyCortex.Lib.Interleaving
import TinyCortex.Lib.Machine

/-! Read markers under interleaving (`diff/diff.rs`, `diff/ledger.rs`). A `diff_since_read` reads the head,
reads the marker, computes the diff and writes the marker in steps of its own; commits, `set_read_marker`
and the steps of `mark_read` fall anywhere between them. -/

namespace TinyCortex.Diff

open Interleaving

/-! ### What a diff says -/

/-- A changed item. The hash of a blob is represented by its content. -/
structure ItemChange where
  itemId : String
  kind : ChangeKind
  oldContent : Option String
  newContent : Option String
  deriving DecidableEq

/-- The items of a source in the tree of a snapshot: those of its last commit up to there. -/
def sourceItems (calls : List SnapshotCall) (sourceId : String) (id : Nat) : OrderedMap String String :=
  match (calls.take (id + 1)).reverse.find? fun call => call.snapshotMeta.sourceId = sourceId with
  | none => []
  | some call => call.items.foldl (fun items item => OrderedMap.insert items item.1 item.2) []

def itemChange (itemId : String) (old new : Option String) : Option ItemChange :=
  match old, new with
  | none, none => none
  | none, some content => some ⟨itemId, .added, none, some content⟩
  | some content, none => some ⟨itemId, .removed, some content, none⟩
  | some content, some content' =>
      if content = content' then none else some ⟨itemId, .modified, some content, some content'⟩

/-- `compute_changes`, in the order of the item ids. -/
def computeChanges (calls : List SnapshotCall) (fromId : Option Nat) (toId : Nat) (sourceId : String) :
    List ItemChange :=
  let old := (fromId.map (sourceItems calls sourceId)).getD []
  let new := sourceItems calls sourceId toId
  ((old.foldl (fun items item => OrderedMap.insert items item.1 item.2) new).map (·.1)).filterMap
    fun itemId => itemChange itemId (OrderedMap.get old itemId) (OrderedMap.get new itemId)

def DiffResult.changes (calls : List SnapshotCall) (diff : DiffResult) : List ItemChange :=
  computeChanges calls diff.fromSnapshotId diff.toSnapshotId diff.sourceId

/-! ### Calls in progress -/

inductive ReadPhase
  | start
  | headRead (head : Nat)
  | baseRead (head : Nat) (base : Option Nat)
  | computed (diff : DiffResult)
  deriving DecidableEq

/-- A call in progress. A `diff_since_read` remembers how much was committed and returned when it began; a
`mark_read` has the sources that are left, and the head of the first of them once it is read. -/
inductive MarkerThread
  | diffSinceRead (sourceId : String) (commit : Bool) (committed returned : Nat) (phase : ReadPhase)
  | markRead (sourceIds : List String) (head : Option Nat)
  deriving DecidableEq

/-- A marker move: up to a head, from the base of the diff that was shown, or from the old marker. -/
structure Ack where
  sourceId : String
  base : Option Nat
  head : Nat
  deriving DecidableEq

/-- What a `diff_since_read` returned. -/
structure Returned where
  diff : DiffResult
  commit : Bool
  committed : Nat
  returned : Nat
  deriving DecidableEq

/-- The ledger, the calls that it accepted, the marker moves, and the diffs returned so far. -/
structure MarkerState where
  ledger : Ledger
  calls : List SnapshotCall
  acks : List Ack
  returned : List Returned

structure MarkerWorld where
  shared : MarkerState
  threads : List MarkerThread

inductive MarkerLabel
  | commitSnapshot (call : SnapshotCall)
  | setReadMarker (sourceId : String) (id : Nat)
  | diffSinceRead (sourceId : String) (commit : Bool)
  | markRead (sourceIds : List String)
  | step (thread : Nat) (order : List Commit)

namespace MarkerState

variable (s : MarkerState)

def commitSnapshot (call : SnapshotCall) : MarkerState :=
  match s.ledger.commitSnapshot call with
  | (ledger, .ok _) => { s with ledger := ledger, calls := s.calls ++ [call] }
  | (ledger, .error _) => { s with ledger := ledger }

/-- A call of `set_read_marker` that acknowledges what comes after the base. -/
def setReadMarker (sourceId : String) (base : Option Nat) (id : Nat) : MarkerState × Except String Unit :=
  match s.ledger.setReadMarker sourceId id with
  | (ledger, .ok ()) => ({ s with ledger := ledger, acks := s.acks ++ [⟨sourceId, base, id⟩] }, .ok ())
  | (ledger, .error error) => ({ s with ledger := ledger }, .error error)

def latestHead (order : List Commit) (sourceId : String) : Option Nat :=
  ((Ledger.latestSnapshotsForSource order sourceId 1).map (·.id)).head?

/-- The next step of a `diff_since_read`. -/
def readStep (order : List Commit) (sourceId : String) (commit : Bool) (committed returned : Nat) :
    ReadPhase → MarkerState × Option MarkerThread
  | .start =>
      match latestHead order sourceId with
      | none => (s, none)
      | some head => (s, some (.diffSinceRead sourceId commit committed returned (.headRead head)))
  | .headRead head =>
      (s, some (.diffSinceRead sourceId commit committed returned
        (.baseRead head (s.ledger.readBase sourceId))))
  | .baseRead head base =>
      match s.ledger.computeDiff base head with
      | .error _ => (s, none)
      | .ok diff =>
          if commit then (s, some (.diffSinceRead sourceId commit committed returned (.computed diff)))
          else ({ s with returned := s.returned ++ [⟨diff, false, committed, returned⟩] }, none)
  | .computed diff =>
      match s.setReadMarker sourceId diff.fromSnapshotId diff.toSnapshotId with
      | (moved, .ok ()) =>
          ({ moved with returned := moved.returned ++ [⟨diff, true, committed, returned⟩] }, none)
      | (moved, .error _) => (moved, none)

/-- The next step of a `mark_read`. -/
def markStep (order : List Commit) : List String → Option Nat → MarkerState × Option MarkerThread
  | [], _ => (s, none)
  | sourceId :: rest, none =>
      match latestHead order sourceId with
      | none => (s, some (.markRead rest none))
      | some head => (s, some (.markRead (sourceId :: rest) (some head)))
  | sourceId :: rest, some head =>
      match s.setReadMarker sourceId (s.ledger.getReadMarker sourceId) head with
      | (moved, .ok ()) => (moved, some (.markRead rest none))
      | (moved, .error _) => (moved, none)

def threadStep (order : List Commit) : MarkerThread → MarkerState × Option MarkerThread
  | .diffSinceRead sourceId commit committed returned phase =>
      s.readStep order sourceId commit committed returned phase
  | .markRead sourceIds head => s.markStep order sourceIds head

end MarkerState

def advanceMarkers (w : MarkerWorld) : MarkerLabel → MarkerWorld
  | .commitSnapshot call => { w with shared := w.shared.commitSnapshot call }
  | .setReadMarker sourceId id =>
      { w with shared :=
          (w.shared.setReadMarker sourceId (w.shared.ledger.getReadMarker sourceId) id).1 }
  | .diffSinceRead sourceId commit =>
      { w with threads := w.threads ++
          [.diffSinceRead sourceId commit w.shared.calls.length w.shared.returned.length .start] }
  | .markRead sourceIds => { w with threads := w.threads ++ [.markRead sourceIds none] }
  | .step i order =>
      match w.threads[i]? with
      | none => w
      | some thread =>
          let after := w.shared.threadStep order thread
          ⟨after.1, replace i after.2 w.threads⟩

def markerLedger : Machine MarkerWorld MarkerLabel := ⟨⟨⟨.empty, [], [], []⟩, []⟩, advanceMarkers⟩

/-! ### What is claimed -/

/-- The snapshot was committed for the source. -/
def SnapshotOf (calls : List SnapshotCall) (sourceId : String) (id : Nat) : Prop :=
  ∃ call, calls[id]? = some call ∧ call.snapshotMeta.sourceId = sourceId

/-- The snapshot comes after the base, if there is one. -/
def After (base : Option Nat) (id : Nat) : Prop := ∀ b, base = some b → b < id

/-- The snapshot is among those that the move passes over. -/
def Ack.Covers (ack : Ack) (sourceId : String) (id : Nat) : Prop :=
  ack.sourceId = sourceId ∧ After ack.base id ∧ id ≤ ack.head

/-- The snapshot is among those that the diff compares over. -/
def DiffResult.Covers (diff : DiffResult) (id : Nat) : Prop :=
  After diff.fromSnapshotId id ∧ id ≤ diff.toSnapshotId

/-- The second call began after the first one had returned and moved the marker. -/
def Follows (returned : List Returned) (i j : Nat) (first second : Returned) : Prop :=
  returned[i]? = some first ∧ returned[j]? = some second ∧ first.commit = true ∧
    first.diff.sourceId = second.diff.sourceId ∧ i < second.returned

/-- A marker names a snapshot of its source. A later diff compares over nothing that an earlier one did,
and repeats none of its changes unless the marker was moved on between; what was committed when it began is
shown by it, or some move passed over it. -/
structure MarkersSound (s : MarkerState) : Prop where
  own : ∀ sourceId id, s.ledger.getReadMarker sourceId = some id → SnapshotOf s.calls sourceId id
  apart : ∀ i j first second, Follows s.returned i j first second →
    ∃ base, second.diff.fromSnapshotId = some base ∧ first.diff.toSnapshotId ≤ base ∧
      (base = first.diff.toSnapshotId →
        ∀ change ∈ first.diff.changes s.calls, change ∉ second.diff.changes s.calls)
  skipless : ∀ i j first second, Follows s.returned i j first second →
    ∀ id < second.committed, SnapshotOf s.calls second.diff.sourceId id → first.diff.toSnapshotId < id →
      second.diff.Covers id ∨ ∃ ack ∈ s.acks, ack.Covers second.diff.sourceId id

/-- No marker moves back. -/
def MarkersForward (s s' : MarkerState) : Prop :=
  ∀ sourceId id, s.ledger.getReadMarker sourceId = some id →
    ∃ id', s'.ledger.getReadMarker sourceId = some id' ∧ id ≤ id'

def MarkersKept (w : MarkerWorld) (label : MarkerLabel) : Prop :=
  MarkersForward w.shared (advanceMarkers w label).shared ∧ MarkersSound (advanceMarkers w label).shared

/-- The walks are those that the repository may deliver. -/
def Delivered (w : MarkerWorld) (label : MarkerLabel) : Prop :=
  ∀ i order, label = .step i order → w.shared.ledger.Walk order

/-- A snapshot is read back as one of its source, and its second is later than those of all snapshots of
the source before it. -/
def InOrder (w : MarkerWorld) (label : MarkerLabel) : Prop :=
  ∀ call, label = .commitSnapshot call → validateSourceId call.snapshotMeta.sourceId = .ok () →
    call.readBack = call.snapshotMeta.sourceId ∧
      ∀ earlier ∈ w.shared.calls, earlier.snapshotMeta.sourceId = call.snapshotMeta.sourceId →
        signatureSeconds earlier.takenAtMs < signatureSeconds call.takenAtMs

/-! ### References of different sources -/

/-- Sources have references of their own. -/
theorem readMarkerRef_inj {sourceId other : String} (h : readMarkerRef sourceId = readMarkerRef other) :
    sourceId = other := by
  unfold readMarkerRef at h
  rw [String.append_right_inj] at h
  exact encodeItemId_inj h

/-! ### The ledger under a marker move -/

namespace Ledger

variable {ledger moved : Ledger} {sourceId : String} {id : Nat} {result : Except String Unit}

/-- All that can come of `set_read_marker`. -/
theorem setReadMarker_cases (h : ledger.setReadMarker sourceId id = (moved, result)) :
    (moved = ledger ∧ (result = .ok () → ledger.getReadMarker sourceId = some id)) ∨
      (∃ snapshot, ledger.getSnapshot id = some snapshot ∧ snapshot.sourceId = sourceId) ∧
        (∀ current, ledger.getReadMarker sourceId = some current → current < id) ∧ result = .ok () ∧
          moved = { ledger with
            readMarkers := Function.update ledger.readMarkers (readMarkerRef sourceId) (some id) } := by
  unfold setReadMarker at h
  split at h
  · obtain ⟨rfl, rfl⟩ := Prod.mk.inj h
    exact Or.inl ⟨rfl, fun hok => nomatch hok⟩
  · rename_i snapshot hsnapshot
    split_ifs at h with hsource
    · obtain ⟨rfl, rfl⟩ := Prod.mk.inj h
      exact Or.inl ⟨rfl, fun hok => nomatch hok⟩
    · rw [not_not] at hsource
      dsimp only at h
      split at h
      · rename_i hmarker
        obtain ⟨rfl, rfl⟩ := Prod.mk.inj h
        refine Or.inr ⟨⟨snapshot, hsnapshot, hsource⟩, fun current hcurrent => ?_, rfl, rfl⟩
        rw [hmarker] at hcurrent
        cases hcurrent
      · rename_i current hmarker
        split_ifs at h with hsame hforward
        · obtain ⟨rfl, rfl⟩ := Prod.mk.inj h
          refine Or.inl ⟨rfl, fun _ => ?_⟩
          rw [hmarker, hsame]
        · obtain ⟨rfl, rfl⟩ := Prod.mk.inj h
          refine Or.inr ⟨⟨snapshot, hsnapshot, hsource⟩, fun other hother => ?_, rfl, rfl⟩
          obtain rfl := Option.some.inj (hmarker.symm.trans hother)
          exact hforward
        · obtain ⟨rfl, rfl⟩ := Prod.mk.inj h
          exact Or.inl ⟨rfl, fun hok => nomatch hok⟩

theorem getReadMarker_update (ledger : Ledger) (sourceId other : String) (id : Nat) :
    ({ ledger with
        readMarkers := Function.update ledger.readMarkers (readMarkerRef sourceId) (some id) } :
          Ledger).getReadMarker other =
      if other = sourceId then some id else ledger.getReadMarker other := by
  unfold getReadMarker
  dsimp only
  rw [Function.update_apply]
  by_cases h : other = sourceId
  · rw [if_pos h, h, if_pos rfl]
  · rw [if_neg h, if_neg fun heq => h (readMarkerRef_inj heq)]

end Ledger

/-! ### The invariant -/

/-- A shared state that can come after another one. -/
structure Grows (s s' : MarkerState) : Prop where
  calls : s.calls <+: s'.calls
  returned : s.returned <+: s'.returned
  acks : s.acks <+: s'.acks
  forward : MarkersForward s s'

/-- The head and the base that a `diff_since_read` read: nothing of the source that was committed when it
began comes after the head, and the base is at the marker or before it, but not before the head of a diff
that was returned, and moved the marker, when it began. -/
structure ReadFits (s : MarkerState) (sourceId : String) (committed returned head : Nat) : Prop where
  begunAt : committed ≤ s.calls.length
  begunAfter : returned ≤ s.returned.length
  own : SnapshotOf s.calls sourceId head
  latest : ∀ id < committed, SnapshotOf s.calls sourceId id → id ≤ head

structure BaseFits (s : MarkerState) (sourceId : String) (returned : Nat) (base : Option Nat) : Prop where
  marked : ∀ b, base = some b → ∃ marker, s.ledger.getReadMarker sourceId = some marker ∧ b ≤ marker
  past : ∀ i < returned, ∀ first, s.returned[i]? = some first → first.commit = true →
    first.diff.sourceId = sourceId → ∃ b, base = some b ∧ first.diff.toSnapshotId ≤ b

def MarkerThread.Sound (s : MarkerState) : MarkerThread → Prop
  | .diffSinceRead sourceId _ committed returned phase =>
      match phase with
      | .start => committed ≤ s.calls.length ∧ returned ≤ s.returned.length
      | .headRead head => ReadFits s sourceId committed returned head
      | .baseRead head base => ReadFits s sourceId committed returned head ∧ BaseFits s sourceId returned base
      | .computed diff => diff.sourceId = sourceId ∧
          ReadFits s sourceId committed returned diff.toSnapshotId ∧
            BaseFits s sourceId returned diff.fromSnapshotId
  | .markRead _ _ => True

/-- Up to the marker of a source every snapshot was shown or acknowledged. -/
structure MarkerState.Sound (s : MarkerState) : Prop where
  commits : s.ledger.commits = s.calls.zipIdx.map fun entry => entry.1.commit entry.2
  readBack : ∀ call ∈ s.calls, call.readBack = call.snapshotMeta.sourceId
  ascending : s.calls.Pairwise fun a b => a.snapshotMeta.sourceId = b.snapshotMeta.sourceId →
    signatureSeconds a.takenAtMs < signatureSeconds b.takenAtMs
  own : ∀ sourceId id, s.ledger.getReadMarker sourceId = some id → SnapshotOf s.calls sourceId id
  covered : ∀ sourceId marker, s.ledger.getReadMarker sourceId = some marker →
    ∀ id ≤ marker, SnapshotOf s.calls sourceId id → ∃ ack ∈ s.acks, ack.Covers sourceId id
  marked : ∀ r ∈ s.returned, r.commit = true →
    ∃ marker, s.ledger.getReadMarker r.diff.sourceId = some marker ∧ r.diff.toSnapshotId ≤ marker
  results : ∀ r ∈ s.returned, ReadFits s r.diff.sourceId r.committed r.returned r.diff.toSnapshotId ∧
    BaseFits s r.diff.sourceId r.returned r.diff.fromSnapshotId

section Growth

variable {s s' s'' : MarkerState} {sourceId : String} {committed returned head id : Nat}
  {base : Option Nat}

theorem Grows.refl (s : MarkerState) : Grows s s :=
  ⟨List.prefix_rfl, List.prefix_rfl, List.prefix_rfl, fun _ id h => ⟨id, h, le_rfl⟩⟩

theorem Grows.trans (h : Grows s s') (h' : Grows s' s'') : Grows s s'' where
  calls := h.calls.trans h'.calls
  returned := h.returned.trans h'.returned
  acks := h.acks.trans h'.acks
  forward := by
    intro sourceId id hid
    obtain ⟨id', hid', hle⟩ := h.forward sourceId id hid
    obtain ⟨id'', hid'', hle'⟩ := h'.forward sourceId id' hid'
    exact ⟨id'', hid'', hle.trans hle'⟩

theorem getElem?_same_of_lt {α : Type*} {xs ys : List α} {i : Nat} (h : xs <+: ys) (hi : i < xs.length) :
    ys[i]? = xs[i]? := by
  obtain ⟨rest, rfl⟩ := h
  exact List.getElem?_append_left hi

theorem SnapshotOf.lt {calls : List SnapshotCall} (h : SnapshotOf calls sourceId id) : id < calls.length := by
  obtain ⟨call, hcall, -⟩ := h
  exact (List.getElem?_eq_some_iff.mp hcall).1

theorem SnapshotOf.grows (h : Grows s s') (hsnapshot : SnapshotOf s.calls sourceId id) :
    SnapshotOf s'.calls sourceId id := by
  have hlt := hsnapshot.lt
  rwa [SnapshotOf, getElem?_same_of_lt h.calls hlt]

theorem SnapshotOf.of_grows (h : Grows s s') (hid : id < s.calls.length)
    (hsnapshot : SnapshotOf s'.calls sourceId id) : SnapshotOf s.calls sourceId id := by
  rwa [SnapshotOf, getElem?_same_of_lt h.calls hid] at hsnapshot

theorem ReadFits.grows (h : Grows s s') (hread : ReadFits s sourceId committed returned head) :
    ReadFits s' sourceId committed returned head where
  begunAt := hread.begunAt.trans h.calls.length_le
  begunAfter := hread.begunAfter.trans h.returned.length_le
  own := hread.own.grows h
  latest := fun id hid hsnapshot =>
    hread.latest id hid (hsnapshot.of_grows h (hid.trans_le hread.begunAt))

theorem BaseFits.grows (h : Grows s s') (hreturned : returned ≤ s.returned.length)
    (hbase : BaseFits s sourceId returned base) : BaseFits s' sourceId returned base where
  marked := by
    intro b hb
    obtain ⟨marker, hmarker, hle⟩ := hbase.marked b hb
    obtain ⟨marker', hmarker', hle'⟩ := h.forward sourceId marker hmarker
    exact ⟨marker', hmarker', hle.trans hle'⟩
  past := by
    intro i hi first hfirst
    rw [getElem?_same_of_lt h.returned (hi.trans_le hreturned)] at hfirst
    exact hbase.past i hi first hfirst

/-- What a call relies on survives the steps of the others. -/
theorem stable_sound : Stable Grows fun s thread => MarkerThread.Sound s thread := by
  intro s s' thread h hsound
  cases thread with
  | markRead sourceIds head => exact trivial
  | diffSinceRead sourceId commit committed returned phase =>
      cases phase with
      | start => exact ⟨hsound.1.trans h.calls.length_le, hsound.2.trans h.returned.length_le⟩
      | headRead head => exact ReadFits.grows h hsound
      | baseRead head base => exact ⟨hsound.1.grows h, hsound.2.grows h hsound.1.begunAfter⟩
      | computed diff => exact ⟨hsound.1, hsound.2.1.grows h, hsound.2.2.grows h hsound.2.1.begunAfter⟩

end Growth

section Sound

variable {s : MarkerState} {sourceId : String} {committed returned id : Nat} {base : Option Nat}

theorem find?_zipIdx (calls : List SnapshotCall) (id : Nat) :
    (calls.zipIdx.map fun entry => entry.1.commit entry.2).find? (fun commit => commit.id = id) =
      calls[id]?.map fun call => call.commit id := by
  induction calls using List.reverseRecOn with
  | nil => rfl
  | append_singleton calls call ih =>
      have hid : (call.commit calls.length).id = calls.length := rfl
      rw [List.zipIdx_append, List.map_append, List.find?_append, ih, Nat.zero_add]
      rcases lt_trichotomy id calls.length with hlt | rfl | hgt
      · rw [List.getElem?_append_left hlt, List.getElem?_eq_getElem hlt]
        rfl
      · rw [List.getElem?_eq_none le_rfl, List.getElem?_concat_length]
        simp [hid]
      · rw [List.getElem?_eq_none hgt.le, List.getElem?_eq_none (by simp; omega)]
        simp [hid, hgt.ne]

theorem MarkerState.Sound.getSnapshot (h : s.Sound) (id : Nat) :
    s.ledger.getSnapshot id = s.calls[id]?.map fun call => snapshotFromCommit (call.commit id) := by
  rw [Ledger.getSnapshot, h.commits, find?_zipIdx, Option.map_map]
  rfl

/-- A snapshot is one of a source exactly when it is read back so. -/
theorem MarkerState.Sound.snapshotOf_iff (h : s.Sound) :
    SnapshotOf s.calls sourceId id ↔
      ∃ snapshot, s.ledger.getSnapshot id = some snapshot ∧ snapshot.sourceId = sourceId := by
  rw [h.getSnapshot]
  constructor
  · rintro ⟨call, hcall, hsource⟩
    refine ⟨_, by rw [hcall]; rfl, ?_⟩
    rw [Ledger.sourceId_snapshotFromCommit, h.readBack call (List.mem_of_getElem? hcall), hsource]
  · rintro ⟨snapshot, hsnapshot, hsource⟩
    obtain ⟨call, hcall, rfl⟩ := Option.map_eq_some_iff.mp hsnapshot
    rw [Ledger.sourceId_snapshotFromCommit, h.readBack call (List.mem_of_getElem? hcall)] at hsource
    exact ⟨call, hcall, hsource⟩

/-- The head that any walk delivers is the last snapshot of the source. -/
theorem MarkerState.Sound.latestHead (h : s.Sound) {order : List Commit} (horder : s.ledger.Walk order)
    {head : Nat} (hhead : MarkerState.latestHead order sourceId = some head) :
    SnapshotOf s.calls sourceId head ∧ ∀ id, SnapshotOf s.calls sourceId id → id ≤ head := by
  let own (commit : Commit) : Bool := (snapshotFromCommit commit).sourceId = sourceId
  have hcall : ∀ entry ∈ s.calls.zipIdx, s.calls[entry.2]? = some entry.1 := by
    intro entry hentry
    rw [← List.mem_zipIdx_iff_getElem?]
    exact hentry
  have hmem (id : Nat) : SnapshotOf s.calls sourceId id ↔
      id ∈ (s.ledger.commits.filter own).map (·.id) := by
    rw [h.commits, List.mem_map]
    constructor
    · rintro ⟨call, hget, hsource⟩
      have hread := h.readBack call (List.mem_of_getElem? hget)
      refine ⟨call.commit id, List.mem_filter.mpr ⟨List.mem_map.mpr ⟨(call, id), ?_, rfl⟩, ?_⟩, rfl⟩
      · exact List.mem_zipIdx_iff_getElem?.mpr hget
      · dsimp only [own]
        rw [Ledger.sourceId_snapshotFromCommit, hread, hsource, decide_eq_true rfl]
    · rintro ⟨commit, hcommit, rfl⟩
      obtain ⟨hin, hsource⟩ := List.mem_filter.mp hcommit
      obtain ⟨entry, hentry, rfl⟩ := List.mem_map.mp hin
      dsimp only [own] at hsource
      rw [Ledger.sourceId_snapshotFromCommit, decide_eq_true_eq] at hsource
      refine ⟨entry.1, hcall entry hentry, ?_⟩
      rw [← h.readBack entry.1 (List.mem_of_getElem? (hcall entry hentry)), hsource]
  have hseconds : (s.ledger.commits.filter own).Pairwise fun a b => a.seconds < b.seconds := by
    have hcalls := h.ascending
    rw [← List.zipIdx_map_fst 0 s.calls, List.pairwise_map] at hcalls
    rw [List.pairwise_filter, h.commits, List.pairwise_map]
    refine hcalls.imp_of_mem fun {a b} ha hb hab hown hown' => hab ?_
    dsimp only [own] at hown hown'
    rw [Ledger.sourceId_snapshotFromCommit, decide_eq_true_eq] at hown hown'
    rw [← h.readBack a.1 (List.mem_of_getElem? (hcall a ha)),
      ← h.readBack b.1 (List.mem_of_getElem? (hcall b hb)), hown, hown']
  have hids : ((s.ledger.commits.filter own).map (·.id)).Pairwise (· < ·) := by
    have hall : (s.ledger.commits.map (·.id)).Pairwise (· < ·) := by
      rw [h.commits, List.map_map]
      change (s.calls.zipIdx.map (·.2)).Pairwise (· < ·)
      rw [List.zipIdx_map_snd]
      exact List.pairwise_lt_range'
    exact hall.sublist (List.filter_sublist.map _)
  have hlisted : ((s.ledger.commits.filter own).map (·.id)).reverse.head? = some head := by
    have hwalk : order.filter own = (s.ledger.commits.filter own).reverse := horder.filter_eq_reverse hseconds
    rw [MarkerState.latestHead, Ledger.latestSnapshotsForSource, Ledger.listSnapshots_ids Nat.one_pos,
      hwalk, List.map_reverse] at hhead
    cases hreverse : ((s.ledger.commits.filter own).map (·.id)).reverse with
    | nil =>
        rw [hreverse] at hhead
        cases hhead
    | cons first rest =>
        rw [hreverse] at hhead
        exact hhead
  obtain ⟨rest, hrest⟩ := List.head?_eq_some_iff.mp hlisted
  have hdescending := List.pairwise_reverse.mpr hids
  rw [hrest, List.pairwise_cons] at hdescending
  refine ⟨(hmem head).mpr (List.mem_reverse.mp (hrest ▸ List.mem_cons_self)), fun id hid => ?_⟩
  have hin := List.mem_reverse.mpr ((hmem id).mp hid)
  rw [hrest] at hin
  rcases List.mem_cons.mp hin with rfl | hlater
  · exact le_rfl
  · exact (hdescending.1 id hlater).le

/-! ### One step -/

/-- A marker that is there already is acknowledged again. -/
theorem MarkerState.Sound.acked (h : s.Sound) (ack : Ack) :
    MarkerState.Sound { s with acks := s.acks ++ [ack] } ∧ Grows s { s with acks := s.acks ++ [ack] } := by
  have hgrows : Grows s { s with acks := s.acks ++ [ack] } :=
    ⟨List.prefix_rfl, List.prefix_rfl, List.prefix_append _ _, fun _ id hid => ⟨id, hid, le_rfl⟩⟩
  refine ⟨⟨h.commits, h.readBack, h.ascending, h.own, fun sourceId marker hmarker id hid hsnapshot => ?_,
    h.marked, fun r hr => ?_⟩, hgrows⟩
  · obtain ⟨other, hother, hcovers⟩ := h.covered sourceId marker hmarker id hid hsnapshot
    exact ⟨other, List.mem_append_left _ hother, hcovers⟩
  · obtain ⟨hread, hbase⟩ := h.results r hr
    exact ⟨hread.grows hgrows, hbase.grows hgrows hread.begunAfter⟩

/-- A marker moves forward, and what comes after a base at the old marker or before it is acknowledged. -/
theorem MarkerState.Sound.moved (h : s.Sound) (hsnapshot : SnapshotOf s.calls sourceId id)
    (hforward : ∀ current, s.ledger.getReadMarker sourceId = some current → current < id)
    (hbase : ∀ b, base = some b → ∃ marker, s.ledger.getReadMarker sourceId = some marker ∧ b ≤ marker)
    {ledger : Ledger} (hledger : ledger = { s.ledger with
      readMarkers := Function.update s.ledger.readMarkers (readMarkerRef sourceId) (some id) }) :
    MarkerState.Sound { s with ledger := ledger, acks := s.acks ++ [⟨sourceId, base, id⟩] } ∧
      Grows s { s with ledger := ledger, acks := s.acks ++ [⟨sourceId, base, id⟩] } := by
  have hmarker (other : String) :
      ledger.getReadMarker other = if other = sourceId then some id else s.ledger.getReadMarker other := by
    rw [hledger]
    exact Ledger.getReadMarker_update s.ledger sourceId other id
  have hgrows : Grows s { s with ledger := ledger, acks := s.acks ++ [⟨sourceId, base, id⟩] } := by
    refine ⟨List.prefix_rfl, List.prefix_rfl, List.prefix_append _ _, fun other current hcurrent => ?_⟩
    dsimp only
    rw [hmarker]
    split_ifs with hother
    · rw [hother] at hcurrent
      exact ⟨id, rfl, (hforward current hcurrent).le⟩
    · exact ⟨current, hcurrent, le_rfl⟩
  refine ⟨⟨?_, h.readBack, h.ascending, ?_, ?_, ?_, fun r hr => ?_⟩, hgrows⟩
  · dsimp only
    rw [hledger]
    exact h.commits
  · intro other marker hother
    dsimp only at hother
    rw [hmarker] at hother
    split_ifs at hother with heq
    · rw [heq, ← Option.some.inj hother]
      exact hsnapshot
    · exact h.own other marker hother
  · intro other marker hother early hearly hearlier
    dsimp only at hother
    rw [hmarker] at hother
    split_ifs at hother with heq
    · obtain rfl := Option.some.inj hother
      subst heq
      by_cases hnew : After base early
      · exact ⟨_, List.mem_append_right _ List.mem_cons_self, rfl, hnew, hearly⟩
      · -- what is not after the base is not after the old marker either
        unfold After at hnew
        push Not at hnew
        obtain ⟨b, hb, hle⟩ := hnew
        obtain ⟨old, hold, hbold⟩ := hbase b hb
        obtain ⟨ack, hack, hcovers⟩ := h.covered other old hold early (hle.trans hbold) hearlier
        exact ⟨ack, List.mem_append_left _ hack, hcovers⟩
    · obtain ⟨ack, hack, hcovers⟩ := h.covered other marker hother early hearly hearlier
      exact ⟨ack, List.mem_append_left _ hack, hcovers⟩
  · intro r hr hcommit
    obtain ⟨marker, hold, hle⟩ := h.marked r hr hcommit
    obtain ⟨marker', hnew, hle'⟩ := hgrows.forward r.diff.sourceId marker hold
    exact ⟨marker', hnew, hle.trans hle'⟩
  · obtain ⟨hread, hbase⟩ := h.results r hr
    exact ⟨hread.grows hgrows, hbase.grows hgrows hread.begunAfter⟩

/-- A marker move, or one that is refused, with a base at the marker or before it. -/
theorem MarkerState.Sound.setReadMarker (h : s.Sound) {moved : MarkerState} {result : Except String Unit}
    (hbase : ∀ b, base = some b → ∃ marker, s.ledger.getReadMarker sourceId = some marker ∧ b ≤ marker)
    (hset : s.setReadMarker sourceId base id = (moved, result)) :
    moved.Sound ∧ Grows s moved ∧ moved.returned = s.returned ∧
      (result = .ok () → moved.ledger.getReadMarker sourceId = some id) := by
  unfold MarkerState.setReadMarker at hset
  cases hledger : s.ledger.setReadMarker sourceId id with
  | mk ledger outcome =>
      rw [hledger] at hset
      have hcases := Ledger.setReadMarker_cases hledger
      cases outcome with
      | error error =>
          obtain ⟨rfl, rfl⟩ := Prod.mk.inj hset
          obtain ⟨rfl, -⟩ := hcases.resolve_right fun hmoved => nomatch hmoved.2.2.1
          exact ⟨h, Grows.refl s, rfl, fun hok => nomatch hok⟩
      | ok _ =>
          obtain ⟨rfl, rfl⟩ := Prod.mk.inj hset
          rcases hcases with ⟨rfl, hsame⟩ | ⟨hsnapshot, hforward, -, hmoved⟩
          · obtain ⟨hsound, hgrows⟩ := h.acked ⟨sourceId, base, id⟩
            exact ⟨hsound, hgrows, rfl, fun _ => hsame rfl⟩
          · obtain ⟨hsound, hgrows⟩ := h.moved (h.snapshotOf_iff.mpr hsnapshot) hforward hbase hmoved
            refine ⟨hsound, hgrows, rfl, fun _ => ?_⟩
            dsimp only
            rw [hmoved, Ledger.getReadMarker_update, if_pos rfl]

theorem MarkerState.Sound.commitSnapshot (h : s.Sound) {call : SnapshotCall}
    (hcall : validateSourceId call.snapshotMeta.sourceId = .ok () →
      call.readBack = call.snapshotMeta.sourceId ∧
        ∀ earlier ∈ s.calls, earlier.snapshotMeta.sourceId = call.snapshotMeta.sourceId →
          signatureSeconds earlier.takenAtMs < signatureSeconds call.takenAtMs) :
    (s.commitSnapshot call).Sound ∧ Grows s (s.commitSnapshot call) := by
  cases hvalid : validateSourceId call.snapshotMeta.sourceId with
  | error error =>
      have hsame : s.commitSnapshot call = s := by
        unfold MarkerState.commitSnapshot Ledger.commitSnapshot
        rw [hvalid]
      rw [hsame]
      exact ⟨h, Grows.refl s⟩
  | ok _ =>
      obtain ⟨hread, hlater⟩ := hcall hvalid
      have hlength : s.ledger.commits.length = s.calls.length := by
        rw [h.commits, List.length_map, List.length_zipIdx]
      have hafter : s.commitSnapshot call =
          { s with
            ledger := { s.ledger with commits := s.ledger.commits ++ [call.commit s.calls.length] }
            calls := s.calls ++ [call] } := by
        unfold MarkerState.commitSnapshot Ledger.commitSnapshot
        rw [hvalid]
        dsimp only
        rw [hlength]
      rw [hafter]
      have hgrows : Grows s
          { s with
            ledger := { s.ledger with commits := s.ledger.commits ++ [call.commit s.calls.length] }
            calls := s.calls ++ [call] } :=
        ⟨List.prefix_append _ _, List.prefix_rfl, List.prefix_rfl, fun _ id hid => ⟨id, hid, le_rfl⟩⟩
      refine ⟨⟨?_, ?_, ?_, ?_, ?_, h.marked, ?_⟩, hgrows⟩
      · rw [List.zipIdx_append, List.map_append, ← h.commits, Nat.zero_add]
        rfl
      · intro other hother
        rcases List.mem_append.mp hother with hold | hnew
        · exact h.readBack other hold
        · rw [List.mem_singleton.mp hnew]
          exact hread
      · rw [List.pairwise_append]
        refine ⟨h.ascending, List.pairwise_singleton _ _, fun earlier hearlier other hother hsource => ?_⟩
        rw [List.mem_singleton.mp hother] at hsource ⊢
        exact hlater earlier hearlier hsource
      · exact fun sourceId id hid => (h.own sourceId id hid).grows hgrows
      · intro sourceId marker hmarker id hid hsnapshot
        have hlt := hid.trans_lt (h.own sourceId marker hmarker).lt
        exact h.covered sourceId marker hmarker id hid (hsnapshot.of_grows hgrows hlt)
      · intro r hr
        obtain ⟨hread, hbase⟩ := h.results r hr
        exact ⟨hread.grows hgrows, hbase.grows hgrows hread.begunAfter⟩

/-- A diff is returned. -/
theorem MarkerState.Sound.concat (h : s.Sound) {r : Returned}
    (hread : ReadFits s r.diff.sourceId r.committed r.returned r.diff.toSnapshotId)
    (hbase : BaseFits s r.diff.sourceId r.returned r.diff.fromSnapshotId)
    (hmarked : r.commit = true →
      ∃ marker, s.ledger.getReadMarker r.diff.sourceId = some marker ∧ r.diff.toSnapshotId ≤ marker) :
    MarkerState.Sound { s with returned := s.returned ++ [r] } ∧
      Grows s { s with returned := s.returned ++ [r] } := by
  have hgrows : Grows s { s with returned := s.returned ++ [r] } :=
    ⟨List.prefix_rfl, List.prefix_append _ _, List.prefix_rfl, fun _ id hid => ⟨id, hid, le_rfl⟩⟩
  refine ⟨⟨h.commits, h.readBack, h.ascending, h.own, h.covered, fun other hother hcommit => ?_,
    fun other hother => ?_⟩, hgrows⟩
  · rcases List.mem_append.mp hother with hold | hnew
    · exact h.marked other hold hcommit
    · obtain rfl := List.mem_singleton.mp hnew
      exact hmarked hcommit
  · rcases List.mem_append.mp hother with hold | hnew
    · obtain ⟨hread, hbase⟩ := h.results other hold
      exact ⟨hread.grows hgrows, hbase.grows hgrows hread.begunAfter⟩
    · obtain rfl := List.mem_singleton.mp hnew
      exact ⟨hread.grows hgrows, hbase.grows hgrows hread.begunAfter⟩

/-- What the next step of a call leaves, and that it can go on. -/
def StepFits (s : MarkerState) (after : MarkerState × Option MarkerThread) : Prop :=
  after.1.Sound ∧ Grows s after.1 ∧ ∀ thread ∈ after.2, MarkerThread.Sound after.1 thread

theorem MarkerState.Sound.readBase (h : s.Sound) :
    BaseFits s sourceId returned (s.ledger.readBase sourceId) := by
  have hread : s.ledger.readBase sourceId = s.ledger.getReadMarker sourceId := by
    unfold Ledger.readBase
    cases hmarker : s.ledger.getReadMarker sourceId with
    | none => rfl
    | some marker =>
        obtain ⟨snapshot, hsnapshot, -⟩ := h.snapshotOf_iff.mp (h.own sourceId marker hmarker)
        rw [Option.filter_some, hsnapshot]
        rfl
  rw [hread]
  refine ⟨fun b hb => ⟨b, hb, le_rfl⟩, fun i _ first hfirst hcommit hsource => ?_⟩
  obtain ⟨marker, hmarker, hle⟩ := h.marked first (List.mem_of_getElem? hfirst) hcommit
  rw [hsource] at hmarker
  exact ⟨marker, hmarker, hle⟩

theorem MarkerState.Sound.computeDiff (h : s.Sound) {head : Nat} {diff : DiffResult}
    (hhead : SnapshotOf s.calls sourceId head) (hdiff : s.ledger.computeDiff base head = .ok diff) :
    diff.sourceId = sourceId ∧ diff.toSnapshotId = head ∧ diff.fromSnapshotId = base := by
  obtain ⟨toSnap, hto, hsource⟩ := h.snapshotOf_iff.mp hhead
  have hid : ∀ id snapshot, s.ledger.getSnapshot id = some snapshot → snapshot.id = id := by
    intro id snapshot hsnapshot
    rw [h.getSnapshot] at hsnapshot
    obtain ⟨call, -, rfl⟩ := Option.map_eq_some_iff.mp hsnapshot
    rfl
  unfold Ledger.computeDiff at hdiff
  rw [hto] at hdiff
  dsimp only at hdiff
  split at hdiff
  · obtain rfl := Except.ok.inj hdiff
    exact ⟨hsource, hid head toSnap hto, rfl⟩
  · rename_i id
    split at hdiff
    · cases hdiff
    · rename_i fromSnap hfrom
      split_ifs at hdiff
      obtain rfl := Except.ok.inj hdiff
      exact ⟨hsource, hid head toSnap hto, congrArg some (hid id fromSnap hfrom)⟩

theorem MarkerState.Sound.readStep (h : s.Sound) {order : List Commit} (horder : s.ledger.Walk order)
    {commit : Bool} {phase : ReadPhase}
    (hthread : MarkerThread.Sound s (.diffSinceRead sourceId commit committed returned phase)) :
    StepFits s (s.readStep order sourceId commit committed returned phase) := by
  have hstay : StepFits s (s, none) := ⟨h, Grows.refl s, fun _ hnone => absurd hnone (Option.not_mem_none _)⟩
  cases phase with
  | start =>
      dsimp only [MarkerState.readStep]
      cases hhead : MarkerState.latestHead order sourceId with
      | none => exact hstay
      | some head =>
          obtain ⟨hown, hlatest⟩ := h.latestHead horder hhead
          refine ⟨h, Grows.refl s, fun thread hnext => ?_⟩
          obtain rfl := Option.mem_some_iff.mp hnext
          exact ⟨hthread.1, hthread.2, hown, fun id _ hid => hlatest id hid⟩
  | headRead head =>
      refine ⟨h, Grows.refl s, fun thread hnext => ?_⟩
      obtain rfl := Option.mem_some_iff.mp hnext
      exact ⟨hthread, h.readBase⟩
  | baseRead head base =>
      obtain ⟨hread, hbase⟩ := hthread
      dsimp only [MarkerState.readStep]
      cases hdiff : s.ledger.computeDiff base head with
      | error error => exact hstay
      | ok diff =>
          obtain ⟨hsource, hto, hfrom⟩ := h.computeDiff hread.own hdiff
          rw [← hto] at hread
          rw [← hfrom] at hbase
          split_ifs
          · refine ⟨h, Grows.refl s, fun thread hnext => ?_⟩
            obtain rfl := Option.mem_some_iff.mp hnext
            exact ⟨hsource, hread, hbase⟩
          · rw [← hsource] at hread hbase
            obtain ⟨hsound, hgrows⟩ := h.concat (r := ⟨diff, false, committed, returned⟩) hread hbase
              fun hcommit => nomatch hcommit
            exact ⟨hsound, hgrows, fun _ hnone => absurd hnone (Option.not_mem_none _)⟩
  | computed diff =>
      obtain ⟨hsource, hread, hbase⟩ := hthread
      dsimp only [MarkerState.readStep]
      cases hset : s.setReadMarker sourceId diff.fromSnapshotId diff.toSnapshotId with
      | mk moved result =>
          obtain ⟨hsound, hgrows, -, hmarked⟩ := h.setReadMarker hbase.marked hset
          cases result with
          | error error => exact ⟨hsound, hgrows, fun _ hnone => absurd hnone (Option.not_mem_none _)⟩
          | ok _ =>
              have hread' := hread.grows hgrows
              have hbase' := hbase.grows hgrows hread.begunAfter
              have hmarker := hmarked rfl
              rw [← hsource] at hread' hbase' hmarker
              obtain ⟨hsound', hgrows'⟩ := hsound.concat (r := ⟨diff, true, committed, returned⟩) hread'
                hbase' fun _ => ⟨_, hmarker, le_rfl⟩
              exact ⟨hsound', hgrows.trans hgrows', fun _ hnone => absurd hnone (Option.not_mem_none _)⟩

theorem MarkerState.Sound.threadStep (h : s.Sound) {order : List Commit} (horder : s.ledger.Walk order)
    {thread : MarkerThread} (hthread : thread.Sound s) : StepFits s (s.threadStep order thread) := by
  cases thread with
  | diffSinceRead sourceId commit committed returned phase => exact h.readStep horder hthread
  | markRead sourceIds head =>
      have hany : ∀ sourceIds head, ∀ thread ∈ some (MarkerThread.markRead sourceIds head),
          MarkerThread.Sound s thread := by
        intro sourceIds head thread hnext
        obtain rfl := Option.mem_some_iff.mp hnext
        exact trivial
      match sourceIds, head with
      | [], _ => exact ⟨h, Grows.refl s, fun _ hnone => absurd hnone (Option.not_mem_none _)⟩
      | sourceId :: rest, none =>
          dsimp only [MarkerState.threadStep, MarkerState.markStep]
          cases MarkerState.latestHead order sourceId with
          | none => exact ⟨h, Grows.refl s, hany _ _⟩
          | some head => exact ⟨h, Grows.refl s, hany _ _⟩
      | sourceId :: rest, some head =>
          dsimp only [MarkerState.threadStep, MarkerState.markStep]
          cases hset : s.setReadMarker sourceId (s.ledger.getReadMarker sourceId) head with
          | mk moved result =>
              obtain ⟨hsound, hgrows, -⟩ := h.setReadMarker (fun b hb => ⟨b, hb, le_rfl⟩) hset
              cases result with
              | error error => exact ⟨hsound, hgrows, fun _ hnone => absurd hnone (Option.not_mem_none _)⟩
              | ok _ =>
                  refine ⟨hsound, hgrows, fun thread hnext => ?_⟩
                  obtain rfl := Option.mem_some_iff.mp hnext
                  exact trivial

end Sound

/-! ### Changes -/

/-- A change says what an item was and what it is now, which is something else. -/
theorem mem_computeChanges {calls : List SnapshotCall} {fromId : Option Nat} {toId : Nat}
    {sourceId : String} {change : ItemChange} (h : change ∈ computeChanges calls fromId toId sourceId) :
    change.oldContent = OrderedMap.get ((fromId.map (sourceItems calls sourceId)).getD []) change.itemId ∧
      change.newContent = OrderedMap.get (sourceItems calls sourceId toId) change.itemId ∧
        change.oldContent ≠ change.newContent := by
  obtain ⟨itemId, -, hchange⟩ := List.mem_filterMap.mp h
  cases hold : OrderedMap.get ((fromId.map (sourceItems calls sourceId)).getD []) itemId with
  | none =>
      cases hnew : OrderedMap.get (sourceItems calls sourceId toId) itemId with
      | none =>
          rw [hold, hnew] at hchange
          cases hchange
      | some content =>
          rw [hold, hnew] at hchange
          obtain rfl := Option.some.inj hchange
          exact ⟨hold.symm, hnew.symm, fun h => nomatch h⟩
  | some content =>
      cases hnew : OrderedMap.get (sourceItems calls sourceId toId) itemId with
      | none =>
          rw [hold, hnew] at hchange
          obtain rfl := Option.some.inj hchange
          exact ⟨hold.symm, hnew.symm, fun h => nomatch h⟩
      | some content' =>
          rw [hold, hnew] at hchange
          dsimp only [itemChange] at hchange
          split_ifs at hchange with hne
          obtain rfl := Option.some.inj hchange
          exact ⟨hold.symm, hnew.symm, fun h => hne (Option.some.inj h)⟩

/-- No change is repeated by a diff that begins where the first one ends. -/
theorem computeChanges_apart {calls : List SnapshotCall} {fromId : Option Nat} {midId toId : Nat}
    {sourceId : String} {change : ItemChange} (h : change ∈ computeChanges calls fromId midId sourceId) :
    change ∉ computeChanges calls (some midId) toId sourceId := by
  intro hagain
  obtain ⟨-, hnew, hne⟩ := mem_computeChanges h
  obtain ⟨hold, -, -⟩ := mem_computeChanges hagain
  exact hne (hold.trans hnew.symm)

/-! ### Runs -/

theorem MarkerState.Sound.markersSound {s : MarkerState} (h : s.Sound) : MarkersSound s := by
  refine ⟨h.own, fun i j first second hfollows => ?_, fun i j first second hfollows id hid hown hlater => ?_⟩
  · obtain ⟨hi, hj, hcommit, hsource, hlt⟩ := hfollows
    have hbase := (h.results second (List.mem_of_getElem? hj)).2
    obtain ⟨base, hfrom, hle⟩ := hbase.past i hlt first hi hcommit hsource
    refine ⟨base, hfrom, hle, fun heq change hchange hagain => ?_⟩
    unfold DiffResult.changes at hchange hagain
    rw [hfrom, heq, ← hsource] at hagain
    exact computeChanges_apart hchange hagain
  · obtain ⟨hi, hj, -, -, -⟩ := hfollows
    obtain ⟨hread, hbase⟩ := h.results second (List.mem_of_getElem? hj)
    have hle := hread.latest id hid hown
    by_cases hafter : After second.diff.fromSnapshotId id
    · exact Or.inl ⟨hafter, hle⟩
    · unfold After at hafter
      push Not at hafter
      obtain ⟨base, hfrom, hbefore⟩ := hafter
      obtain ⟨marker, hmarker, hbehind⟩ := hbase.marked base hfrom
      exact Or.inr (h.covered _ marker hmarker id (hbefore.trans hbehind) hown)

structure MarkerWorld.Sound (w : MarkerWorld) : Prop where
  shared : w.shared.Sound
  threads : ∀ thread ∈ w.threads, MarkerThread.Sound w.shared thread

section Run

variable {w : MarkerWorld} {label : MarkerLabel}

theorem MarkerWorld.Sound.step (h : w.Sound) (hdelivered : Delivered w label) (hinOrder : InOrder w label) :
    (advanceMarkers w label).Sound ∧ Grows w.shared (advanceMarkers w label).shared := by
  have hothers {s : MarkerState} (hgrows : Grows w.shared s) :
      ∀ thread ∈ w.threads, MarkerThread.Sound s thread :=
    forall_of_stable stable_sound hgrows h.threads
  cases label with
  | commitSnapshot call =>
      obtain ⟨hsound, hgrows⟩ := h.shared.commitSnapshot (hinOrder call rfl)
      dsimp only [advanceMarkers]
      generalize w.shared.commitSnapshot call = s at hsound hgrows ⊢
      exact ⟨⟨hsound, hothers hgrows⟩, hgrows⟩
  | setReadMarker sourceId id =>
      dsimp only [advanceMarkers]
      cases hset : w.shared.setReadMarker sourceId (w.shared.ledger.getReadMarker sourceId) id with
      | mk moved result =>
          obtain ⟨hsound, hgrows, -⟩ := h.shared.setReadMarker (fun b hb => ⟨b, hb, le_rfl⟩) hset
          exact ⟨⟨hsound, hothers hgrows⟩, hgrows⟩
  | diffSinceRead sourceId commit =>
      refine ⟨⟨h.shared, fun thread hthread => ?_⟩, Grows.refl _⟩
      rcases List.mem_append.mp hthread with hold | hnew
      · exact h.threads thread hold
      · rw [List.mem_singleton.mp hnew]
        exact ⟨le_rfl, le_rfl⟩
  | markRead sourceIds =>
      refine ⟨⟨h.shared, fun thread hthread => ?_⟩, Grows.refl _⟩
      rcases List.mem_append.mp hthread with hold | hnew
      · exact h.threads thread hold
      · rw [List.mem_singleton.mp hnew]
        exact trivial
  | step i order =>
      dsimp only [advanceMarkers]
      cases hthread : w.threads[i]? with
      | none => exact ⟨h, Grows.refl _⟩
      | some thread =>
          obtain ⟨hsound, hgrows, hnext⟩ := h.shared.threadStep (hdelivered i order rfl)
            (h.threads thread (List.mem_of_getElem? hthread))
          exact ⟨⟨hsound, forall_replace stable_sound hgrows h.threads hnext⟩, hgrows⟩

end Run

theorem markerLedger_sound : MarkerWorld.Sound markerLedger.start where
  shared := by
    refine ⟨rfl, fun _ hcall => absurd hcall List.not_mem_nil, List.Pairwise.nil, fun _ _ hid => ?_,
      fun _ _ hid => ?_, fun _ hr => absurd hr List.not_mem_nil,
      fun _ hr => absurd hr List.not_mem_nil⟩
    · cases hid
    · cases hid
  threads := fun _ hthread => absurd hthread List.not_mem_nil

section Sample

instance (w : MarkerWorld) (order : List Commit) : Decidable (w.shared.ledger.Walk order) :=
  decidable_of_iff (order.Perm w.shared.ledger.commits ∧ order.Pairwise fun a b => b.seconds ≤ a.seconds)
    ⟨fun h => ⟨h.1, h.2⟩, fun h => ⟨h.perm, h.descending⟩⟩

instance : ∀ w label, Decidable (Delivered w label)
  | w, .step i order => decidable_of_iff (w.shared.ledger.Walk order)
      ⟨fun h _ _ heq => (MarkerLabel.step.inj heq).2 ▸ h, fun h => h i order rfl⟩
  | _, .commitSnapshot _ => isTrue fun _ _ heq => nomatch heq
  | _, .setReadMarker _ _ => isTrue fun _ _ heq => nomatch heq
  | _, .diffSinceRead _ _ => isTrue fun _ _ heq => nomatch heq
  | _, .markRead _ => isTrue fun _ _ heq => nomatch heq

/-- A `diff_since_read` with nothing in between. -/
def readOnce : List MarkerLabel :=
  let order := [(Ledger.sampleCall "old" 5000).commit 0]
  [.commitSnapshot (Ledger.sampleCall "old" 5000), .diffSinceRead "s" true, .step 0 order, .step 0 order,
    .step 0 order, .step 0 order]

/-- A walk that shows the older one of two snapshots within one second first. -/
def tiedWalk : List Commit :=
  [(Ledger.sampleCall "old" 5000).commit 0, (Ledger.sampleCall "new" 5600).commit 1]

/-- The newer snapshot, and a second call up to its last step. -/
def readAgain : List MarkerLabel :=
  [.commitSnapshot (Ledger.sampleCall "new" 5600), .diffSinceRead "s" true, .step 0 tiedWalk,
    .step 0 tiedWalk, .step 0 tiedWalk]

def readTied : List MarkerLabel := readOnce ++ readAgain ++ [.step 0 tiedWalk]

/-- What the two calls return. -/
def firstRead : Returned := ⟨⟨"s", "k", "l", none, 0⟩, true, 1, 0⟩

def secondRead : Returned := ⟨⟨"s", "k", "l", some 0, 0⟩, true, 2, 1⟩

theorem run_readTied : markerLedger.StepsFrom Delivered markerLedger.start readTied ∧
    (markerLedger.run readTied).shared.returned = [firstRead, secondRead] ∧
      (markerLedger.run readTied).shared.acks = [⟨"s", none, 0⟩, ⟨"s", some 0, 0⟩] ∧
        (markerLedger.run readTied).shared.calls[1]? = some (Ledger.sampleCall "new" 5600) := by
  decide +kernel

end Sample

end TinyCortex.Diff
