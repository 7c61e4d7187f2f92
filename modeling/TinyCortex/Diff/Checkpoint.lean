import TinyCortex.Diff.MapDifference
import TinyCortex.Diff.MetaReadBack
import TinyCortex.Diff.ReadMarkers

/-! Checkpoints over several sources (`diff/checkpoint.rs`, `diff/ledger.rs`). A `create_checkpoint` counts the
snapshots of each source, snapshots the sources without one, reads the newest snapshot of each and writes a tag, in
steps of its own; snapshots of others, other checkpoints and cleanups fall anywhere between them. A tag stands for the
fields of its message. -/

namespace TinyCortex.Diff

structure SourceDescriptor where
  id : String
  kind : String
  label : String
  deriving DecidableEq

structure Checkpoint where
  id : String
  label : String
  createdAtMs : Int
  snapshotIds : List Nat
  deriving DecidableEq

/-- A `DiffResult` with its summary and its changes. -/
structure FullDiffResult where
  sourceId : String
  sourceKind : String
  sourceLabel : String
  fromSnapshotId : Option Nat
  toSnapshotId : Nat
  summary : DiffSummary
  changes : List FullItemChange
  deriving DecidableEq

structure CrossSourceDiff where
  checkpointId : Option String
  computedAtMs : Int
  summary : DiffSummary
  perSource : List FullDiffResult
  deriving DecidableEq

def DiffSummary.add (agg summary : DiffSummary) : DiffSummary where
  added := agg.added + summary.added
  removed := agg.removed + summary.removed
  modified := agg.modified + summary.modified
  unchanged := agg.unchanged + summary.unchanged

def snapshotCountForSource (order : List Commit) (sourceId : String) : Nat :=
  (Ledger.listSnapshots order (some sourceId) (2 ^ 32 - 1)).length

/-- The newest snapshot of a source, as a walk shows it. -/
def latestSnapshot (order : List Commit) (sourceId : String) : Option Snapshot :=
  (Ledger.latestSnapshotsForSource order sourceId 1).head?

/-- The loop over the snapshots of a checkpoint. -/
def crossLoop (git : Git2) (t : TreeLedger) (order : List Commit) (includeTextDiff : Bool) :
    List Nat → DiffSummary → List FullDiffResult → Except String (DiffSummary × List FullDiffResult)
  | [], agg, perSource => .ok (agg, perSource)
  | snapId :: rest, agg, perSource =>
      match t.ledger.getSnapshot snapId with
      | none => crossLoop git t order includeTextDiff rest agg perSource
      | some base =>
          match latestSnapshot order base.sourceId with
          | none => crossLoop git t order includeTextDiff rest agg perSource
          | some head =>
              if head.id = base.id then crossLoop git t order includeTextDiff rest agg perSource
              else
                match t.computeChanges git (some base.id) head.id head.sourceId head.itemCount includeTextDiff with
                | .error error => .error error
                | .ok (changes, summary) =>
                    crossLoop git t order includeTextDiff rest (agg.add summary)
                      (perSource ++
                        [⟨head.sourceId, head.sourceKind, head.label, some base.id, head.id, summary, changes⟩])

/-- Where a `create_checkpoint` is: which sources it has still to count, to snapshot or to read. -/
inductive CheckpointPhase
  | counting (rest lacking : List SourceDescriptor)
  | baselining (rest : List SourceDescriptor)
  | reading (checkpointId : String) (createdAtMs : Int) (rest : List SourceDescriptor) (snapshotIds : List Nat)
  | done (checkpoint : Checkpoint)
  | failed (error : String)
  deriving DecidableEq

structure CheckpointRun where
  label : String
  sources : List SourceDescriptor
  phase : CheckpointPhase
  deriving DecidableEq

/-- The repository with its checkpoint tags, the calls, and the snapshots that were committed. -/
structure CheckpointWorld where
  repo : TreeLedger
  tags : OrderedMap String Checkpoint
  runs : List CheckpointRun
  calls : List SnapshotCall

/-- A turn of a call brings the walk that the repository delivers, the items that the source has, the time and a
fresh identifier. -/
inductive CheckpointLabel
  | takeSnapshot (call : SnapshotCall)
  | createCheckpoint (label : String) (sources : List SourceDescriptor)
  | turn (i : Nat) (order : List Commit) (items : List (String × String)) (nowMs : Int) (uuid : String)
  | cleanup (olderThanMs : Int)
  deriving DecidableEq

namespace CheckpointWorld

variable (w : CheckpointWorld)

def takeSnapshot (call : SnapshotCall) : CheckpointWorld × Except String Snapshot :=
  match w.repo.commitSnapshot call with
  | (repo, .ok snapshot) => ({ w with repo := repo, calls := w.calls ++ [call] }, .ok snapshot)
  | (_, .error error) => (w, .error error)

def goto (i : Nat) (run : CheckpointRun) (phase : CheckpointPhase) : CheckpointWorld :=
  { w with runs := w.runs.set i { run with phase := phase } }

def turn (i : Nat) (run : CheckpointRun) (order : List Commit) (items : List (String × String)) (nowMs : Int)
    (uuid : String) : CheckpointWorld :=
  match run.phase with
  | .counting [] lacking => w.goto i run (.baselining lacking)
  | .counting (source :: rest) lacking =>
      w.goto i run (.counting rest (if snapshotCountForSource order source.id = 0 then lacking ++ [source] else lacking))
  | .baselining [] => w.goto i run (.reading ("ckpt_" ++ uuid) nowMs run.sources [])
  | .baselining (source :: rest) =>
      match w.takeSnapshot ⟨⟨source.id, source.kind, source.label, .manual⟩, items, nowMs⟩ with
      | (taken, .ok _) => taken.goto i run (.baselining rest)
      | (same, .error error) => same.goto i run (.failed error)
  | .reading checkpointId createdAtMs (source :: rest) snapshotIds =>
      w.goto i run (.reading checkpointId createdAtMs rest
        (match latestSnapshot order source.id with
        | some snap => snapshotIds ++ [snap.id]
        | none => snapshotIds))
  | .reading checkpointId createdAtMs [] snapshotIds =>
      if w.repo.ledger.commits = [] then w.goto i run (.failed "checkpoint requires at least one snapshot")
      else
        let checkpoint : Checkpoint := ⟨checkpointId, run.label, createdAtMs, snapshotIds⟩
        { w.goto i run (.done checkpoint) with tags := w.tags.insert checkpointId checkpoint }
  | .done _ | .failed _ => w

/-- `cleanup_checkpoints`: the tags that are older go, and the commits stay. -/
def cleanup (olderThanMs : Int) : CheckpointWorld :=
  { w with tags := w.tags.filter fun tag => !decide (tag.2.createdAtMs < olderThanMs) }

def advance (w : CheckpointWorld) : CheckpointLabel → CheckpointWorld
  | .takeSnapshot call => (w.takeSnapshot call).1
  | .createCheckpoint label sources => { w with runs := w.runs ++ [⟨label, sources, .counting sources []⟩] }
  | .turn i order items nowMs uuid =>
      match w.runs[i]? with
      | some run => w.turn i run order items nowMs uuid
      | none => w
  | .cleanup olderThanMs => w.cleanup olderThanMs

def diffSinceCheckpoint (git : Git2) (order : List Commit) (checkpointId : String) (nowMs : Int)
    (includeTextDiff : Bool) : Except String CrossSourceDiff :=
  match w.tags.get checkpointId with
  | none => .error ("checkpoint not found: " ++ checkpointId)
  | some checkpoint =>
      (crossLoop git w.repo order includeTextDiff checkpoint.snapshotIds ⟨0, 0, 0, 0⟩ []).map fun found =>
        ⟨some checkpointId, nowMs, found.1, found.2⟩

end CheckpointWorld

def checkpoints : Machine CheckpointWorld CheckpointLabel := ⟨⟨.empty, [], [], []⟩, CheckpointWorld.advance⟩

/-! ### What is asked of the inputs -/

/-- The texts of the source come back from a commit as they are. -/
structure SourceDescriptor.Clean (source : SourceDescriptor) : Prop where
  valid : validateSourceId source.id = .ok ()
  id : Text.trim source.id = source.id
  kind : '\n' ∉ source.kind.toList

/-- The commit of the call is read back with its source and its count. -/
structure SnapshotCall.Clean (call : SnapshotCall) : Prop where
  id : Text.trim call.snapshotMeta.sourceId = call.snapshotMeta.sourceId
  kind : '\n' ∉ call.snapshotMeta.sourceKind.toList
  count : call.items.length < 2 ^ 32
  low : -2 ^ 63 ≤ call.takenAtMs
  high : call.takenAtMs < 2 ^ 63

namespace CheckpointWorld

/-- Sources have clean texts, and lists and times fit their types. -/
def Clean (_ : CheckpointWorld) : CheckpointLabel → Prop
  | .takeSnapshot call => call.Clean
  | .createCheckpoint _ sources => ∀ source ∈ sources, source.Clean
  | .turn _ _ items nowMs _ => items.length < 2 ^ 32 ∧ -2 ^ 63 ≤ nowMs ∧ nowMs < 2 ^ 63
  | .cleanup _ => True

/-- The walks are those that the repository may deliver. -/
def Delivered (w : CheckpointWorld) : CheckpointLabel → Prop
  | .turn _ order _ _ _ => w.repo.ledger.Walk order
  | .takeSnapshot _ | .createCheckpoint _ _ | .cleanup _ => True

end CheckpointWorld

/-! ### The commits of clean calls -/

theorem TreeLedger.ledger_commitSnapshot (t : TreeLedger) (call : SnapshotCall) :
    (t.commitSnapshot call).1.ledger = (t.ledger.commitSnapshot call).1 := by
  rw [TreeLedger.commitSnapshot]
  cases t.ledger.commitSnapshot call with
  | mk ledger result => cases result <;> rfl

theorem TreeLedger.ledger_commitAll (t : TreeLedger) (calls : List SnapshotCall) :
    (t.commitAll calls).ledger = t.ledger.commitAll calls := by
  induction calls generalizing t with
  | nil => rfl
  | cons call calls ih =>
      rw [TreeLedger.commitAll_cons, ih, TreeLedger.ledger_commitSnapshot]
      rfl

/-- What the calls of a run are: accepted ones that come back from their commits. -/
structure CleanCalls (calls : List SnapshotCall) : Prop where
  valid : ∀ call ∈ calls, validateSourceId call.snapshotMeta.sourceId = .ok ()
  clean : ∀ call ∈ calls, call.Clean

namespace CleanCalls

variable {calls : List SnapshotCall} {order : List Commit} {sourceId : String} {id : Nat} {call : SnapshotCall}

theorem accepted_eq (h : CleanCalls calls) : accepted calls = calls := by
  refine List.filter_eq_self.mpr fun call hcall => ?_
  rw [h.valid call hcall]
  rfl

theorem commits (h : CleanCalls calls) :
    (TreeLedger.empty.commitAll calls).ledger.commits = calls.zipIdx.map fun entry => entry.1.commit entry.2 := by
  rw [TreeLedger.ledger_commitAll]
  have hcommits := Ledger.commits_commitAll (fun _ => none) calls
  rw [h.accepted_eq] at hcommits
  exact hcommits

/-- The snapshot as its commit tells it. -/
theorem snapshot_eq (h : CleanCalls calls) (hcall : call ∈ calls) (id : Nat) :
    snapshotFromCommit (call.commit id) =
      ⟨id, call.snapshotMeta.sourceId, Text.trim call.snapshotMeta.sourceKind,
        Text.trim (sanitizeTrailer call.snapshotMeta.label), call.snapshotMeta.trigger, call.items.length,
        call.takenAtMs⟩ := by
  have hclean := h.clean call hcall
  have hsource : '\n' ∉ call.snapshotMeta.sourceId.toList := by
    intro hmem
    have hvalid := h.valid call hcall
    rw [validateSourceId] at hvalid
    split_ifs at hvalid with hblank hcontrol
    exact hcontrol (List.any_eq_true.mpr ⟨_, hmem, by decide⟩)
  have hread := snapshotFromCommit_message hsource hclean.kind hclean.count hclean.low hclean.high id
    (signatureSeconds call.takenAtMs)
  rw [hclean.id] at hread
  exact hread

theorem getSnapshot (h : CleanCalls calls) (id : Nat) :
    (TreeLedger.empty.commitAll calls).ledger.getSnapshot id =
      calls[id]?.map fun call => snapshotFromCommit (call.commit id) := by
  rw [Ledger.getSnapshot, h.commits, find?_zipIdx, Option.map_map]
  rfl

theorem mem_walk (h : CleanCalls calls) (horder : (TreeLedger.empty.commitAll calls).ledger.Walk order)
    {commit : Commit} : commit ∈ order ↔ ∃ call, calls[commit.id]? = some call ∧ commit = call.commit commit.id := by
  rw [horder.perm.mem_iff, h.commits, List.mem_map]
  constructor
  · rintro ⟨entry, hentry, rfl⟩
    exact ⟨entry.1, List.mem_zipIdx_iff_getElem?.mp hentry, rfl⟩
  · rintro ⟨call, hcall, heq⟩
    exact ⟨(call, commit.id), List.mem_zipIdx_iff_getElem?.mpr hcall, heq.symm⟩

theorem latestSnapshot_eq (order : List Commit) (sourceId : String) :
    latestSnapshot order sourceId =
      ((order.filter fun commit => (snapshotFromCommit commit).sourceId = sourceId).map snapshotFromCommit).head? := by
  rw [latestSnapshot, Ledger.latestSnapshotsForSource, Ledger.listSnapshots, Ledger.listLoop_spec order [] Nat.one_pos,
    List.nil_append, List.length_nil, Nat.sub_zero]
  cases (order.filter fun commit => (snapshotFromCommit commit).sourceId = sourceId).map snapshotFromCommit <;> rfl

theorem exists_of_snapshotCountForSource (h : snapshotCountForSource order sourceId ≠ 0) :
    ∃ commit ∈ order, (snapshotFromCommit commit).sourceId = sourceId := by
  rw [snapshotCountForSource, Ledger.listSnapshots, Ledger.listLoop_spec order [] (by decide), List.nil_append] at h
  obtain ⟨snapshot, hsnapshot⟩ := List.exists_mem_of_length_pos (Nat.pos_of_ne_zero h)
  obtain ⟨commit, hcommit, -⟩ := List.mem_map.mp (List.mem_of_mem_take hsnapshot)
  obtain ⟨hmem, hsource⟩ := List.mem_filter.mp hcommit
  exact ⟨commit, hmem, of_decide_eq_true hsource⟩

/-- The newest snapshot of a source is one of its snapshots, and no other one is later. -/
theorem latestSnapshot_some (h : CleanCalls calls) (horder : (TreeLedger.empty.commitAll calls).ledger.Walk order)
    {snapshot : Snapshot} (hlatest : latestSnapshot order sourceId = some snapshot) :
    ∃ call, calls[snapshot.id]? = some call ∧ call.snapshotMeta.sourceId = sourceId ∧
      snapshot = snapshotFromCommit (call.commit snapshot.id) ∧
      ∀ other ∈ calls, other.snapshotMeta.sourceId = sourceId →
        signatureSeconds other.takenAtMs ≤ signatureSeconds call.takenAtMs := by
  rw [latestSnapshot_eq, List.head?_map] at hlatest
  obtain ⟨commit, hhead, rfl⟩ := Option.map_eq_some_iff.mp hlatest
  obtain ⟨rest, hrest⟩ := List.head?_eq_some_iff.mp hhead
  obtain ⟨hmem, hsource⟩ := List.mem_filter.mp (hrest ▸ List.mem_cons_self : commit ∈ order.filter _)
  obtain ⟨call, hcall, hcommit⟩ := (h.mem_walk horder).mp hmem
  have hown := of_decide_eq_true hsource
  rw [hcommit, h.snapshot_eq (List.mem_of_getElem? hcall)] at hown
  refine ⟨call, hcall, hown, congrArg snapshotFromCommit hcommit, fun other hother hotherSource => ?_⟩
  obtain ⟨id, hid⟩ := List.mem_iff_getElem?.mp hother
  have hin : other.commit id ∈ order.filter fun commit => (snapshotFromCommit commit).sourceId = sourceId := by
    refine List.mem_filter.mpr ⟨(h.mem_walk horder).mpr ⟨other, hid, rfl⟩, decide_eq_true ?_⟩
    rw [h.snapshot_eq hother]
    exact hotherSource
  have hdescending := horder.descending.filter fun commit => (snapshotFromCommit commit).sourceId = sourceId
  rw [hrest] at hin hdescending
  have hseconds : signatureSeconds call.takenAtMs = commit.seconds := (congrArg Commit.seconds hcommit).symm
  rcases List.mem_cons.mp hin with hsame | hlater
  · rw [hseconds, ← hsame]
    exact le_rfl
  · rw [hseconds]
    exact (List.pairwise_cons.mp hdescending).1 _ hlater

theorem latestSnapshot_isSome (h : CleanCalls calls) (horder : (TreeLedger.empty.commitAll calls).ledger.Walk order)
    (hsnapshot : SnapshotOf calls sourceId id) : (latestSnapshot order sourceId).isSome := by
  obtain ⟨call, hcall, hsource⟩ := hsnapshot
  have hmem := List.mem_of_getElem? hcall
  have hwalked : call.commit id ∈ order := (h.mem_walk horder).mpr ⟨call, hcall, rfl⟩
  rw [latestSnapshot_eq, List.isSome_head?]
  refine List.ne_nil_of_mem (List.mem_map_of_mem (List.mem_filter.mpr ⟨hwalked, ?_⟩))
  rw [h.snapshot_eq hmem]
  exact decide_eq_true hsource

theorem took (h : CleanCalls calls) (hcall : calls[id]? = some call) :
    Took calls call ⟨id, call.snapshotMeta.sourceId, call.snapshotMeta.sourceKind, call.snapshotMeta.label,
      call.snapshotMeta.trigger, call.items.length, call.takenAtMs⟩ := by
  obtain ⟨hlt, rfl⟩ := List.getElem?_eq_some_iff.mp hcall
  refine ⟨calls.take id, calls.drop (id + 1), ?_, ?_⟩
  · rw [List.getElem_cons_drop, List.take_append_drop]
  · have hbefore : CleanCalls (calls.take id) :=
      ⟨fun call hmem => h.valid call (List.mem_of_mem_take hmem),
        fun call hmem => h.clean call (List.mem_of_mem_take hmem)⟩
    have hlength : (TreeLedger.empty.commitAll (calls.take id)).ledger.commits.length = id := by
      rw [hbefore.commits, List.length_map, List.length_zipIdx, List.length_take, Nat.min_eq_left hlt.le]
    rw [TreeLedger.commitSnapshot, Ledger.commitSnapshot, h.valid _ (List.getElem_mem hlt)]
    dsimp only
    rw [hlength]

end CleanCalls

/-! ### The diff since a checkpoint -/

/-- The source of the snapshot has another newest snapshot by now. -/
def Moved (calls : List SnapshotCall) (order : List Commit) (id : Nat) : Bool :=
  calls[id]?.any fun base => (latestSnapshot order base.snapshotMeta.sourceId).any fun head => head.id != id

/-- The entry is the difference between the items of the checkpoint's snapshot and those of the source's newest. -/
def Describes (git : Git2) (calls : List SnapshotCall) (baseId : Nat) (entry : FullDiffResult) : Prop :=
  ∃ base head, calls[baseId]? = some base ∧ calls[entry.toSnapshotId]? = some head ∧
    entry.fromSnapshotId = some baseId ∧ entry.sourceId = base.snapshotMeta.sourceId ∧
    head.snapshotMeta.sourceId = base.snapshotMeta.sourceId ∧
    (∀ other ∈ calls, other.snapshotMeta.sourceId = base.snapshotMeta.sourceId →
      signatureSeconds other.takenAtMs ≤ signatureSeconds head.takenAtMs) ∧
    IsMapDifference git.oid (itemMap base.items) (itemMap head.items) entry.changes entry.summary ∧
    entry.summary.added + entry.summary.modified + entry.summary.unchanged = head.items.length

variable {git : Git2} {calls : List SnapshotCall} {order : List Commit}

theorem crossLoop_spec (hgit : git.Exact) (h : CleanCalls calls)
    (horder : (TreeLedger.empty.commitAll calls).ledger.Walk order) (includeTextDiff : Bool) (ids : List Nat)
    (agg : DiffSummary) (perSource : List FullDiffResult) :
    ∃ entries, crossLoop git (TreeLedger.empty.commitAll calls) order includeTextDiff ids agg perSource =
        .ok (entries.foldl (fun agg entry => agg.add entry.summary) agg, perSource ++ entries) ∧
      List.Forall₂ (Describes git calls) (ids.filter (Moved calls order)) entries := by
  induction ids generalizing agg perSource with
  | nil => exact ⟨[], by rw [crossLoop, List.append_nil]; rfl, .nil⟩
  | cons id ids ih =>
      rw [crossLoop, h.getSnapshot]
      cases hbase : calls[id]? with
      | none =>
          rw [List.filter_cons_of_neg (by rw [Moved, hbase]; nofun)]
          exact ih agg perSource
      | some base =>
          rw [Option.map_some, h.snapshot_eq (List.mem_of_getElem? hbase)]
          dsimp only
          cases hhead : latestSnapshot order base.snapshotMeta.sourceId with
          | none =>
              rw [List.filter_cons_of_neg (by rw [Moved, hbase, Option.any_some, hhead]; nofun)]
              exact ih agg perSource
          | some head =>
              dsimp only
              obtain ⟨call, hcall, hsource, hsnapshot, hnewest⟩ := h.latestSnapshot_some horder hhead
              rw [h.snapshot_eq (List.mem_of_getElem? hcall)] at hsnapshot
              by_cases hsame : head.id = id
              · rw [if_pos hsame, List.filter_cons_of_neg (by
                  rw [Moved, hbase, Option.any_some, hhead, Option.any_some, hsame, bne_self_eq_false]; nofun)]
                exact ih agg perSource
              · rw [if_neg hsame, List.filter_cons_of_pos (by
                  rw [Moved, hbase, Option.any_some, hhead, Option.any_some]; exact bne_iff_ne.mpr hsame)]
                obtain ⟨changes, summary, hchanges, hdifference, hcount⟩ :=
                  computeChanges_isMapDifference hgit (h.took hbase) (h.took hcall) hsource.symm includeTextDiff
                have hheadSource : head.sourceId = call.snapshotMeta.sourceId := congrArg Snapshot.sourceId hsnapshot
                have hheadCount : head.itemCount = call.items.length := congrArg Snapshot.itemCount hsnapshot
                rw [hheadSource, hheadCount, hchanges]
                dsimp only
                obtain ⟨entries, hloop, hdescribed⟩ := ih (agg.add summary) (perSource ++ [⟨call.snapshotMeta.sourceId,
                  head.sourceKind, head.label, some id, head.id, summary, changes⟩])
                refine ⟨⟨call.snapshotMeta.sourceId, head.sourceKind, head.label, some id, head.id, summary, changes⟩ ::
                  entries, ?_, .cons ?_ hdescribed⟩
                · rw [hloop, List.append_assoc, List.singleton_append, List.foldl_cons]
                · exact ⟨base, call, hbase, hcall, rfl, hsource, hsource, hnewest, hdifference, hcount⟩

/-! ### The making of a checkpoint -/

def HasSnapshot (calls : List SnapshotCall) (sourceId : String) : Prop := ∃ id, SnapshotOf calls sourceId id

theorem SnapshotOf.append {sourceId : String} {id : Nat} (h : SnapshotOf calls sourceId id) (more : List SnapshotCall) :
    SnapshotOf (calls ++ more) sourceId id := by
  obtain ⟨call, hcall, hsource⟩ := h
  exact ⟨call, (List.getElem?_append_left (List.getElem?_eq_some_iff.mp hcall).1).trans hcall, hsource⟩

/-- The snapshots that were read are of the sources that have been gone through. -/
def ReadFor (calls : List SnapshotCall) (sources : List SourceDescriptor) (ids : List Nat) : Prop :=
  List.Forall₂ (fun source id => SnapshotOf calls source.id id) sources ids

/-- What a call knows: a source is counted when it has a snapshot or is put down as lacking one, and all sources have
one when the reading begins. -/
def CheckpointPhase.Sound (calls : List SnapshotCall) (sources : List SourceDescriptor) : CheckpointPhase → Prop
  | .counting rest lacking => rest ⊆ sources ∧ lacking ⊆ sources ∧
      ∀ source ∈ sources, source ∈ rest ∨ source ∈ lacking ∨ HasSnapshot calls source.id
  | .baselining rest => rest ⊆ sources ∧ ∀ source ∈ sources, source ∈ rest ∨ HasSnapshot calls source.id
  | .reading _ _ rest ids => (∀ source ∈ sources, HasSnapshot calls source.id) ∧
      ∃ gone, sources = gone ++ rest ∧ ReadFor calls gone ids
  | .done checkpoint => ReadFor calls sources checkpoint.snapshotIds
  | .failed _ => sources = []

structure CheckpointRun.Sound (calls : List SnapshotCall) (run : CheckpointRun) : Prop where
  clean : ∀ source ∈ run.sources, source.Clean
  phase : run.phase.Sound calls run.sources

theorem HasSnapshot.append {sourceId : String} (h : HasSnapshot calls sourceId) (more : List SnapshotCall) :
    HasSnapshot (calls ++ more) sourceId := by
  obtain ⟨id, hid⟩ := h
  exact ⟨id, hid.append more⟩

theorem ReadFor.append {sources : List SourceDescriptor} {ids : List Nat} (h : ReadFor calls sources ids)
    (more : List SnapshotCall) : ReadFor (calls ++ more) sources ids :=
  h.imp fun _ _ hof => hof.append more

/-- Snapshots of others take nothing away. -/
theorem CheckpointRun.Sound.append {run : CheckpointRun} (h : run.Sound calls) (more : List SnapshotCall) :
    run.Sound (calls ++ more) := by
  refine ⟨h.clean, ?_⟩
  have hphase := h.phase
  cases hrun : run.phase with
  | counting rest lacking =>
      rw [hrun] at hphase
      obtain ⟨hrest, hlacking, hall⟩ := hphase
      exact ⟨hrest, hlacking, fun source hsource => (hall source hsource).imp_right (Or.imp_right (·.append more))⟩
  | baselining rest =>
      rw [hrun] at hphase
      exact ⟨hphase.1, fun source hsource => (hphase.2 source hsource).imp_right (·.append more)⟩
  | reading checkpointId createdAtMs rest ids =>
      rw [hrun] at hphase
      obtain ⟨hall, gone, hsplit, hread⟩ := hphase
      exact ⟨fun source hsource => (hall source hsource).append more, gone, hsplit, hread.append more⟩
  | done checkpoint =>
      rw [hrun] at hphase
      exact ReadFor.append hphase more
  | failed error =>
      rw [hrun] at hphase
      exact hphase

namespace CheckpointWorld

/-- The repository is that of the calls, and each tag is the checkpoint of a call that is done. -/
structure Sound (w : CheckpointWorld) : Prop where
  repo : w.repo = TreeLedger.empty.commitAll w.calls
  calls : CleanCalls w.calls
  runs : ∀ run ∈ w.runs, run.Sound w.calls
  ordered : w.tags.Ordered
  tags : ∀ name checkpoint, w.tags.get name = some checkpoint →
    checkpoint.id = name ∧ ∃ run ∈ w.runs, run.phase = .done checkpoint

variable {w : CheckpointWorld} {i : Nat} {run : CheckpointRun} {phase : CheckpointPhase}

/-- All that can come of a snapshot. -/
theorem takeSnapshot_cases (w : CheckpointWorld) (call : SnapshotCall) :
    (∃ error, validateSourceId call.snapshotMeta.sourceId = .error error ∧ w.takeSnapshot call = (w, .error error)) ∨
      ∃ snapshot, validateSourceId call.snapshotMeta.sourceId = .ok () ∧ w.takeSnapshot call =
        ({ w with repo := w.repo.commitAll [call], calls := w.calls ++ [call] }, .ok snapshot) := by
  rw [takeSnapshot, TreeLedger.commitAll, List.foldl_cons, List.foldl_nil, TreeLedger.commitSnapshot,
    Ledger.commitSnapshot]
  cases validateSourceId call.snapshotMeta.sourceId with
  | error error => exact Or.inl ⟨error, rfl, rfl⟩
  | ok valid => exact Or.inr ⟨_, rfl, rfl⟩

theorem Sound.taken (h : w.Sound) {call : SnapshotCall} (hvalid : validateSourceId call.snapshotMeta.sourceId = .ok ())
    (hclean : call.Clean) :
    Sound { w with repo := w.repo.commitAll [call], calls := w.calls ++ [call] } where
  repo := by
    dsimp only
    rw [h.repo, TreeLedger.commitAll, TreeLedger.commitAll, TreeLedger.commitAll, List.foldl_append]
  calls := by
    refine ⟨fun other hother => ?_, fun other hother => ?_⟩
    · rcases List.mem_append.mp hother with hold | hnew
      · exact h.calls.valid other hold
      · rw [List.mem_singleton.mp hnew]
        exact hvalid
    · rcases List.mem_append.mp hother with hold | hnew
      · exact h.calls.clean other hold
      · rw [List.mem_singleton.mp hnew]
        exact hclean
  runs other hother := (h.runs other hother).append [call]
  ordered := h.ordered
  tags := h.tags

/-- A call that is not done goes on. -/
theorem Sound.goto (h : w.Sound) (hrun : w.runs[i]? = some run) (hopen : ∀ checkpoint, run.phase ≠ .done checkpoint)
    (hphase : phase.Sound w.calls run.sources) : (w.goto i run phase).Sound where
  repo := h.repo
  calls := h.calls
  runs other hother := by
    rcases List.mem_or_eq_of_mem_set hother with hold | rfl
    · exact h.runs other hold
    · exact ⟨(h.runs run (List.mem_of_getElem? hrun)).clean, hphase⟩
  ordered := h.ordered
  tags name checkpoint hget := by
    obtain ⟨hid, other, hother, hdone⟩ := h.tags name checkpoint hget
    obtain ⟨j, hj⟩ := List.mem_iff_getElem?.mp hother
    have hne : i ≠ j := by
      rintro rfl
      rw [hrun] at hj
      exact hopen checkpoint (Option.some.inj hj ▸ hdone)
    refine ⟨hid, other, List.mem_of_getElem? (i := j) ?_, hdone⟩
    rw [CheckpointWorld.goto, List.getElem?_set_ne hne, hj]

/-- The tag of a call that is done. -/
theorem Sound.tagged (h : w.Sound) {checkpoint : Checkpoint}
    (hgone : (w.goto i run (.done checkpoint)).Sound) (hlt : i < w.runs.length) :
    Sound { w.goto i run (.done checkpoint) with tags := w.tags.insert checkpoint.id checkpoint } where
  repo := hgone.repo
  calls := hgone.calls
  runs := hgone.runs
  ordered := h.ordered.insert
  tags name found hget := by
    dsimp only at hget
    rw [OrderedMap.get_insert] at hget
    split_ifs at hget with hname
    · obtain rfl := Option.some.inj hget
      exact ⟨hname, { run with phase := .done checkpoint }, List.mem_set hlt _, rfl⟩
    · exact hgone.tags name found hget

theorem Sound.turn (h : w.Sound) (hrun : w.runs[i]? = some run) {order : List Commit}
    (horder : w.repo.ledger.Walk order) {items : List (String × String)} {nowMs : Int} {uuid : String}
    (hcount : items.length < 2 ^ 32) (hlow : -2 ^ 63 ≤ nowMs) (hhigh : nowMs < 2 ^ 63) :
    (w.turn i run order items nowMs uuid).Sound := by
  have hsound := h.runs run (List.mem_of_getElem? hrun)
  have hphase := hsound.phase
  rw [h.repo] at horder
  rw [CheckpointWorld.turn]
  cases hat : run.phase with
  | counting rest lacking =>
      rw [hat] at hphase
      obtain ⟨hrest, hlacking, hall⟩ := hphase
      cases rest with
      | nil =>
          refine h.goto hrun (by rw [hat]; nofun) ⟨hlacking, fun source hsource => ?_⟩
          exact (hall source hsource).resolve_left List.not_mem_nil
      | cons source rest =>
          have hsource := hrest List.mem_cons_self
          refine h.goto hrun (by rw [hat]; nofun) ⟨fun _ hmem => hrest (List.mem_cons_of_mem _ hmem), ?_, ?_⟩
          · split_ifs
            · exact List.append_subset.mpr ⟨hlacking, List.cons_subset.mpr ⟨hsource, List.nil_subset _⟩⟩
            · exact hlacking
          · intro other hother
            have hfound : snapshotCountForSource order source.id ≠ 0 → HasSnapshot w.calls source.id := by
              intro hne
              obtain ⟨commit, hmem, hown⟩ := CleanCalls.exists_of_snapshotCountForSource hne
              obtain ⟨call, hcall, heq⟩ := (h.calls.mem_walk horder).mp hmem
              rw [heq, h.calls.snapshot_eq (List.mem_of_getElem? hcall)] at hown
              exact ⟨commit.id, call, hcall, hown⟩
            rcases hall other hother with hleft | hlack | hhas
            · rcases List.mem_cons.mp hleft with rfl | hrest'
              · by_cases hzero : snapshotCountForSource order other.id = 0
                · rw [if_pos hzero]
                  exact Or.inr (Or.inl (List.mem_append_right _ (List.mem_singleton_self _)))
                · exact Or.inr (Or.inr (hfound hzero))
              · exact Or.inl hrest'
            · refine Or.inr (Or.inl ?_)
              split_ifs
              · exact List.mem_append_left _ hlack
              · exact hlack
            · exact Or.inr (Or.inr hhas)
  | baselining rest =>
      rw [hat] at hphase
      obtain ⟨hrest, hall⟩ := hphase
      cases rest with
      | nil =>
          refine h.goto hrun (by rw [hat]; nofun) ⟨fun source hsource => ?_, [], rfl, .nil⟩
          exact (hall source hsource).resolve_left List.not_mem_nil
      | cons source rest =>
          have hclean := hsound.clean source (hrest List.mem_cons_self)
          dsimp only
          rcases w.takeSnapshot_cases ⟨⟨source.id, source.kind, source.label, .manual⟩, items, nowMs⟩ with
            ⟨error, herror, -⟩ | ⟨snapshot, hvalid, htaken⟩
          · rw [hclean.valid] at herror
            cases herror
          · rw [htaken]
            have hnext := h.taken hvalid ⟨hclean.id, hclean.kind, hcount, hlow, hhigh⟩
            refine hnext.goto hrun (by rw [hat]; nofun) ⟨fun _ hmem => hrest (List.mem_cons_of_mem _ hmem), ?_⟩
            intro other hother
            rcases hall other hother with hleft | hhas
            · rcases List.mem_cons.mp hleft with rfl | hrest'
              · exact Or.inr ⟨w.calls.length, _, List.getElem?_concat_length, rfl⟩
              · exact Or.inl hrest'
            · exact Or.inr (hhas.append _)
  | reading checkpointId createdAtMs rest ids =>
      rw [hat] at hphase
      obtain ⟨hall, gone, hsplit, hread⟩ := hphase
      cases rest with
      | nil =>
          dsimp only
          rw [List.append_nil] at hsplit
          split_ifs with hempty
          · refine h.goto hrun (by rw [hat]; nofun) (List.eq_nil_iff_forall_not_mem.mpr fun source hsource => ?_)
            obtain ⟨id, call, hcall, -⟩ := hall source hsource
            rw [h.repo, h.calls.commits, List.map_eq_nil_iff, List.zipIdx_eq_nil_iff] at hempty
            rw [hempty] at hcall
            cases hcall
          · have hgone : (w.goto i run (.done ⟨checkpointId, run.label, createdAtMs, ids⟩)).Sound :=
              h.goto hrun (by rw [hat]; nofun) (hsplit ▸ hread)
            exact h.tagged hgone (List.getElem?_eq_some_iff.mp hrun).1
      | cons source rest =>
          have hmem : source ∈ run.sources := hsplit ▸ List.mem_append_right _ List.mem_cons_self
          obtain ⟨id, hid⟩ := hall source hmem
          obtain ⟨snap, hsnap⟩ := Option.isSome_iff_exists.mp (h.calls.latestSnapshot_isSome horder hid)
          obtain ⟨call, hcall, hsource, -⟩ := h.calls.latestSnapshot_some horder hsnap
          dsimp only
          rw [hsnap]
          refine h.goto hrun (by rw [hat]; nofun) ⟨hall, gone ++ [source], ?_, ?_⟩
          · rw [hsplit, List.append_assoc, List.singleton_append]
          · exact List.rel_append hread (.cons ⟨call, hcall, hsource⟩ .nil)
  | done checkpoint => exact h
  | failed error => exact h

theorem Sound.advance (h : w.Sound) {label : CheckpointLabel} (hclean : w.Clean label)
    (hdelivered : w.Delivered label) : (w.advance label).Sound := by
  cases label with
  | takeSnapshot call =>
      rw [CheckpointWorld.advance]
      rcases w.takeSnapshot_cases call with ⟨error, -, htaken⟩ | ⟨snapshot, hvalid, htaken⟩
      · rw [htaken]
        exact h
      · rw [htaken]
        exact h.taken hvalid hclean
  | createCheckpoint label sources =>
      refine ⟨h.repo, h.calls, fun run hrun => ?_, h.ordered, fun name checkpoint hget => ?_⟩
      · rcases List.mem_append.mp hrun with hold | hnew
        · exact h.runs run hold
        · rw [List.mem_singleton.mp hnew]
          exact ⟨hclean, List.Subset.refl _, List.nil_subset _, fun source hsource => Or.inl hsource⟩
      · obtain ⟨hid, run, hrun, hdone⟩ := h.tags name checkpoint hget
        exact ⟨hid, run, List.mem_append_left _ hrun, hdone⟩
  | turn i order items nowMs uuid =>
      rw [CheckpointWorld.advance]
      cases hrun : w.runs[i]? with
      | none => exact h
      | some run => exact h.turn hrun hdelivered hclean.1 hclean.2.1 hclean.2.2
  | cleanup olderThanMs =>
      refine ⟨h.repo, h.calls, h.runs, List.Pairwise.filter _ h.ordered, fun name checkpoint hget => ?_⟩
      exact h.tags name checkpoint (h.ordered.get_filter.mp hget).1

end CheckpointWorld

theorem sound_checkpoints : checkpoints.start.Sound :=
  ⟨rfl, ⟨nofun, nofun⟩, nofun, OrderedMap.ordered_nil, nofun⟩

theorem sound_run {labels : List CheckpointLabel} (hclean : checkpoints.AllSteps CheckpointWorld.Clean labels)
    (hdelivered : checkpoints.AllSteps CheckpointWorld.Delivered labels) : (checkpoints.run labels).Sound := by
  have hboth : checkpoints.AllSteps (fun w label => w.Clean label ∧ w.Delivered label) labels :=
    fun done label rest hsplit => ⟨hclean done label rest hsplit, hdelivered done label rest hsplit⟩
  exact checkpoints.invariant_of_steps sound_checkpoints (fun w label h hok => h.advance hok.1 hok.2) hboth

section Sample

instance (w : CheckpointWorld) (order : List Commit) : Decidable (w.repo.ledger.Walk order) :=
  decidable_of_iff (order.Perm w.repo.ledger.commits ∧ order.Pairwise fun a b => b.seconds ≤ a.seconds)
    ⟨fun h => ⟨h.1, h.2⟩, fun h => ⟨h.perm, h.descending⟩⟩

instance (source : SourceDescriptor) : Decidable source.Clean :=
  decidable_of_iff (validateSourceId source.id = .ok () ∧ Text.trim source.id = source.id ∧ '\n' ∉ source.kind.toList)
    ⟨fun h => ⟨h.1, h.2.1, h.2.2⟩, fun h => ⟨h.valid, h.id, h.kind⟩⟩

instance (call : SnapshotCall) : Decidable call.Clean :=
  decidable_of_iff (Text.trim call.snapshotMeta.sourceId = call.snapshotMeta.sourceId ∧
      '\n' ∉ call.snapshotMeta.sourceKind.toList ∧ call.items.length < 2 ^ 32 ∧ -2 ^ 63 ≤ call.takenAtMs ∧
      call.takenAtMs < 2 ^ 63)
    ⟨fun h => ⟨h.1, h.2.1, h.2.2.1, h.2.2.2.1, h.2.2.2.2⟩, fun h => ⟨h.id, h.kind, h.count, h.low, h.high⟩⟩

instance (w : CheckpointWorld) : ∀ label, Decidable (w.Clean label)
  | .takeSnapshot call => inferInstanceAs (Decidable call.Clean)
  | .createCheckpoint _ sources => inferInstanceAs (Decidable (∀ source ∈ sources, source.Clean))
  | .turn _ _ items nowMs _ => inferInstanceAs (Decidable (items.length < 2 ^ 32 ∧ -2 ^ 63 ≤ nowMs ∧ nowMs < 2 ^ 63))
  | .cleanup _ => isTrue trivial

instance (w : CheckpointWorld) : ∀ label, Decidable (w.Delivered label)
  | .turn _ order _ _ _ => inferInstanceAs (Decidable (w.repo.ledger.Walk order))
  | .takeSnapshot _ | .createCheckpoint _ _ | .cleanup _ => isTrue trivial

def oldNote : SnapshotCall := Ledger.sampleCall "old" 5000

def newNote : SnapshotCall := Ledger.sampleCall "new" 6600

/-- A checkpoint of one source, and a snapshot of the source after it. -/
def checkpointThenSnapshot : List CheckpointLabel :=
  .takeSnapshot oldNote :: .createCheckpoint "base" [⟨"s", "k", "l"⟩] ::
    List.replicate 5 (.turn 0 [oldNote.commit 0] [] 6000 "u") ++ [.takeSnapshot newNote]

theorem run_checkpointThenSnapshot :
    checkpoints.StepsFrom CheckpointWorld.Clean checkpoints.start checkpointThenSnapshot ∧
      checkpoints.StepsFrom CheckpointWorld.Delivered checkpoints.start checkpointThenSnapshot ∧
      (checkpoints.run checkpointThenSnapshot).tags = [("ckpt_u", ⟨"ckpt_u", "base", 6000, [0]⟩)] ∧
      (checkpoints.run checkpointThenSnapshot).calls = [oldNote, newNote] ∧
      (checkpoints.run checkpointThenSnapshot).repo.ledger.Walk [newNote.commit 1, oldNote.commit 0] ∧
      [0].filter (Moved [oldNote, newNote] [newNote.commit 1, oldNote.commit 0]) = [0] := by
  decide +kernel

end Sample

end TinyCortex.Diff
