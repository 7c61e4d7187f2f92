import TinyCortex.Lib.Interleaving
import TinyCortex.Lib.Machine
import TinyCortex.TimeTree.Disk

/-! `rebuild_tree`, `run_summarization` and `buffer_write` on one namespace, one file operation a step, in any
order, with an error or a crash anywhere (`engine.rs`, `rebuild_fs.rs`, `store/buffer.rs`). A write to the
buffer makes the live directory where there is none, also between the two renames of a swap. The recovery
then takes the new directory for the rebuilt tree, and deletes the backup with all the leaves in it. -/

namespace TinyCortex.TimeTree.Swap

open Interleaving

/-- What a step takes from outside: part of the name of a buffer file, the reply of the summariser, the clock,
the part that a recursive delete removes next (all that is left where there is none), and whether the
operation fails. -/
structure External where
  uuid : String
  reply : Option String
  nowMs : Int
  part : Option Part
  fails : Bool
  deriving DecidableEq, Repr

/-- The next file operation, and what is left to do when it succeeds and when it fails. -/
structure Turn (τ : Type) where
  action : Action
  ok : Option τ
  failed : Option τ

def Turn.take {τ : Type} (turn : Turn τ) (fails : Bool) (disk : Disk) : Disk × Option τ :=
  if fails then (disk, turn.failed)
  else
    match disk.perform turn.action with
    | some next => (next, turn.ok)
    | none => (disk, turn.failed)

/-! ### Recovery -/

/-- What a recovery has still to do. From when it goes on with a backup it is known how many swaps there were
(history). -/
inductive Recovery
  | start
  | startForPaths
  | decide
  | restore
  | findBuffer (swap : Nat)
  | createBuffer (swap : Nat)
  | listBuffer (swap : Nat)
  | adopt (swap : Nat) (names : List BufferName)
  | moveEntry (swap : Nat) (name : BufferName) (names : List BufferName)
  | remove (swap : Nat)
  deriving DecidableEq, Repr

inductive Progress
  | more (recovery : Recovery)
  | done
  | failed
  deriving DecidableEq, Repr

/-- `recover_interrupted_swap`, and `recover_interrupted_swap_for_paths` from its own start. A recovery whose
operation fails returns the error. -/
def Recovery.turn (disk : Disk) (part : Option Part) : Recovery → Action × Progress
  | .start => (.read, if disk.backup.isNone then .done else .more .decide)
  | .startForPaths => (.read, if disk.backup.isNone then .done else .more (.findBuffer disk.swaps))
  | .decide => (.read, .more (if disk.active.isNone then .restore else .findBuffer disk.swaps))
  | .restore => (.restoreBackup, .done)
  | .findBuffer swap =>
      (.read, .more (if (disk.backup.bind TreeDir.buffer).isSome then .createBuffer swap else .remove swap))
  | .createBuffer swap => (.createBuffer, .more (.listBuffer swap))
  | .listBuffer swap =>
      (.read,
        match disk.backup.bind TreeDir.buffer with
        | none => .failed
        | some entries => .more (.adopt swap (entries.map Entry.name)))
  | .adopt swap [] => (.read, .more (.remove swap))
  | .adopt swap (name :: names) =>
      (.read,
        .more (if name ∈ disk.activeEntries.map Entry.name then .adopt swap names
          else .moveEntry swap name names))
  | .moveEntry swap name names => (.adoptEntry name, .more (.adopt swap names))
  | .remove swap =>
      match part with
      | none => (.removeBackup, .done)
      | some part => (.removePart part, .more (.remove swap))

/-- A recovery as part of an operation. -/
def Recovery.within {τ : Type} (disk : Disk) (part : Option Part) (recovery : Recovery) (more : Recovery → τ)
    (done : Option τ) : Turn τ :=
  let (action, progress) := recovery.turn disk part
  ⟨action, match progress with | .more next => some (more next) | .done => done | .failed => none, none⟩

/-! ### Writes to the buffer -/

/-- `buffer_write`, which does not recover. -/
inductive BufferWrite
  | createDir (millis : Int) (content : String)
  | writeEntry (millis : Int) (content : String)
  deriving DecidableEq, Repr

def BufferWrite.turn (external : External) : BufferWrite → Turn BufferWrite
  | .createDir millis content => ⟨.createBuffer, some (.writeEntry millis content), none⟩
  | .writeEntry millis content => ⟨.writeEntry ⟨⟨millis, external.uuid⟩, content⟩, none, none⟩

/-! ### Summarisation -/

/-- A node that is about to be written: `create_dir_all`, then the rename of the finished file. -/
structure Save where
  node : TreeNode
  names : List BufferName
  created : Bool

def Save.turn {τ : Type} (save : Save) (created : Save → τ) (saved failed : Option τ) : Turn τ :=
  if save.created then ⟨.saveNode save.node save.names, saved, failed⟩
  else ⟨.createDirs (nodeDir save.node.id), some (created { save with created := true }), failed⟩

inductive Summarisation.Phase
  | recovering (recovery : Recovery)
  | listing
  | reading (names : List BufferName)
  | folding (hours : List Hour)
  | savingLeaf (save : Save) (hours : List Hour)
  | propagating (ids failed : List NodeId)
  | savingSummary (save : Save) (ids failed : List NodeId)
  | deleting (names : List BufferName)
  | clearing (hours : List Hour)
  | savingCleared (save : Save) (hours : List Hour)

/-- `run_summarization`, with the buffer as far as it has read it. -/
structure Summarisation where
  snapshot : List Entry
  phase : Summarisation.Phase

namespace Summarisation

def start : Summarisation := ⟨[], .recovering .start⟩

def goOn (op : Summarisation) (phase : Phase) : Turn Summarisation :=
  ⟨.read, some { op with phase := phase }, none⟩

/-- The operation returns. -/
def stop : Turn Summarisation := ⟨.read, none, none⟩

/-- The leaf of an hour is read, and folded with what is new. -/
def fold (env : RuntimeEnv) (external : External) (disk : Disk) (op : Summarisation) (hour : Hour)
    (hours : List Hour) : Turn Summarisation :=
  let group := hourGroup env op.snapshot hour
  let existing := readNode disk.activeNodes hour.id
  let entries := newEntries existing group
  if entries = [] then if existing.isSome then op.goOn (.folding hours) else stop
  else
    match summarizeToLimit external.reply (env.maxTokens hour.id) with
    | none => stop
    | some summary =>
        let names := disk.activeFolded hour.id ++ entries.map Entry.name
        op.goOn (.savingLeaf ⟨foldedLeaf hour group existing summary external.nowMs, names, false⟩ hours)

/-- A failure to propagate is noted. -/
def propagate (env : RuntimeEnv) (external : External) (disk : Disk) (op : Summarisation) (id : NodeId)
    (ids failed : List NodeId) : Turn Summarisation :=
  let noted := some { op with phase := Phase.propagating ids (failed ++ [id]) }
  match propagatedNode env id external.reply external.nowMs disk.activeNodes with
  | none => ⟨.read, noted, noted⟩
  | some none => ⟨.read, some { op with phase := .propagating ids failed }, noted⟩
  | some (some node) => ⟨.read, some { op with phase := .savingSummary ⟨node, [], false⟩ ids failed }, noted⟩

/-- The leaf of an hour is read, and written without its receipt. -/
def clear (disk : Disk) (op : Summarisation) (hour : Hour) (hours : List Hour) : Turn Summarisation :=
  match readNode disk.activeNodes hour.id with
  | none => op.goOn (.clearing hours)
  | some node =>
      match pendingFoldReceipt node.metadata with
      | none => op.goOn (.clearing hours)
      | some receipt =>
          let cleared := { node with metadata := receipt.previousMetadata }
          op.goOn (.savingCleared ⟨cleared, disk.activeFolded hour.id, false⟩ hours)

def turn (env : RuntimeEnv) (external : External) (disk : Disk) (op : Summarisation) : Turn Summarisation :=
  match op.phase with
  | .recovering recovery =>
      recovery.within disk external.part (fun next => { op with phase := .recovering next })
        (some { op with phase := .listing })
  | .listing =>
      if disk.activeEntries = [] then stop
      else
        op.goOn (.reading ((disk.activeEntries.map Entry.name).insertionSort fun a b => a.render ≤ b.render))
  | .reading [] => op.goOn (.folding (groupHours env op.snapshot))
  | .reading (name :: names) =>
      match disk.activeEntries.find? fun entry => entry.name = name with
      | none => stop
      | some entry => ⟨.read, some ⟨op.snapshot ++ [entry], .reading names⟩, none⟩
  | .folding [] => op.goOn (.propagating (propagationIds (groupHours env op.snapshot)) [])
  | .folding (hour :: hours) => fold env external disk op hour hours
  | .savingLeaf save hours =>
      save.turn (fun save => { op with phase := .savingLeaf save hours })
        (some { op with phase := .folding hours }) none
  | .propagating [] failed =>
      if failed = [] then op.goOn (.deleting (op.snapshot.map Entry.name)) else stop
  | .propagating (id :: ids) failed => propagate env external disk op id ids failed
  | .savingSummary save ids failed =>
      save.turn (fun save => { op with phase := .savingSummary save ids failed })
        (some { op with phase := .propagating ids failed })
        (some { op with phase := .propagating ids (failed ++ [save.node.id]) })
  | .deleting [] => op.goOn (.clearing (groupHours env op.snapshot))
  | .deleting (name :: names) => ⟨.deleteEntry name, some { op with phase := .deleting names }, none⟩
  | .clearing [] => stop
  | .clearing (hour :: hours) => clear disk op hour hours
  | .savingCleared save hours =>
      save.turn (fun save => { op with phase := .savingCleared save hours })
        (some { op with phase := .clearing hours }) none

end Summarisation

/-! ### The rebuild -/

/-- A leaf as it was collected. -/
structure Leaf where
  node : TreeNode
  names : List BufferName

/-- `rebuild_tree`: `prepare` is from `preparing` on, `publish` from `findBackup`. -/
inductive Rebuild
  | recovering (recovery : Recovery)
  | counting
  | collecting (paths : List NodeId) (leaves : List Leaf)
  | preparing (recovery : Recovery) (leaves : List Leaf)
  | clearing (leaves : List Leaf)
  | staging (todo leaves : List Leaf)
  | propagating (ids : List NodeId)
  | findBackup
  | removing
  | findActive
  | moveActive
  | moveStaged
  | findRollback
  | rollback
  | adopting (recovery : Recovery)

/-- The nodes over the leaves, each level in the order of its ids. -/
def rebuildIds (leaves : List Leaf) : List NodeId :=
  let level := fun n => ((leaves.map fun leaf => leaf.node.id.take n).eraseDups).insertionSort
    fun a b : NodeId => NodeId.render a ≤ NodeId.render b
  level 3 ++ (level 2 ++ (level 1 ++ [[]]))

namespace Rebuild

def goOn (next : Rebuild) : Turn Rebuild := ⟨.read, some next, none⟩

def stop : Turn Rebuild := ⟨.read, none, none⟩

/-- One path of `collect_hour_leaves`: a leaf is read, a directory is listed. -/
def collect (disk : Disk) (path : NodeId) (paths : List NodeId) (leaves : List Leaf) : Turn Rebuild :=
  if path.length = 4 then
    match readNode disk.activeNodes path with
    | none => stop
    | some node => goOn (.collecting paths (leaves ++ [⟨node, disk.activeFolded path⟩]))
  else
    match disk.active with
    | none => goOn (.collecting paths leaves)
    | some dir => goOn (.collecting (dir.children path ++ paths) leaves)

/-- A failure to propagate is dropped. -/
def propagate (env : RuntimeEnv) (external : External) (disk : Disk) (id : NodeId) (ids : List NodeId) :
    Turn Rebuild :=
  let next := some (Rebuild.propagating ids)
  match propagatedNode env id external.reply external.nowMs disk.stagedNodes with
  | none | some none => ⟨.read, next, next⟩
  | some (some node) => ⟨.stageNode node [], next, next⟩

def turn (env : RuntimeEnv) (external : External) (disk : Disk) : Rebuild → Turn Rebuild
  | .recovering recovery => recovery.within disk external.part .recovering (some .counting)
  | .counting => if disk.activeNodes.isEmpty then stop else goOn (.collecting [[]] [])
  | .collecting [] leaves => if leaves.isEmpty then stop else goOn (.preparing .start leaves)
  | .collecting (path :: paths) leaves => collect disk path paths leaves
  | .preparing recovery leaves =>
      recovery.within disk external.part (fun next => .preparing next leaves) (some (.clearing leaves))
  | .clearing leaves => ⟨.clearStaged, some (.staging leaves leaves), none⟩
  | .staging [] leaves => goOn (.propagating (rebuildIds leaves))
  | .staging (leaf :: todo) leaves => ⟨.stageNode leaf.node leaf.names, some (.staging todo leaves), none⟩
  | .propagating [] => goOn .findBackup
  | .propagating (id :: ids) => propagate env external disk id ids
  | .findBackup => goOn (if disk.backup.isNone then .findActive else .removing)
  | .removing =>
      match external.part with
      | none => ⟨.removeBackup, some .findActive, none⟩
      | some part => ⟨.removePart part, some .removing, none⟩
  | .findActive => goOn (if disk.active.isSome then .moveActive else .moveStaged)
  | .moveActive => ⟨.moveActive, some .moveStaged, none⟩
  | .moveStaged => ⟨.moveStaged, some (.adopting .startForPaths), some .findRollback⟩
  | .findRollback => if disk.active.isNone ∧ disk.backup.isSome then goOn .rollback else stop
  | .rollback => ⟨.restoreBackup, none, none⟩
  | .adopting recovery => recovery.within disk external.part .adopting none

/-- The rebuild is past this leaf, and has not yet moved the live tree. -/
def Past (id : NodeId) : Rebuild → Prop
  | .collecting paths _ => ∀ path ∈ paths, ¬path <+: id
  | .preparing _ _ | .clearing _ | .staging _ _ | .propagating _ | .findBackup | .removing | .findActive
  | .moveActive => True
  | .recovering _ | .counting | .moveStaged | .findRollback | .rollback | .adopting _ => False

instance (id : NodeId) : ∀ rebuild : Rebuild, Decidable (rebuild.Past id)
  | .collecting paths _ => inferInstanceAs (Decidable (∀ path ∈ paths, ¬path <+: id))
  | .preparing _ _ | .clearing _ | .staging _ _ | .propagating _ | .findBackup | .removing | .findActive
  | .moveActive => isTrue trivial
  | .recovering _ | .counting | .moveStaged | .findRollback | .rollback | .adopting _ => isFalse fun h => h

end Rebuild

/-! ### All operations -/

/-- The files of a namespace and the operations on it. -/
structure System where
  disk : Disk
  rebuild : Option Rebuild
  runs : List Summarisation
  writes : List BufferWrite

/-- Rebuilds come one at a time. A crash ends every operation. -/
inductive Label
  | startRebuild
  | startRun
  | startWrite (millis : Int) (content : String)
  | rebuild (external : External)
  | run (i : Nat) (external : External)
  | write (i : Nat) (external : External)
  | crash
  deriving DecidableEq, Repr

def System.empty : System := ⟨.empty, none, [], []⟩

def step (env : RuntimeEnv) (s : System) : Label → System
  | .startRebuild => { s with rebuild := s.rebuild.or (some (.recovering .start)) }
  | .startRun => { s with runs := s.runs ++ [.start] }
  | .startWrite millis content => { s with writes := s.writes ++ [.createDir millis content] }
  | .rebuild external =>
      match s.rebuild with
      | none => s
      | some rebuild =>
          let (disk, next) := (rebuild.turn env external s.disk).take external.fails s.disk
          { s with disk := disk, rebuild := next }
  | .run i external =>
      match s.runs[i]? with
      | none => s
      | some op =>
          let (disk, next) := (op.turn env external s.disk).take external.fails s.disk
          { s with disk := disk, runs := replace i next s.runs }
  | .write i external =>
      match s.writes[i]? with
      | none => s
      | some op =>
          let (disk, next) := (op.turn external).take external.fails s.disk
          { s with disk := disk, writes := replace i next s.writes }
  | .crash => { s with rebuild := none, runs := [], writes := [] }

/-- All operations on a namespace that has nothing yet. -/
def machine (env : RuntimeEnv) : Machine System Label := ⟨.empty, step env⟩

/-- The tree that the next recovery leaves. -/
def Recovered (disk : Disk) (id : NodeId) (names : List BufferName) : Prop :=
  ∃ dir ∈ disk.recoverInterruptedSwap.active, dir.Holds id names

/-- Every entry that was buffered is in the live buffer, in the backup buffer or folded into the leaf of its
hour, and every leaf that was written is in the tree, with what was folded into it. -/
structure Kept (env : RuntimeEnv) (disk : Disk) : Prop where
  entries : ∀ entry ∈ disk.buffered,
    entry ∈ disk.activeEntries ∨ entry ∈ disk.backupEntries ∨
      Recovered disk (env.hourOf entry.name.millis).id [entry.name]
  leaves : ∀ leaf ∈ disk.written, Recovered disk leaf.1 leaf.2

/-- Every buffer file has a name of its own. -/
def Fresh (disk : Disk) : Action → Prop
  | .writeEntry entry => entry.name ∉ disk.buffered.map Entry.name
  | .read | .createBuffer | .createDirs _ | .saveNode _ _ | .deleteEntry _ | .restoreBackup | .adoptEntry _
  | .removePart _ | .removeBackup | .clearStaged | .stageNode _ _ | .moveActive | .moveStaged => True

instance (disk : Disk) : ∀ action, Decidable (Fresh disk action)
  | .writeEntry entry => inferInstanceAs (Decidable (entry.name ∉ disk.buffered.map Entry.name))
  | .read | .createBuffer | .createDirs _ | .saveNode _ _ | .deleteEntry _ | .restoreBackup | .adoptEntry _
  | .removePart _ | .removeBackup | .clearStaged | .stageNode _ _ | .moveActive | .moveStaged => isTrue trivial

def Names (s : System) : Label → Prop
  | .write i external => ∀ op ∈ s.writes[i]?, Fresh s.disk (op.turn external).action
  | .startRebuild | .startRun | .startWrite _ _ | .rebuild _ | .run _ _ | .crash => True

instance (s : System) : ∀ label, Decidable (Names s label)
  | .write i external =>
      inferInstanceAs (Decidable (∀ op ∈ s.writes[i]?, Fresh s.disk (op.turn external).action))
  | .startRebuild | .startRun | .startWrite _ _ | .rebuild _ | .run _ _ | .crash => isTrue trivial

/-- The live directory is not made while the tree is in the backup. A leaf is not written over what its reader
did not see, and nothing is folded into a leaf that a rebuild is past. -/
def Undisturbed (disk : Disk) (rebuild : Option Rebuild) : Action → Prop
  | .createBuffer | .createDirs _ => disk.active.isSome ∨ disk.backup.isNone
  | .saveNode node names => node.id.length = 4 →
      disk.activeFolded node.id ⊆ names ∧
        ∀ op ∈ rebuild, op.Past node.id → ∀ dir ∈ disk.active, dir.Holds node.id names
  | .read | .writeEntry _ | .deleteEntry _ | .restoreBackup | .adoptEntry _ | .removePart _ | .removeBackup
  | .clearStaged | .stageNode _ _ | .moveActive | .moveStaged => True

instance (disk : Disk) (rebuild : Option Rebuild) : ∀ action, Decidable (Undisturbed disk rebuild action)
  | .createBuffer | .createDirs _ => inferInstanceAs (Decidable (disk.active.isSome ∨ disk.backup.isNone))
  | .saveNode node names => inferInstanceAs (Decidable (node.id.length = 4 →
      disk.activeFolded node.id ⊆ names ∧
        ∀ op ∈ rebuild, op.Past node.id → ∀ dir ∈ disk.active, dir.Holds node.id names))
  | .read | .writeEntry _ | .deleteEntry _ | .restoreBackup | .adoptEntry _ | .removePart _ | .removeBackup
  | .clearStaged | .stageNode _ _ | .moveActive | .moveStaged => isTrue trivial

/-- The swaps that there were when a recovery found the backup that it is deleting. -/
def Summarisation.deletes (op : Summarisation) : Option Nat :=
  match op.phase with
  | .recovering (.remove swap) => some swap
  | _ => none

/-- No operation gets in the way of a swap, and no two summarisations in the way of each other. A recovery
deletes the backup that it found, not one that was made since. -/
def Apart (env : RuntimeEnv) (s : System) : Label → Prop
  | .run i external => ∀ op ∈ s.runs[i]?,
      Undisturbed s.disk s.rebuild (op.turn env external s.disk).action ∧
        ∀ swap ∈ op.deletes, swap = s.disk.swaps
  | .write i external => ∀ op ∈ s.writes[i]?, Undisturbed s.disk s.rebuild (op.turn external).action
  | .startRebuild | .startRun | .startWrite _ _ | .rebuild _ | .crash => True

instance (env : RuntimeEnv) (s : System) : ∀ label, Decidable (Apart env s label)
  | .run i external => inferInstanceAs (Decidable (∀ op ∈ s.runs[i]?,
      Undisturbed s.disk s.rebuild (op.turn env external s.disk).action ∧
        ∀ swap ∈ op.deletes, swap = s.disk.swaps))
  | .write i external => inferInstanceAs (Decidable (∀ op ∈ s.writes[i]?,
      Undisturbed s.disk s.rebuild (op.turn external).action))
  | .startRebuild | .startRun | .startWrite _ _ | .rebuild _ | .crash => isTrue trivial

end TinyCortex.TimeTree.Swap
