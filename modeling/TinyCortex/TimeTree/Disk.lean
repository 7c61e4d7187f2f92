import TinyCortex.TimeTree.Fold

/-! The directories of a namespace that a rebuild swaps (`rebuild_fs.rs`): the live tree, its backup and the
staged replacement. An action is one file operation, and it is done at once or not at all. -/

namespace TinyCortex.TimeTree

open Table

/-- A tree directory. `dirs` are the directories for dates in it. `folded` is history: the entries whose
content went into the summary of a leaf. -/
structure TreeDir where
  buffer : Option (List Entry)
  dirs : List NodeId
  nodes : List TreeNode
  folded : List (NodeId × BufferName)

namespace TreeDir

def empty : TreeDir := ⟨none, [], [], []⟩

def entries (dir : TreeDir) : List Entry := dir.buffer.getD []

def foldedNames (dir : TreeDir) (id : NodeId) : List BufferName :=
  (dir.folded.filter fun pair => pair.1 = id).map Prod.snd

/-- Nothing is in the directory, so a directory may be renamed over it. -/
def Vacant (dir : TreeDir) : Prop := dir.buffer.isNone ∧ dir.dirs = [] ∧ dir.nodes.isEmpty

instance (dir : TreeDir) : Decidable dir.Vacant := inferInstanceAs (Decidable (_ ∧ _ ∧ _))

/-- `create_dir_all` of the directory of a date. -/
def makeDirs (path : NodeId) (dir : TreeDir) : TreeDir :=
  { dir with dirs := dir.dirs ++ path.inits.filter fun path => path ≠ [] ∧ path ∉ dir.dirs }

/-- The file of a node is replaced, and with it what was folded into it. -/
def save (node : TreeNode) (names : List BufferName) (dir : TreeDir) : TreeDir :=
  { dir with
    nodes := writeNode node dir.nodes
    folded := (dir.folded.filter fun pair => pair.1 ≠ node.id) ++ names.map fun name => (node.id, name) }

def deleteEntry (name : BufferName) (dir : TreeDir) : TreeDir :=
  { dir with buffer := dir.buffer.map fun entries => entries.filter fun entry => entry.name ≠ name }

/-- What `read_dir` lists of a date: the dates in it, and the hour leaves of a day. -/
def children (dir : TreeDir) (path : NodeId) : List NodeId :=
  (dir.dirs.filter fun id => id ≠ [] ∧ id.dropLast = path) ++
    (dir.nodes.map TreeNode.id).filter fun id => id.length = 4 ∧ id.dropLast = path

/-- The leaf is there, with these entries folded in it. -/
def Holds (dir : TreeDir) (id : NodeId) (names : List BufferName) : Prop :=
  (readNode dir.nodes id).isSome ∧ ∀ name ∈ names, (id, name) ∈ dir.folded

instance (dir : TreeDir) (id : NodeId) (names : List BufferName) : Decidable (dir.Holds id names) :=
  inferInstanceAs (Decidable (_ ∧ _))

end TreeDir

/-- The directory of the file of a node: an hour leaf is a file of its day. -/
def nodeDir (id : NodeId) : NodeId := if id.length = 4 then id.dropLast else id

/-- A part of a tree that a recursive delete takes away before the rest. -/
inductive Part
  | entry (name : BufferName)
  | node (id : NodeId)
  | buffer
  | dir (path : NodeId)
  deriving DecidableEq, Repr

/-- A directory goes only when nothing is in it. -/
def TreeDir.remove (dir : TreeDir) : Part → TreeDir
  | .entry name => dir.deleteEntry name
  | .node id => { dir with nodes := dir.nodes.filter fun node => node.id ≠ id }
  | .buffer => if dir.entries = [] then { dir with buffer := none } else dir
  | .dir path =>
      if (∀ node ∈ dir.nodes, ¬path <+: node.id) ∧ ∀ id ∈ dir.dirs, path <+: id → id = path then
        { dir with dirs := dir.dirs.filter fun id => id ≠ path }
      else dir

/-- The files of a namespace. The rest is history: how often the live tree was moved to the backup, the
entries that were buffered, and the hour leaves that were written. -/
structure Disk where
  active : Option TreeDir
  backup : Option TreeDir
  staged : Option TreeDir
  swaps : Nat
  buffered : List Entry
  written : List (NodeId × List BufferName)

/-- A file operation. The operations on a path are on the live tree where nothing else is said. -/
inductive Action
  | read
  | createBuffer
  | createDirs (path : NodeId)
  | writeEntry (entry : Entry)
  | saveNode (node : TreeNode) (names : List BufferName)
  | deleteEntry (name : BufferName)
  | restoreBackup
  | adoptEntry (name : BufferName)
  | removePart (part : Part)
  | removeBackup
  | clearStaged
  | stageNode (node : TreeNode) (names : List BufferName)
  | moveActive
  | moveStaged

namespace Disk

def empty : Disk := ⟨none, none, none, 0, [], []⟩

def activeEntries (disk : Disk) : List Entry := (disk.active.map TreeDir.entries).getD []

def backupEntries (disk : Disk) : List Entry := (disk.backup.map TreeDir.entries).getD []

def activeNodes (disk : Disk) : List TreeNode := (disk.active.map TreeDir.nodes).getD []

def stagedNodes (disk : Disk) : List TreeNode := (disk.staged.map TreeDir.nodes).getD []

/-- What is folded into a leaf of the live tree. -/
def activeFolded (disk : Disk) (id : NodeId) : List BufferName :=
  (disk.active.map fun dir => dir.foldedNames id).getD []

/-- A directory may be renamed to a path where there is none, or an empty one. -/
def Free (target : Option TreeDir) : Prop := ∀ dir ∈ target, dir.Vacant

instance (target : Option TreeDir) : Decidable (Free target) :=
  inferInstanceAs (Decidable (∀ dir ∈ target, dir.Vacant))

/-- The history of leaves, with the leaf that a save wrote. -/
def wrote (disk : Disk) (id : NodeId) (names : List BufferName) : List (NodeId × List BufferName) :=
  if id.length = 4 then disk.written ++ [(id, names)] else disk.written

/-- One file operation, or nothing where it fails. -/
def perform (disk : Disk) : Action → Option Disk
  | .read => some disk
  | .createBuffer =>
      let dir := disk.active.getD .empty
      some { disk with active := some { dir with buffer := some dir.entries } }
  | .createDirs path => some { disk with active := some ((disk.active.getD .empty).makeDirs path) }
  | .writeEntry entry => do
      let dir ← disk.active
      let entries ← dir.buffer
      some
        { disk with
          active := some { dir with buffer := some (entries ++ [entry]) }
          buffered := disk.buffered ++ [entry] }
  | .saveNode node names => do
      let dir ← disk.active
      if nodeDir node.id = [] ∨ nodeDir node.id ∈ dir.dirs then
        some { disk with active := some (dir.save node names), written := disk.wrote node.id names }
      else none
  | .deleteEntry name => some { disk with active := disk.active.map (TreeDir.deleteEntry name) }
  | .restoreBackup => do
      let dir ← disk.backup
      if Free disk.active then some { disk with active := some dir, backup := none } else none
  | .adoptEntry name => do
      let dir ← disk.active
      let entries ← dir.buffer
      let backup ← disk.backup
      let entry ← backup.entries.find? fun entry => entry.name = name
      some
        { disk with
          active := some { dir with buffer := some ((entries.filter fun entry => entry.name ≠ name) ++ [entry]) }
          backup := some (backup.deleteEntry name) }
  | .removePart part => do
      let dir ← disk.backup
      some { disk with backup := some (dir.remove part) }
  | .removeBackup => do
      let _ ← disk.backup
      some { disk with backup := none }
  | .clearStaged => some { disk with staged := none }
  | .stageNode node names =>
      some { disk with staged := some (((disk.staged.getD .empty).makeDirs (nodeDir node.id)).save node names) }
  | .moveActive => do
      let dir ← disk.active
      if Free disk.backup then some { disk with active := none, backup := some dir, swaps := disk.swaps + 1 }
      else none
  | .moveStaged => do
      let dir ← disk.staged
      if Free disk.active then some { disk with active := some dir, staged := none } else none

/-- `recover_interrupted_swap`, when nothing else happens. -/
def recoverInterruptedSwap (disk : Disk) : Disk :=
  match disk.backup, disk.active with
  | none, _ => disk
  | some backup, none => { disk with active := some backup, backup := none }
  | some backup, some active =>
      let adopted := backup.entries.filter fun entry => entry.name ∉ active.entries.map Entry.name
      { disk with
        active := some
          { active with
            buffer := if backup.buffer.isSome then some (active.entries ++ adopted) else active.buffer }
        backup := none }

end Disk
end TinyCortex.TimeTree
