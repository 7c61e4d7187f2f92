import TinyCortex.Lib.Machine
import TinyCortex.TimeTree.Fold

/-! `run_summarization`, one file operation a step, so a crash may come between any two of them and the
buffer may grow meanwhile. A run folds each hour into its leaf under a receipt, propagates, deletes the
files that it read and takes the receipts away. A receipt over a leaf without metadata hides itself: a fold
on top of it takes the receipt for the metadata of the leaf. -/

namespace TinyCortex.TimeTree

open Table

/-- What a run has still to do. -/
inductive Phase
  | folding (hours : List Hour)
  | propagating (ids failed : List NodeId)
  | deleting (names : List BufferName)
  | clearing (hours : List Hour)
  deriving DecidableEq, Repr

/-- A run in progress, with the buffer that it read. -/
structure Run where
  number : Nat
  snapshot : List Entry
  phase : Phase
  deriving DecidableEq, Repr

/-- An hour leaf that was written, and what the summariser got for it. -/
structure Fold where
  run : Nat
  hour : Hour
  entries : List Entry
  input : String
  deriving DecidableEq, Repr

/-- The files of a namespace and the run in progress. The rest is history: the runs that started, the
entries that were buffered, the leaves and the upper nodes that were written, and the hours of the run that
the last step completed. -/
structure Runtime where
  buffer : List Entry
  nodes : List TreeNode
  run : Option Run
  runs : Nat
  buffered : List Entry
  folds : List Fold
  propagated : List (Nat × NodeId)
  completed : Option (List Hour)

namespace Runtime

inductive Label
  | bufferWrite (name : BufferName) (content : String)
  | start
  | advance (reply : Option String) (nowMs : Int)
  | crash
  deriving DecidableEq, Repr

def empty (initial : List TreeNode) : Runtime := ⟨[], initial, none, 0, [], [], [], none⟩

/-- `buffer_read`, sorted by file name. -/
def bufferRead (s : Runtime) : List Entry :=
  s.buffer.insertionSort fun a b => a.name.render ≤ b.name.render

def enter (s : Runtime) (run : Run) (phase : Phase) : Runtime :=
  { s with run := some { run with phase := phase } }

/-- The run returns, with or without an error. -/
def halt (s : Runtime) : Runtime := { s with run := none }

/-- One hour: its leaf is read, and written with the summary of what is new. -/
def foldHour (env : RuntimeEnv) (reply : Option String) (nowMs : Int) (s : Runtime) (run : Run)
    (hour : Hour) (hours : List Hour) : Runtime :=
  let group := hourGroup env run.snapshot hour
  let existing := readNode s.nodes hour.id
  let entries := newEntries existing group
  if entries = [] then if existing.isSome then s.enter run (.folding hours) else s.halt
  else
    match summarizeToLimit reply (env.maxTokens hour.id) with
    | none => s.halt
    | some summary =>
        { s.enter run (.folding hours) with
          nodes := writeNode (foldedLeaf hour group existing summary nowMs) s.nodes
          folds := s.folds ++ [⟨run.number, hour, entries, foldInput existing entries⟩] }

/-- One upper node. A failure is noted, and the run goes on. -/
def propagate (env : RuntimeEnv) (reply : Option String) (nowMs : Int) (s : Runtime) (run : Run)
    (id : NodeId) (ids failed : List NodeId) : Runtime :=
  match propagateNode env id reply nowMs s.nodes with
  | none => s.enter run (.propagating ids (failed ++ [id]))
  | some nodes =>
      { s.enter run (.propagating ids failed) with
        nodes := nodes
        propagated :=
          if readChildren s.nodes id = [] then s.propagated else s.propagated ++ [(run.number, id)] }

/-- The next operation of a run. -/
def advance (env : RuntimeEnv) (reply : Option String) (nowMs : Int) (s : Runtime) (run : Run) : Runtime :=
  match run.phase with
  | .folding [] => s.enter run (.propagating (propagationIds (groupHours env run.snapshot)) [])
  | .folding (hour :: hours) => foldHour env reply nowMs s run hour hours
  | .propagating [] failed =>
      if failed = [] then s.enter run (.deleting (run.snapshot.map Entry.name)) else s.halt
  | .propagating (id :: ids) failed => propagate env reply nowMs s run id ids failed
  | .deleting [] => s.enter run (.clearing (groupHours env run.snapshot))
  | .deleting (name :: names) =>
      { s.enter run (.deleting names) with buffer := s.buffer.filter fun entry => entry.name ≠ name }
  | .clearing [] => { s.halt with completed := some (groupHours env run.snapshot) }
  | .clearing (hour :: hours) =>
      { s.enter run (.clearing hours) with nodes := clearReceipt hour s.nodes }

def step (env : RuntimeEnv) (s : Runtime) : Label → Runtime
  | .bufferWrite name content =>
      { s with
        buffer := s.buffer ++ [⟨name, content⟩]
        buffered := s.buffered ++ [⟨name, content⟩]
        completed := none }
  | .start =>
      if s.run = none ∧ s.buffer ≠ [] then
        { s with
          run := some ⟨s.runs + 1, s.bufferRead, .folding (groupHours env s.bufferRead)⟩
          runs := s.runs + 1
          completed := none }
      else { s with completed := none }
  | .advance reply nowMs =>
      match s.run with
      | none => { s with completed := none }
      | some run => advance env reply nowMs { s with completed := none } run
  | .crash => { s with run := none, completed := none }

/-- Runs on a namespace that has a tree and no buffer, one at a time. -/
def machine (env : RuntimeEnv) (initial : List TreeNode) : Machine Runtime Label :=
  ⟨empty initial, step env⟩

/-- Every buffer file has a name of its own. -/
def Names (s : Runtime) : Label → Prop
  | .bufferWrite name _ => name ∉ s.buffered.map Entry.name
  | .start | .advance _ _ | .crash => True

instance (s : Runtime) : ∀ label, Decidable (Names s label)
  | .bufferWrite _ _ => inferInstanceAs (Decidable (_ ∉ _))
  | .start | .advance _ _ | .crash => isTrue trivial

/-- The names that were part of the input of a leaf. -/
def foldedNames (s : Runtime) : List BufferName := (s.folds.flatMap Fold.entries).map Entry.name

/-- The metadata that a node had before any fold. -/
def metadataBefore (initial : List TreeNode) (id : NodeId) : Option Metadata :=
  (readNode initial id).bind TreeNode.metadata

/-- The entry is in the input of the leaf of its hour, and a run that had this leaf has written everything
above it. -/
def Kept (env : RuntimeEnv) (s : Runtime) (entry : Entry) : Prop :=
  ∃ fold ∈ s.folds, entry ∈ fold.entries ∧ fold.hour = env.hourOf entry.name.millis ∧
    ∃ run, fold.run ≤ run ∧
      ∀ id ∈ (env.hourOf entry.name.millis).ancestors, (run, id) ∈ s.propagated

/-- No entry is folded twice, no entry leaves the buffer before it is folded and propagated, and a run that
completes leaves no receipt on the leaves that it touched. -/
structure FoldedOnce (env : RuntimeEnv) (initial : List TreeNode) (s : Runtime) : Prop where
  once : s.foldedNames.Nodup
  deleted : ∀ entry ∈ s.buffered, entry ∉ s.buffer → Kept env s entry
  cleared : ∀ hours, s.completed = some hours → ∀ hour ∈ hours,
    ∃ node, readNode s.nodes hour.id = some node ∧ pendingFoldReceipt node.metadata = none ∧
      node.metadata = metadataBefore initial hour.id

/-- The hour that the next step of a run folds. -/
def Run.nextHour (run : Run) : Option Hour :=
  match run.phase with
  | .folding (hour :: _) => some hour
  | .folding [] | .propagating _ _ | .deleting _ | .clearing _ => none

/-- No step folds new entries into a leaf whose receipt has no metadata under it. -/
def KeepsMetadata (env : RuntimeEnv) (s : Runtime) : Label → Prop
  | .advance _ _ => ∀ run ∈ s.run, ∀ hour ∈ Run.nextHour run,
      ∀ receipt ∈ leafReceipt (readNode s.nodes hour.id),
        newEntries (readNode s.nodes hour.id) (hourGroup env run.snapshot hour) ≠ [] →
          receipt.previousMetadata.isSome
  | .bufferWrite _ _ | .start | .crash => True

instance (env : RuntimeEnv) (s : Runtime) : ∀ label, Decidable (KeepsMetadata env s label)
  | .advance _ _ => inferInstanceAs (Decidable (∀ run ∈ s.run, ∀ hour ∈ Run.nextHour run,
      ∀ receipt ∈ leafReceipt (readNode s.nodes hour.id), _ → _))
  | .bufferWrite _ _ | .start | .crash => isTrue trivial

end Runtime
end TinyCortex.TimeTree
