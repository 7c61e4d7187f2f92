import TinyCortex.Lib.Machine
import TinyCortex.Tree.BucketSeal

/-! Appends and concurrent seals as a machine. A seal is two steps, the snapshot and the commit, with
any steps of other callers between them; a crashed seal is one that never commits. Summariser output,
clock readings and minted ids come with the labels. -/

namespace TinyCortex.SummaryTree

open Table

/-- How far a seal has come; a commit notes the step it happened at and the summary it wrote. -/
inductive SealPhase
  | summarising
  | committed (atStep : Nat) (summaryId : String)
  | aborted
  deriving DecidableEq, Repr

/-- A seal from its snapshot on. -/
structure SealRun where
  snapshot : Buffer
  inputs : List SummaryInput
  beganAt : Nat
  phase : SealPhase
  deriving DecidableEq, Repr

/-- The database, the seals begun so far, the number of steps taken, and every item appended so far
with the buffer it went to. -/
structure World where
  db : Db
  seals : List SealRun
  steps : Nat
  appended : List ((String × Nat) × String)
  deriving DecidableEq, Repr

inductive Label
  | append (treeId : String) (level : Nat) (itemId : String) (tokenDelta itemTs : Int)
  | snapshot (treeId : String) (level : Nat)
  | commit (run : Nat) (summaryId : String) (tokenCount : Nat) (nowMs : Int)
      (enqueueFollowUps : Bool)
  deriving DecidableEq, Repr

/-- Append an item; nothing changes when the tree is missing or archived. -/
def World.append (w : World) (treeId : String) (level : Nat) (itemId : String)
    (tokenDelta itemTs : Int) : World :=
  match appendToBuffer treeId level itemId tokenDelta itemTs w.db with
  | .ok db => { w with db := db, appended := w.appended ++ [((treeId, level), itemId)] }
  | .error _ => w

/-- Begin a seal: snapshot the buffer and hydrate it. -/
def World.snapshot (w : World) (treeId : String) (level : Nat) : World :=
  let buf := w.db.getBuffer treeId level
  match sealInputs w.db buf with
  | .ok inputs => { w with seals := w.seals ++ [⟨buf, inputs, w.steps, .summarising⟩] }
  | .error _ => w

/-- A seal in flight commits, or aborts when its transaction does. -/
def World.commit (config : TreeConfig) (w : World) (i : Nat) (run : SealRun) (summaryId : String)
    (tokenCount : Nat) (nowMs : Int) (enqueueFollowUps : Bool) : World :=
  match commitSeal config run.snapshot
      (sealedNode run.snapshot run.inputs summaryId tokenCount nowMs) nowMs enqueueFollowUps w.db with
  | .ok (db, _) =>
      { w with db := db, seals := w.seals.set i { run with phase := .committed w.steps summaryId } }
  | .error _ => { w with seals := w.seals.set i { run with phase := .aborted } }

def advance (config : TreeConfig) (w : World) (label : Label) : World :=
  let next := match label with
    | .append treeId level itemId tokenDelta itemTs => w.append treeId level itemId tokenDelta itemTs
    | .snapshot treeId level => w.snapshot treeId level
    | .commit i summaryId tokenCount nowMs enqueueFollowUps =>
        match w.seals[i]? with
        | some run =>
            if run.phase = SealPhase.summarising then
              w.commit config i run summaryId tokenCount nowMs enqueueFollowUps
            else w
        | none => w
  { next with steps := w.steps + 1 }

/-- Freshly created trees over a chunk table, with nothing appended yet. -/
def World.empty (trees : List Tree) (chunks : List Chunks.Chunk) : World :=
  ⟨⟨trees, chunks, [], []⟩, [], 0, []⟩

/-- Appends and seals in any order, on any number of trees. -/
def sealing (config : TreeConfig) (trees : List Tree) (chunks : List Chunks.Chunk) :
    Machine World Label := ⟨World.empty trees chunks, advance config⟩

/-- What one step can do: nothing but count, land an append, begin a seal, abort one, or commit one. -/
inductive Step (config : TreeConfig) (w : World) : Label → World → Prop
  | idle (label : Label) : Step config w label { w with steps := w.steps + 1 }
  | append {treeId level itemId tokenDelta itemTs db}
      (happend : appendToBuffer treeId level itemId tokenDelta itemTs w.db = .ok db) :
      Step config w (.append treeId level itemId tokenDelta itemTs)
        ⟨db, w.seals, w.steps + 1, w.appended ++ [((treeId, level), itemId)]⟩
  | snapshot {treeId level inputs}
      (hinputs : sealInputs w.db (w.db.getBuffer treeId level) = .ok inputs) :
      Step config w (.snapshot treeId level)
        ⟨w.db, w.seals ++ [⟨w.db.getBuffer treeId level, inputs, w.steps, .summarising⟩],
          w.steps + 1, w.appended⟩
  | abort {i run summaryId tokenCount nowMs enqueueFollowUps} (hrun : w.seals[i]? = some run)
      (hphase : run.phase = .summarising) :
      Step config w (.commit i summaryId tokenCount nowMs enqueueFollowUps)
        ⟨w.db, w.seals.set i { run with phase := .aborted }, w.steps + 1, w.appended⟩
  | commit {i run summaryId tokenCount nowMs enqueueFollowUps db followUp}
      (hrun : w.seals[i]? = some run) (hphase : run.phase = .summarising)
      (hcommit : Committed config run.snapshot
        (sealedNode run.snapshot run.inputs summaryId tokenCount nowMs) nowMs enqueueFollowUps w.db
        db followUp) :
      Step config w (.commit i summaryId tokenCount nowMs enqueueFollowUps)
        ⟨db, w.seals.set i { run with phase := .committed w.steps summaryId }, w.steps + 1,
          w.appended⟩

theorem advance_step (config : TreeConfig) (w : World) (label : Label) :
    Step config w label (advance config w label) := by
  cases label with
  | append treeId level itemId tokenDelta itemTs =>
      simp only [advance, World.append]
      split
      · rename_i db h
        exact .append h
      · exact .idle _
  | snapshot treeId level =>
      simp only [advance, World.snapshot]
      split
      · rename_i inputs h
        exact .snapshot h
      · exact .idle _
  | commit i summaryId tokenCount nowMs enqueueFollowUps =>
      simp only [advance]
      split
      · rename_i run hrun
        split_ifs with hphase
        · simp only [World.commit]
          split
          · rename_i db followUp h
            exact .commit hrun hphase (commitSeal_ok h rfl rfl)
          · exact .abort hrun hphase
        · exact .idle _
      · exact .idle _

end TinyCortex.SummaryTree
