import TinyCortex.Chunks.Types
import TinyCortex.Lib.I64
import TinyCortex.Lib.Table

/-! Summary trees (`tree/store/types.rs`): the tree header, sealed summaries and unsealed buffers.
Summary bodies, labels, scores and embeddings are left out; summariser output enters as the token
count it reports. -/

namespace TinyCortex.SummaryTree

inductive TreeKind
  | source | topic | global | flavoured
  deriving DecidableEq, Repr

inductive TreeStatus
  | active | archived
  deriving DecidableEq, Repr

/-- One row in `mem_tree_trees`: `maxLevel` is the highest level ever sealed, `rootId` lives there. -/
structure Tree where
  id : String
  kind : TreeKind
  scope : String
  rootId : Option String
  maxLevel : Nat
  status : TreeStatus
  lastSealedAtMs : Option Int
  deriving DecidableEq, Repr

/-- One row in `mem_tree_summaries`; `childIds` is fixed when the node seals. -/
structure SummaryNode where
  id : String
  treeId : String
  level : Nat
  parentId : Option String
  childIds : List String
  tokenCount : Nat
  timeRangeStartMs : Int
  timeRangeEndMs : Int
  sealedAtMs : Int
  deleted : Bool
  docId : Option String
  versionMs : Option Int
  deriving DecidableEq, Repr

/-- The unsealed frontier of one tree level: a row in `mem_tree_buffers`. -/
structure Buffer where
  treeId : String
  level : Nat
  itemIds : List String
  tokenSum : Int
  oldestAtMs : Option Int
  deriving DecidableEq, Repr

def Buffer.empty (treeId : String) (level : Nat) : Buffer := ⟨treeId, level, [], 0, none⟩

/-- The primary key of a buffer row. -/
def Buffer.key (buf : Buffer) : String × Nat := (buf.treeId, buf.level)

/-- What a seal folds: one hydrated child. -/
structure SummaryInput where
  id : String
  tokenCount : Nat
  timeRangeStartMs : Int
  timeRangeEndMs : Int
  deriving DecidableEq, Repr

/-- Summary-tree budgets (`TreeConfig`). -/
structure TreeConfig where
  inputTokenBudget : Nat
  outputTokenBudget : Nat
  summaryFanout : Nat
  deriving DecidableEq, Repr

/-- Why a tree operation refuses to run. -/
inductive TreeError
  /-- `Failed to read tree status before append` and its siblings: no such tree row. -/
  | noTree (treeId : String)
  /-- `tree '{tree_id}' is archived` -/
  | archived (treeId : String)
  /-- `refused to seal empty buffer tree_id={} level={}` -/
  | emptySeal (treeId : String) (level : Nat)
  /-- `buffer changed while sealing tree_id={} level={}` -/
  | bufferChanged (treeId : String) (level : Nat)
  /-- `seal_document_subtree: empty chunk set` -/
  | emptyChunkSet
  /-- `seal_document_subtree: no resolvable chunks` -/
  | noResolvableChunks
  /-- `document seal has no hydrated inputs at level {level}` -/
  | noHydratedInputs (level : Nat)
  /-- `document seal produced no root` -/
  | noDocumentRoot
  deriving DecidableEq, Repr

end TinyCortex.SummaryTree

/-! The tree tables and the statements on them (`tree/store`). Each operation of the tree is one
SQLite transaction, so it is a function of the whole database. -/

namespace TinyCortex.SummaryTree

open Table Chunks

/-- The tables a tree operation reads and writes. -/
structure Db where
  trees : List Tree
  chunks : List Chunk
  summaries : List SummaryNode
  buffers : List Buffer
  deriving DecidableEq, Repr

namespace Db

def getTree (db : Db) (treeId : String) : Option Tree := lookup Tree.id treeId db.trees

def getChunk (db : Db) (id : String) : Option Chunk := lookup Chunk.id id db.chunks

def getSummary (db : Db) (id : String) : Option SummaryNode := lookup SummaryNode.id id db.summaries

/-- The current buffer at `(treeId, level)`, or an empty one. -/
def getBuffer (db : Db) (treeId : String) (level : Nat) : Buffer :=
  (lookup Buffer.key (treeId, level) db.buffers).getD (Buffer.empty treeId level)

def upsertBuffer (buf : Buffer) (db : Db) : Db :=
  { db with buffers := upsert Buffer.key buf db.buffers }

/-- Insert a sealed summary; ignored when the id is taken. -/
def insertSummary (node : SummaryNode) (db : Db) : Db :=
  { db with summaries := insertOrIgnore SummaryNode.id node db.summaries }

/-- `UPDATE mem_tree_summaries SET parent_id = ? WHERE id = ? AND parent_id IS NULL`, per child. -/
def backlink (parentId : String) (childIds : List String) (db : Db) : Db :=
  { db with
    summaries := update (fun s => decide (s.id ∈ childIds) && s.parentId.isNone)
      (fun s => { s with parentId := some parentId }) db.summaries }

/-- Update a tree's root, max level and last seal after a seal climbed a level. -/
def updateTreeAfterSeal (treeId rootId : String) (maxLevel : Nat) (sealedAtMs : Int) (db : Db) : Db :=
  { db with
    trees := update (·.id == treeId)
      (fun t => { t with
        rootId := some rootId
        maxLevel := maxLevel
        lastSealedAtMs := some sealedAtMs }) db.trees }

/-- Refresh the last seal without changing the root. -/
def refreshLastSealed (treeId : String) (sealedAtMs : Int) (db : Db) : Db :=
  { db with
    trees := update (·.id == treeId) (fun t => { t with lastSealedAtMs := some sealedAtMs }) db.trees }

/-- The tree row, provided that it exists and is active. -/
def requireActive (db : Db) (treeId : String) : Except TreeError Tree :=
  match db.getTree treeId with
  | none => .error (.noTree treeId)
  | some tree => if tree.status = .active then .ok tree else .error (.archived treeId)

/-- Consume exactly a previously read snapshot: the row must still begin with it. -/
def consumeSnapshot (snapshot : Buffer) (db : Db) : Except TreeError Db :=
  let current := db.getBuffer snapshot.treeId snapshot.level
  if snapshot.itemIds.isPrefixOf current.itemIds then
    let rest := current.itemIds.drop snapshot.itemIds.length
    let tokens := max (I64.saturatingSub current.tokenSum snapshot.tokenSum) 0
    let left := { current with itemIds := rest, tokenSum := tokens }
    .ok (db.upsertBuffer (if rest = [] then { left with oldestAtMs := none, tokenSum := 0 } else left))
  else .error (.bufferChanged snapshot.treeId snapshot.level)

/-- The ids waiting in the buffer at `(treeId, level)`. -/
def buffered (db : Db) (treeId : String) (level : Nat) : List String :=
  (db.getBuffer treeId level).itemIds

/-- `item` is a child of some summary of the tree at `level`. -/
def Holds (db : Db) (treeId : String) (level : Nat) (item : String) : Prop :=
  ∃ s ∈ db.summaries, s.treeId = treeId ∧ s.level = level ∧ item ∈ s.childIds

section Buffers

variable {db : Db} {buf : Buffer} {treeId : String} {level : Nat}

theorem getBuffer_key : (db.getBuffer treeId level).key = (treeId, level) := by
  unfold getBuffer
  cases h : lookup Buffer.key (treeId, level) db.buffers with
  | none => rfl
  | some buf => exact (lookup_mem h).2

@[simp] theorem getBuffer_treeId : (db.getBuffer treeId level).treeId = treeId :=
  congrArg Prod.fst getBuffer_key

@[simp] theorem getBuffer_level : (db.getBuffer treeId level).level = level :=
  congrArg Prod.snd getBuffer_key

theorem getBuffer_upsertBuffer_self (h : buf.key = (treeId, level)) :
    (db.upsertBuffer buf).getBuffer treeId level = buf := by
  rw [getBuffer, upsertBuffer, ← h, lookup_upsert_self]
  rfl

theorem getBuffer_upsertBuffer_of_ne (h : buf.key ≠ (treeId, level)) :
    (db.upsertBuffer buf).getBuffer treeId level = db.getBuffer treeId level := by
  rw [getBuffer, upsertBuffer, lookup_upsert_of_ne h]
  rfl

@[simp] theorem upsertBuffer_summaries : (db.upsertBuffer buf).summaries = db.summaries := rfl
@[simp] theorem upsertBuffer_trees : (db.upsertBuffer buf).trees = db.trees := rfl
@[simp] theorem upsertBuffer_chunks : (db.upsertBuffer buf).chunks = db.chunks := rfl

/-- What each buffer holds after a buffer row was written. -/
theorem buffered_upsertBuffer (h : buf.key = (treeId, level)) (treeId' : String) (level' : Nat) :
    (db.upsertBuffer buf).buffered treeId' level' =
      if treeId' = treeId ∧ level' = level then buf.itemIds else db.buffered treeId' level' := by
  by_cases heq : treeId' = treeId ∧ level' = level
  · obtain ⟨rfl, rfl⟩ := heq
    rw [if_pos ⟨rfl, rfl⟩, buffered, getBuffer_upsertBuffer_self h]
  · have hne : buf.key ≠ (treeId', level') := by
      rw [h]
      exact fun hc => heq ⟨(Prod.mk.inj hc).1.symm, (Prod.mk.inj hc).2.symm⟩
    rw [if_neg heq, buffered, getBuffer_upsertBuffer_of_ne hne, buffered]

theorem consumeSnapshot_ok {snapshot : Buffer} {next : Db}
    (h : db.consumeSnapshot snapshot = .ok next) :
    snapshot.itemIds <+: db.buffered snapshot.treeId snapshot.level ∧
      ∃ buf : Buffer, buf.key = (snapshot.treeId, snapshot.level) ∧
        buf.itemIds = (db.buffered snapshot.treeId snapshot.level).drop snapshot.itemIds.length ∧
        next = db.upsertBuffer buf := by
  unfold consumeSnapshot at h
  dsimp only at h
  split_ifs at h with hpre
  · refine ⟨List.isPrefixOf_iff_prefix.mp hpre, _, ?_, ?_, (Except.ok.inj h).symm⟩
    · exact getBuffer_key
    · rfl
  · refine ⟨List.isPrefixOf_iff_prefix.mp hpre, _, ?_, ?_, (Except.ok.inj h).symm⟩
    · exact getBuffer_key
    · rfl

end Buffers

section Summaries

variable {db : Db} {node : SummaryNode} {parentId treeId : String} {childIds : List String}
  {level : Nat} {nowMs : Int}

@[simp] theorem insertSummary_buffers : (db.insertSummary node).buffers = db.buffers := rfl
@[simp] theorem insertSummary_trees : (db.insertSummary node).trees = db.trees := rfl
@[simp] theorem insertSummary_chunks : (db.insertSummary node).chunks = db.chunks := rfl
@[simp] theorem backlink_buffers : (db.backlink parentId childIds).buffers = db.buffers := rfl
@[simp] theorem backlink_trees : (db.backlink parentId childIds).trees = db.trees := rfl
@[simp] theorem backlink_chunks : (db.backlink parentId childIds).chunks = db.chunks := rfl

@[simp] theorem updateTreeAfterSeal_buffers :
    (db.updateTreeAfterSeal treeId parentId level nowMs).buffers = db.buffers := rfl
@[simp] theorem updateTreeAfterSeal_summaries :
    (db.updateTreeAfterSeal treeId parentId level nowMs).summaries = db.summaries := rfl
@[simp] theorem updateTreeAfterSeal_chunks :
    (db.updateTreeAfterSeal treeId parentId level nowMs).chunks = db.chunks := rfl
@[simp] theorem refreshLastSealed_buffers :
    (db.refreshLastSealed treeId nowMs).buffers = db.buffers := rfl
@[simp] theorem refreshLastSealed_summaries :
    (db.refreshLastSealed treeId nowMs).summaries = db.summaries := rfl
@[simp] theorem refreshLastSealed_chunks :
    (db.refreshLastSealed treeId nowMs).chunks = db.chunks := rfl

/-- Two databases with the same buffer rows have the same buffers. -/
theorem getBuffer_congr {db db' : Db} (h : db'.buffers = db.buffers) (treeId : String)
    (level : Nat) : db'.getBuffer treeId level = db.getBuffer treeId level := by
  rw [getBuffer, getBuffer, h]

end Summaries
end Db

/-- The tree row of a scope. -/
def getTreeByScope (db : Db) (kind : TreeKind) (scope : String) : Option Tree :=
  db.trees.find? fun tree => tree.kind == kind && tree.scope == scope

theorem getTreeByScope_some {db : Db} {kind : TreeKind} {scope : String} {tree : Tree}
    (h : getTreeByScope db kind scope = some tree) :
    tree ∈ db.trees ∧ tree.kind = kind ∧ tree.scope = scope := by
  have hp := List.find?_some h
  rw [Bool.and_eq_true, beq_iff_eq, beq_iff_eq] at hp
  exact ⟨List.mem_of_find?_eq_some h, hp.1, hp.2⟩

/-- The columns of a tree row that are unique together. -/
def Tree.scoped (tree : Tree) : TreeKind × String := (tree.kind, tree.scope)

theorem getTreeByScope_of_mem {db : Db} (hnodup : (db.trees.map Tree.scoped).Nodup) {tree : Tree}
    (h : tree ∈ db.trees) : getTreeByScope db tree.kind tree.scope = some tree := by
  have hsome : (getTreeByScope db tree.kind tree.scope).isSome := by
    rw [getTreeByScope, List.find?_isSome]
    exact ⟨tree, h, by simp⟩
  obtain ⟨found, hfound⟩ := Option.isSome_iff_exists.mp hsome
  obtain ⟨hmem, hkind, hscope⟩ := getTreeByScope_some hfound
  rw [hfound, eq_of_pk_eq hnodup hmem h (Prod.ext hkind hscope)]

end TinyCortex.SummaryTree
