import TinyCortex.Ingest.Canonicalize
import TinyCortex.Tree.Forest

/-! The store of a workspace under every transaction on summary trees and on the chunks below them. A seal
is two steps here, the hydration and the commit, for a bucket and for a batch of a document alike, so an
archive, an ingest or a deletion may fall in between. `append_leaf`, the cascades, the flushes and
`seal_document_subtree` are sequences of these steps. -/

namespace TinyCortex.SummaryTree

open Table Chunks Ingest

/-- A seal between its hydration and its commit. -/
inductive Flight
  | bucket (snapshot : Buffer) (inputs : List SummaryInput)
  | batch (doc : DocumentSeal) (level : Nat) (childIds : List String) (inputs : List SummaryInput)
  deriving DecidableEq, Repr

namespace Flight

def treeId : Flight → String
  | .bucket snapshot _ => snapshot.treeId
  | .batch doc _ _ _ => doc.treeId

/-- The level of the items that the seal folds. -/
def level : Flight → Nat
  | .bucket snapshot _ => snapshot.level
  | .batch _ level _ _ => level

def inputs : Flight → List SummaryInput
  | .bucket _ inputs => inputs
  | .batch _ _ _ inputs => inputs

/-- The node that the seal commits. -/
def node (config : TreeConfig) (minted : Minted) : Flight → SummaryNode
  | .bucket snapshot inputs => sealedNode snapshot inputs minted.id minted.tokenCount minted.nowMs
  | .batch doc level childIds inputs => explicitNode config doc level childIds inputs minted

/-- The commit, which reads the status of the tree in its transaction. -/
def commit (config : TreeConfig) (minted : Minted) (enqueueFollowUps : Bool) (db : Db) :
    Flight → Except TreeError Db
  | .bucket snapshot inputs =>
      (commitSeal config snapshot
        (sealedNode snapshot inputs minted.id minted.tokenCount minted.nowMs) minted.nowMs
        enqueueFollowUps db).map Prod.fst
  | .batch doc level childIds inputs => do
      let _ ← db.requireActive doc.treeId
      .ok (insertSealed level (explicitNode config doc level childIds inputs minted) db)

/-- `mem_tree_chunks.parent_summary_id` after the commit: a bucket keeps the parent that a chunk has, a
batch overwrites it. -/
def linkChunks (node : SummaryNode) (chunks : List Chunk) (parents : String → Option String) :
    Flight → String → Option String
  | .bucket snapshot _, id =>
      if snapshot.level = 0 ∧ id ∈ node.childIds ∧ id ∈ chunks.map Chunk.id ∧ parents id = none then
        some node.id
      else parents id
  | .batch _ level _ _, id =>
      if level = 0 ∧ id ∈ node.childIds ∧ id ∈ chunks.map Chunk.id then some node.id else parents id

end Flight

section Flights

variable {config : TreeConfig} {db : Db} {flight : Flight} {minted : Minted}

/-- The children that the seal claims. -/
def Flight.childIds : Flight → List String
  | .bucket _ inputs => inputs.map SummaryInput.id
  | .batch _ _ childIds _ => childIds

theorem Flight.node_childIds : (flight.node config minted).childIds = flight.childIds := by
  cases flight <;> rfl

theorem Flight.node_level : (flight.node config minted).level = flight.level + 1 := by
  cases flight <;> rfl

theorem Flight.node_treeId : (flight.node config minted).treeId = flight.treeId := by
  cases flight <;> rfl

theorem Flight.node_id : (flight.node config minted).id = minted.id := by
  cases flight <;> rfl

/-- What a commit adds: its node, and to the buffers at most the id of the node. -/
theorem Flight.commit_adds {next : Db} {enqueueFollowUps : Bool} (hfresh : minted.id ∉ db.nodeIds)
    (h : flight.commit config minted enqueueFollowUps db = .ok next) :
    next.chunks = db.chunks ∧ next.nodes = db.nodes ++ [(flight.node config minted).bare] ∧
      ∀ treeId level, ∀ id ∈ next.buffered treeId level,
        id ∈ db.buffered treeId level ∨ id = minted.id ∧ treeId = flight.treeId := by
  cases flight with
  | bucket snapshot inputs =>
      obtain ⟨⟨committed, followUp⟩, hseal, rfl⟩ := Fallible.map_ok_iff.mp h
      have hcommitted := commitSeal_ok hseal rfl rfl
      refine ⟨hcommitted.chunks, hcommitted.nodes hfresh, fun treeId level id hid => ?_⟩
      rw [hcommitted.buffered, bufferedAfterSeal] at hid
      split_ifs at hid with hsame hup
      · exact Or.inl (List.mem_of_mem_drop hid)
      · rcases List.mem_append.mp hid with hold | hnew
        · exact Or.inl hold
        · exact Or.inr ⟨List.mem_singleton.mp hnew, hup.1⟩
      · exact Or.inl hid
  | batch doc level childIds inputs =>
      obtain ⟨tree, -, h⟩ := Fallible.bind_ok_iff.mp h
      obtain rfl := Except.ok.inj h
      let node := explicitNode config doc level childIds inputs minted
      obtain ⟨hbuffers, -, hchunks⟩ := insertSealed_frame level node db
      refine ⟨hchunks, Db.nodes_insertSealed level node hfresh, fun treeId level' id hid => ?_⟩
      rw [Db.buffered, Db.getBuffer_congr hbuffers] at hid
      exact Or.inl hid

end Flights

/-- The store, the parents of its chunks and the seals in flight. -/
structure Workspace where
  store : Store
  chunkParents : String → Option String
  flights : List Flight

namespace Workspace

def db (w : Workspace) : Db := w.store.db

def withDb (w : Workspace) (db : Db) : Workspace := { w with store := { w.store with db := db } }

@[simp] theorem withDb_db (w : Workspace) (db : Db) : (w.withDb db).db = db := rfl

@[simp] theorem withDb_flights (w : Workspace) (db : Db) : (w.withDb db).flights = w.flights := rfl

@[simp] theorem withDb_chunkParents (w : Workspace) (db : Db) :
    (w.withDb db).chunkParents = w.chunkParents := rfl

def empty : Workspace where
  store :=
    { db := ⟨[], [], [], []⟩
      columns := fun _ => ⟨"", none, .empty⟩
      summaryPath := fun _ => none
      ingested := []
      rawGates := []
      files := [] }
  chunkParents := fun _ => none
  flights := []

inductive Label
  | ingest (sourceId owner : String) (payload : Payload) (pieces : List Piece)
      (rawRefs : Option (List String))
  | setLifecycle (chunkId : String) (status : ChunkStatus)
  | createTree (treeId : String) (kind : TreeKind) (scope : String)
  | archive (treeId : String)
  | append (treeId : String) (level : Nat) (itemId : String) (tokenDelta itemTs : Int)
  | snapshot (treeId : String) (level : Nat)
  | hydrate (doc : DocumentSeal) (level : Nat) (childIds : List String)
  | commit (flight : Nat) (minted : Minted) (enqueueFollowUps : Bool)
  | moveHeader (treeId : String) (root : SummaryNode) (nowMs : Int)
  | ingestSummary (input : SummaryIngest) (summaryId : String) (nowMs : Int)
  | delete (request : DeleteRequest)
  deriving DecidableEq, Repr

/-- The tree that a transaction writes to. -/
def target (w : Workspace) : Label → Option String
  | .append treeId _ _ _ _ | .moveHeader treeId _ _ => some treeId
  | .commit i _ _ => (w.flights[i]?).map Flight.treeId
  | .ingestSummary input _ _ => some input.treeId
  | .ingest _ _ _ _ _ | .setLifecycle _ _ | .createTree _ _ _ | .archive _ | .snapshot _ _
  | .hydrate _ _ _ | .delete _ => none

/-- `get_or_create_tree`: a scope keeps the tree that it has. -/
def createTree (treeId : String) (kind : TreeKind) (scope : String) (db : Db) : Db :=
  if (getTreeByScope db kind scope).isSome ∨ treeId ∈ db.trees.map Tree.id then db
  else { db with trees := db.trees ++ [Tree.fresh treeId kind scope] }

def archiveTree (treeId : String) (db : Db) : Db :=
  { db with
    trees := update (·.id == treeId) (fun tree => { tree with status := .archived }) db.trees }

/-- A transaction on the tree tables commits or rolls back. -/
def transact (w : Workspace) : Except TreeError Db → Workspace × Except TreeError Unit
  | .ok db => (w.withDb db, .ok ())
  | .error error => (w, .error error)

/-- One step, and how it ended. -/
def step (config : TreeConfig) (w : Workspace) : Label → Workspace × Except TreeError Unit
  | .ingest sourceId owner payload pieces rawRefs =>
      match canonicalise sourceId owner payload with
      | none => (w, .ok ())
      | some metadata => ({ w with store := stage metadata pieces rawRefs w.store }, .ok ())
  | .setLifecycle chunkId status =>
      match setChunkLifecycleStatus chunkId status w.db.chunks with
      | .ok chunks => (w.withDb { w.db with chunks := chunks }, .ok ())
      | .error _ => (w, .ok ())
  | .createTree treeId kind scope => (w.withDb (createTree treeId kind scope w.db), .ok ())
  | .archive treeId => (w.withDb (archiveTree treeId w.db), .ok ())
  | .append treeId level itemId tokenDelta itemTs =>
      w.transact (appendToBuffer treeId level itemId tokenDelta itemTs w.db)
  | .snapshot treeId level =>
      match sealInputs w.db (w.db.getBuffer treeId level) with
      | .ok inputs =>
          ({ w with flights := w.flights ++ [.bucket (w.db.getBuffer treeId level) inputs] }, .ok ())
      | .error error => (w, .error error)
  | .hydrate doc level childIds =>
      if hydrateInputs w.db level childIds = [] then (w, .error (.noHydratedInputs level))
      else ({ w with
        flights := w.flights ++ [.batch doc level childIds (hydrateInputs w.db level childIds)] },
        .ok ())
  | .commit i minted enqueueFollowUps =>
      match w.flights[i]? with
      | none => (w, .ok ())
      | some flight =>
          match flight.commit config minted enqueueFollowUps w.db with
          | .ok db =>
              ({ w.withDb db with
                chunkParents := flight.linkChunks (flight.node config minted) w.db.chunks w.chunkParents
                flights := w.flights.eraseIdx i }, .ok ())
          | .error error => ({ w with flights := w.flights.eraseIdx i }, .error error)
  | .moveHeader treeId root nowMs =>
      w.transact ((w.db.requireActive treeId).map fun tree =>
        SummaryTree.moveHeader tree root nowMs w.db)
  | .ingestSummary input summaryId nowMs =>
      w.transact (SummaryTree.ingestSummary input summaryId nowMs w.db)
  | .delete request =>
      ({ w with
        store := request.run w.store
        chunkParents := fun id =>
          if id ∈ (request.run w.store).db.chunks.map Chunk.id then w.chunkParents id else none },
        .ok ())

/-- Every transaction, in any order, on an empty store. -/
def machine (config : TreeConfig) : Machine Workspace Label :=
  ⟨empty, fun w label => (step config w label).1⟩

/-- Every sealed node gets an id of its own. -/
def Mints (w : Workspace) : Label → Prop
  | .commit _ minted _ => minted.id ∉ w.db.nodeIds
  | .ingestSummary _ summaryId _ => summaryId ∉ w.db.nodeIds
  | _ => True

/-- What one step can do. -/
inductive Step (config : TreeConfig) (w : Workspace) :
    Label → Workspace → Except TreeError Unit → Prop
  | idle (label : Label) (htarget : w.target label = none) : Step config w label w (.ok ())
  | refused {label : Label} {flights : List Flight} (error : TreeError)
      (hflights : flights ⊆ w.flights) : Step config w label { w with flights := flights } (.error error)
  | ingest {sourceId owner payload pieces rawRefs metadata}
      (hmetadata : canonicalise sourceId owner payload = some metadata) :
      Step config w (.ingest sourceId owner payload pieces rawRefs)
        { w with store := stage metadata pieces rawRefs w.store } (.ok ())
  | setLifecycle {chunkId status chunks}
      (hset : setChunkLifecycleStatus chunkId status w.db.chunks = .ok chunks) :
      Step config w (.setLifecycle chunkId status) (w.withDb { w.db with chunks := chunks }) (.ok ())
  | createTree {treeId kind scope} (hscope : getTreeByScope w.db kind scope = none)
      (hid : treeId ∉ w.db.trees.map Tree.id) :
      Step config w (.createTree treeId kind scope)
        (w.withDb { w.db with trees := w.db.trees ++ [Tree.fresh treeId kind scope] }) (.ok ())
  | archive (treeId : String) :
      Step config w (.archive treeId) (w.withDb (archiveTree treeId w.db)) (.ok ())
  | append {treeId level itemId tokenDelta itemTs db}
      (happend : appendToBuffer treeId level itemId tokenDelta itemTs w.db = .ok db) :
      Step config w (.append treeId level itemId tokenDelta itemTs) (w.withDb db) (.ok ())
  | snapshot {treeId level inputs}
      (hinputs : sealInputs w.db (w.db.getBuffer treeId level) = .ok inputs) :
      Step config w (.snapshot treeId level)
        { w with flights := w.flights ++ [.bucket (w.db.getBuffer treeId level) inputs] } (.ok ())
  | hydrate (doc : DocumentSeal) (level : Nat) (childIds : List String)
      (hinputs : hydrateInputs w.db level childIds ≠ []) :
      Step config w (.hydrate doc level childIds)
        { w with
          flights := w.flights ++ [.batch doc level childIds (hydrateInputs w.db level childIds)] }
        (.ok ())
  | commit {i minted enqueueFollowUps flight db} (hflight : w.flights[i]? = some flight)
      (hcommit : flight.commit config minted enqueueFollowUps w.db = .ok db) :
      Step config w (.commit i minted enqueueFollowUps)
        { w.withDb db with
          chunkParents := flight.linkChunks (flight.node config minted) w.db.chunks w.chunkParents
          flights := w.flights.eraseIdx i } (.ok ())
  | moveHeader {treeId root nowMs tree} (htree : w.db.requireActive treeId = .ok tree) :
      Step config w (.moveHeader treeId root nowMs)
        (w.withDb (SummaryTree.moveHeader tree root nowMs w.db)) (.ok ())
  | ingestSummary {input summaryId nowMs db}
      (hingest : SummaryTree.ingestSummary input summaryId nowMs w.db = .ok db) :
      Step config w (.ingestSummary input summaryId nowMs) (w.withDb db) (.ok ())
  | delete (request : DeleteRequest) :
      Step config w (.delete request)
        { w with
          store := request.run w.store
          chunkParents := fun id =>
            if id ∈ (request.run w.store).db.chunks.map Chunk.id then w.chunkParents id else none }
        (.ok ())

theorem step_step (config : TreeConfig) (w : Workspace) (label : Label) :
    Step config w label (step config w label).1 (step config w label).2 := by
  have hrefused : ∀ label error, Step config w label w (.error error) :=
    fun label error => .refused error (List.Subset.refl _)
  cases label with
  | ingest sourceId owner payload pieces rawRefs =>
      simp only [step]
      split
      · exact .idle _ rfl
      · rename_i metadata hmetadata
        exact .ingest hmetadata
  | setLifecycle chunkId status =>
      simp only [step]
      split
      · rename_i chunks hset
        exact .setLifecycle hset
      · exact .idle _ rfl
  | createTree treeId kind scope =>
      simp only [step, createTree]
      split_ifs with h
      · exact .idle _ rfl
      · rw [not_or, Bool.not_eq_true, Option.isSome_eq_false_iff, Option.isNone_iff_eq_none] at h
        exact .createTree h.1 h.2
  | archive treeId => exact .archive treeId
  | append treeId level itemId tokenDelta itemTs =>
      simp only [step]
      cases happend : appendToBuffer treeId level itemId tokenDelta itemTs w.db with
      | ok db => exact .append happend
      | error error => exact hrefused _ error
  | snapshot treeId level =>
      simp only [step]
      split
      · rename_i inputs hinputs
        exact .snapshot hinputs
      · exact hrefused _ _
  | hydrate doc level childIds =>
      simp only [step]
      split_ifs with h
      · exact hrefused _ _
      · exact .hydrate doc level childIds h
  | commit i minted enqueueFollowUps =>
      simp only [step]
      split
      · rename_i hnone
        exact .idle _ (by rw [target, hnone]; rfl)
      · rename_i flight hflight
        split
        · rename_i db hcommit
          exact .commit hflight hcommit
        · exact .refused _ (List.eraseIdx_sublist _ _).subset
  | moveHeader treeId root nowMs =>
      simp only [step]
      cases htree : w.db.requireActive treeId with
      | ok tree => exact .moveHeader htree
      | error error => exact hrefused _ error
  | ingestSummary input summaryId nowMs =>
      simp only [step]
      cases hingest : SummaryTree.ingestSummary input summaryId nowMs w.db with
      | ok db => exact .ingestSummary hingest
      | error error => exact hrefused _ error
  | delete request => exact .delete request

end Workspace
end TinyCortex.SummaryTree
