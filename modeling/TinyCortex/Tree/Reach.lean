import TinyCortex.Lib.Descent
import TinyCortex.Tree.World

/-! The summaries a tree's buffers lead to. Everything above the leaves hangs under a buffer of level 1
or more, since a sealed node enters the buffer of its level and leaves it only as the child of a node
above. Backlinks rewrite `parent_id` alone, so rows are compared as they were sealed. -/

namespace TinyCortex.SummaryTree

open Table

/-- The row as it was sealed. -/
def SummaryNode.bare (node : SummaryNode) : SummaryNode := { node with parentId := none }

@[simp] theorem SummaryNode.bare_id (node : SummaryNode) : node.bare.id = node.id := rfl
@[simp] theorem SummaryNode.bare_treeId (node : SummaryNode) : node.bare.treeId = node.treeId := rfl
@[simp] theorem SummaryNode.bare_level (node : SummaryNode) : node.bare.level = node.level := rfl
@[simp] theorem SummaryNode.bare_childIds (node : SummaryNode) :
    node.bare.childIds = node.childIds := rfl
@[simp] theorem SummaryNode.bare_deleted (node : SummaryNode) : node.bare.deleted = node.deleted := rfl
@[simp] theorem SummaryNode.bare_docId (node : SummaryNode) : node.bare.docId = node.docId := rfl
@[simp] theorem SummaryNode.bare_versionMs (node : SummaryNode) :
    node.bare.versionMs = node.versionMs := rfl

namespace Db

/-- The summaries as they were sealed. -/
def nodes (db : Db) : List SummaryNode := db.summaries.map SummaryNode.bare

def nodeIds (db : Db) : List String := db.nodes.map SummaryNode.id

theorem nodeIds_eq (db : Db) : db.nodeIds = db.summaries.map SummaryNode.id := by
  rw [nodeIds, nodes, List.map_map]
  rfl

/-- A seal of a fresh node adds the node and changes nothing else. -/
theorem nodes_insertSealed (level : Nat) (node : SummaryNode) {db : Db}
    (hfresh : node.id ∉ db.nodeIds) : (insertSealed level node db).nodes = db.nodes ++ [node.bare] := by
  rw [nodeIds_eq] at hfresh
  have hinsert : (db.insertSummary node).nodes = db.nodes ++ [node.bare] := by
    rw [nodes, insertSummary, insertOrIgnore_of_fresh hfresh, List.map_append]
    rfl
  unfold insertSealed
  dsimp only
  split_ifs
  · exact hinsert
  · rw [← hinsert, nodes, nodes, backlink]
    have hbare : ∀ row : SummaryNode, { row with parentId := some node.id }.bare = row.bare :=
      fun _ => rfl
    exact map_update hbare _

/-- A summary that hangs under some buffer of the tree. -/
inductive Reaches (db : Db) (treeId : String) : String → Prop
  | buffered {level : Nat} {id : String} (hlevel : 0 < level) (h : id ∈ db.buffered treeId level) :
      Reaches db treeId id
  | child {node : SummaryNode} {id : String} (hnode : node ∈ db.nodes)
      (hreach : Reaches db treeId node.id) (hlevel : 1 < node.level) (h : id ∈ node.childIds) :
      Reaches db treeId id

/-- The children of the summary with the given id, if there is one. -/
def childIdsOf (db : Db) (id : String) : List String :=
  ((lookup SummaryNode.id id db.nodes).map SummaryNode.childIds).getD []

/-- The ids a given number of levels below an id, in order, with repeats. -/
def descend (db : Db) : Nat → String → List String := Descent.descend db.childIdsOf

theorem childIdsOf_getSummary (db : Db) (id : String) :
    db.childIdsOf id = ((db.getSummary id).map SummaryNode.childIds).getD [] := by
  rw [childIdsOf, nodes, lookup_map SummaryNode.bare_id, Option.map_map, getSummary]
  rfl

theorem childIdsOf_eq (db : Db) (hnodup : db.nodeIds.Nodup) {node : SummaryNode}
    (h : node ∈ db.nodes) : db.childIdsOf node.id = node.childIds := by
  rw [childIdsOf, lookup_of_mem hnodup h]
  rfl

theorem descend_congr {db next : Db} (h : next.nodes = db.nodes) (depth : Nat) (id : String) :
    next.descend depth id = db.descend depth id :=
  Descent.descend_congr (fun id => by rw [childIdsOf, childIdsOf, h]) depth id

/-- Summary ids are distinct, and every id that a buffer or a node above level 1 mentions has a row. -/
structure Closed (db : Db) : Prop where
  nodup : db.nodeIds.Nodup
  buffered : ∀ treeId level, 0 < level → ∀ id ∈ db.buffered treeId level, id ∈ db.nodeIds
  children : ∀ node ∈ db.nodes, 1 < node.level → ∀ id ∈ node.childIds, id ∈ db.nodeIds

section Grow

variable {db next : Db} {added : List SummaryNode} {treeId id : String}

theorem Closed.mem_of_reaches (h : db.Closed) (hreach : db.Reaches treeId id) : id ∈ db.nodeIds := by
  cases hreach with
  | buffered hlevel hmem => exact h.buffered treeId _ hlevel id hmem
  | child hnode _ hlevel hmem => exact h.children _ hnode hlevel id hmem

/-- What was reachable stays so as long as no buffered summary gets lost. -/
theorem Reaches.grow (hnodes : next.nodes = db.nodes ++ added)
    (hbuf : ∀ level, 0 < level → ∀ id ∈ db.buffered treeId level, next.Reaches treeId id)
    (hreach : db.Reaches treeId id) : next.Reaches treeId id := by
  induction hreach with
  | buffered hlevel hmem => exact hbuf _ hlevel _ hmem
  | child hnode _ hlevel hmem ih =>
      exact .child (hnodes ▸ List.mem_append_left _ hnode) ih hlevel hmem

/-- Nothing becomes reachable but the new ids, when the buffers and the new nodes mention nothing
else. -/
theorem Reaches.of_grow (fresh : List String) (hclosed : db.Closed)
    (hnodes : next.nodes = db.nodes ++ added)
    (hnew : ∀ node ∈ added, node.id ∉ db.nodeIds) (hfresh : ∀ id ∈ fresh, id ∉ db.nodeIds)
    (hbuf : ∀ level, 0 < level → ∀ id ∈ next.buffered treeId level,
      db.Reaches treeId id ∨ id ∈ fresh)
    (hchild : ∀ node ∈ added, 1 < node.level → node.id ∈ fresh → ∀ id ∈ node.childIds,
      db.Reaches treeId id ∨ id ∈ fresh)
    (hreach : next.Reaches treeId id) : db.Reaches treeId id ∨ id ∈ fresh := by
  induction hreach with
  | buffered hlevel hmem => exact hbuf _ hlevel _ hmem
  | @child node id hnode _ hlevel hmem ih =>
      rw [hnodes, List.mem_append] at hnode
      rcases hnode with hold | hadded
      · have hid : node.id ∈ db.nodeIds := List.mem_map_of_mem hold
        exact Or.inl (.child hold (ih.resolve_right fun hf => hfresh _ hf hid) hlevel hmem)
      · refine hchild node hadded hlevel (ih.resolve_left fun hr => ?_) id hmem
        exact hnew node hadded (hclosed.mem_of_reaches hr)

/-- A database stays closed when the new nodes have new ids and mention only ids that have rows. -/
theorem Closed.grow (h : db.Closed) (hnodes : next.nodes = db.nodes ++ added)
    (hnodup : (added.map SummaryNode.id).Nodup) (hnew : ∀ node ∈ added, node.id ∉ db.nodeIds)
    (hbuf : ∀ treeId level, 0 < level → ∀ id ∈ next.buffered treeId level, id ∈ next.nodeIds)
    (hchild : ∀ node ∈ added, 1 < node.level → ∀ id ∈ node.childIds, id ∈ next.nodeIds) :
    next.Closed where
  nodup := by
    rw [nodeIds, hnodes, List.map_append, List.nodup_append]
    refine ⟨h.nodup, hnodup, fun id hid id' hid' => ?_⟩
    rintro rfl
    obtain ⟨node, hnode, rfl⟩ := List.mem_map.mp hid'
    exact hnew node hnode hid
  buffered := hbuf
  children := by
    intro node hnode hlevel id hid
    rw [hnodes, List.mem_append] at hnode
    rcases hnode with hold | hadded
    · rw [nodeIds, hnodes, List.map_append]
      exact List.mem_append_left _ (h.children node hold hlevel id hid)
    · exact hchild node hadded hlevel id hid

theorem Closed.congr (h : db.Closed) (hnodes : next.nodes = db.nodes)
    (hbuf : ∀ treeId level, 0 < level → next.buffered treeId level = db.buffered treeId level) :
    next.Closed where
  nodup := by rw [nodeIds, hnodes]; exact h.nodup
  buffered := by
    intro treeId level hlevel
    rw [hbuf treeId level hlevel, nodeIds, hnodes]
    exact h.buffered treeId level hlevel
  children := by rw [nodeIds, hnodes]; exact h.children

end Grow
end Db
end TinyCortex.SummaryTree
