import TinyCortex.Tree.Header

/-! The merge tier, where the roots of document subtrees meet: a root waits in the merge buffer until a
merge summary takes it. A completed seal of a version owes the tier one live root of that version over
its chunks. Nothing in the seal looks for a root that an earlier call of the same version appended, so a
redelivered seal adds another one. -/

namespace TinyCortex.SummaryTree

open Table

namespace Db

/-- Everything in the merge buffer and under the merge summaries of a tree, with repeats. -/
def mergeTier (db : Db) (treeId : String) : List String :=
  db.buffered treeId mergeLevelBase ++
    (db.nodes.filter fun node => node.treeId == treeId && node.level == mergeLevelBase + 1 &&
      node.docId.isNone).flatMap SummaryNode.childIds

/-- The id names a live node of the document version. -/
def isVersionNode (db : Db) (docId : String) (versionMs : Option Int) (id : String) : Bool :=
  match lookup SummaryNode.id id db.nodes with
  | none => false
  | some node => node.docId == some docId && node.versionMs == versionMs && !node.deleted

/-- The live roots of a document version in the merge tier. -/
def versionRoots (db : Db) (treeId docId : String) (versionMs : Option Int) : List String :=
  (db.mergeTier treeId).filter (db.isVersionNode docId versionMs)

/-- The leaves under a summary, with repeats. -/
def leavesOf (db : Db) (id : String) : List String :=
  match lookup SummaryNode.id id db.nodes with
  | none => []
  | some node => db.descend node.level id

/-- The children of a document's upper nodes are document nodes one level down. -/
def Layered (db : Db) : Prop :=
  ∀ node ∈ db.nodes, node.docId ≠ none → 1 < node.level → ∀ id ∈ node.childIds,
    ∃ child ∈ db.nodes, child.id = id ∧ child.docId ≠ none ∧ child.level + 1 = node.level

end Db

/-- The version has exactly one live root in the merge tier, and each of its chunks is reached through
that root exactly once. -/
def SealedOnce (db : Db) (doc : SealedDocument) : Prop :=
  ∃ root, db.versionRoots doc.treeId doc.docId doc.versionMs = [root] ∧
    (db.leavesOf root).Nodup ∧ ∀ id, id ∈ db.leavesOf root ↔ id ∈ doc.chunkIds

namespace Forest

/-- Every document sealed to the end, however often, is in the merge tier once. -/
def DocumentsOnce (w : Forest) : Prop := ∀ doc ∈ w.completed, SealedOnce w.db doc

/-- A call that runs to its end finds no root of its version in the merge tier and names no stored
chunk twice; one that dies after its append is not for a version sealed before. -/
def SealsOnce (config : TreeConfig) (w : Forest) : Label → Prop
  | .document doc supply _ crash => (attaching config doc supply crash w.db).isSome →
      if crash = some .beforeHeader then
        ∀ old ∈ w.completed,
          ¬(old.treeId = doc.treeId ∧ old.docId = doc.docId ∧ old.versionMs = doc.versionMs)
      else
        (resolvable w.db doc.chunkIds).Nodup ∧
          w.db.versionRoots doc.treeId doc.docId doc.versionMs = []
  | _ => True

instance (config : TreeConfig) (w : Forest) : ∀ label, Decidable (SealsOnce config w label)
  | .document _ _ _ _ => inferInstanceAs (Decidable (_ → ite _ _ _))
  | .append _ _ _ _ | .snapshot _ _ | .commit _ _ _ _ _ | .ingest _ _ _ | .persist _ => isTrue trivial

end Forest

/-! ### Growth of the merge tier -/

section Grow

variable {db next : Db} {added : List SummaryNode} {treeId docId id : String}
  {versionMs : Option Int}

theorem lookup_grow (hnodup : next.nodeIds.Nodup) (hnodes : next.nodes = db.nodes ++ added)
    (hid : id ∈ db.nodeIds) :
    lookup SummaryNode.id id next.nodes = lookup SummaryNode.id id db.nodes := by
  have hold : db.nodeIds.Nodup := by
    rw [Db.nodeIds, hnodes, List.map_append] at hnodup
    exact hnodup.of_append_left
  obtain ⟨node, hnode, rfl⟩ := List.mem_map.mp hid
  rw [lookup_of_mem hold hnode, lookup_of_mem hnodup (hnodes ▸ List.mem_append_left _ hnode)]

/-- What hangs under a document node does not change as summaries are added. -/
theorem Db.descend_grow (hlayered : db.Layered) (hnodup : next.nodeIds.Nodup)
    (hnodes : next.nodes = db.nodes ++ added) {node : SummaryNode} (hnode : node ∈ db.nodes)
    (hdoc : node.docId ≠ none) (level : Nat) (hlevel : node.level = level + 1) :
    next.descend (level + 1) node.id = db.descend (level + 1) node.id := by
  induction level generalizing node with
  | zero =>
      have hsame : next.childIdsOf node.id = db.childIdsOf node.id := by
        rw [childIdsOf, childIdsOf, lookup_grow hnodup hnodes (List.mem_map_of_mem hnode)]
      simp only [descend, Descent.descend, hsame]
  | succ level ih =>
      have hold : db.nodeIds.Nodup := by
        rw [Db.nodeIds, hnodes, List.map_append] at hnodup
        exact hnodup.of_append_left
      have hnew : next.childIdsOf node.id = node.childIds :=
        next.childIdsOf_eq hnodup (hnodes ▸ List.mem_append_left _ hnode)
      rw [descend, Descent.descend, hnew, descend, Descent.descend, db.childIdsOf_eq hold hnode]
      refine List.flatMap_congr fun id hid => ?_
      obtain ⟨child, hchild, rfl, hchildDoc, hbelow⟩ := hlayered node hnode hdoc (by omega) id hid
      exact ih hchild hchildDoc (by omega)

theorem isVersionNode_iff : db.isVersionNode docId versionMs id = true ↔
    ∃ node, lookup SummaryNode.id id db.nodes = some node ∧ node.docId = some docId ∧
      node.versionMs = versionMs ∧ node.deleted = false := by
  unfold Db.isVersionNode
  split
  · rename_i hnone
    simp [hnone]
  · rename_i node hsome
    simp [hsome, and_assoc]

theorem isVersionNode_grow (hnodup : next.nodeIds.Nodup) (hnodes : next.nodes = db.nodes ++ added)
    (hid : id ∈ db.nodeIds) :
    next.isVersionNode docId versionMs id = db.isVersionNode docId versionMs id := by
  rw [Db.isVersionNode, Db.isVersionNode, lookup_grow hnodup hnodes hid]

theorem leavesOf_grow (hlayered : db.Layered) (hnodup : next.nodeIds.Nodup)
    (hnodes : next.nodes = db.nodes ++ added) (hpos : ∀ node ∈ db.nodes, 0 < node.level)
    (hroot : db.isVersionNode docId versionMs id = true) : next.leavesOf id = db.leavesOf id := by
  obtain ⟨node, hlookup, hdoc, -, -⟩ := isVersionNode_iff.mp hroot
  obtain ⟨hnode, rfl⟩ := lookup_mem hlookup
  obtain ⟨level, hlevel⟩ := Nat.exists_eq_succ_of_ne_zero (hpos node hnode).ne'
  rw [Db.leavesOf, Db.leavesOf, lookup_grow hnodup hnodes (List.mem_map_of_mem hnode), hlookup]
  dsimp only
  rw [hlevel]
  exact Db.descend_grow hlayered hnodup hnodes hnode (by simp [hdoc]) level hlevel

theorem mergeTier_subset (hclosed : db.Closed) : db.mergeTier treeId ⊆ db.nodeIds := by
  intro id hid
  rcases List.mem_append.mp hid with hbuf | hchild
  · exact hclosed.buffered treeId mergeLevelBase (by decide) id hbuf
  · obtain ⟨node, hnode, hmem⟩ := List.mem_flatMap.mp hchild
    obtain ⟨hin, hmerge⟩ := List.mem_filter.mp hnode
    simp only [Bool.and_eq_true, beq_iff_eq] at hmerge
    refine hclosed.children node hin ?_ id hmem
    rw [hmerge.1.2]
    decide

theorem Db.Layered.grow (h : db.Layered) (hnodes : next.nodes = db.nodes ++ added)
    (hadded : ∀ node ∈ added, node.docId ≠ none → 1 < node.level → ∀ id ∈ node.childIds,
      ∃ child ∈ added, child.id = id ∧ child.docId ≠ none ∧ child.level + 1 = node.level) :
    next.Layered := by
  intro node hnode hdoc hlevel id hid
  rw [hnodes] at hnode ⊢
  rcases List.mem_append.mp hnode with hold | hnew
  · obtain ⟨child, hchild, hrest⟩ := h node hold hdoc hlevel id hid
    exact ⟨child, List.mem_append_left _ hchild, hrest⟩
  · obtain ⟨child, hchild, hrest⟩ := hadded node hnew hdoc hlevel id hid
    exact ⟨child, List.mem_append_right _ hchild, hrest⟩

/-- The tier keeps its document roots with what hangs under them, and gets some new ones. -/
structure TierGrown (db next : Db) (fresh : String → String → Option Int → List String) : Prop where
  roots : ∀ treeId docId versionMs, (next.versionRoots treeId docId versionMs).Perm
    (db.versionRoots treeId docId versionMs ++ fresh treeId docId versionMs)
  leaves : ∀ treeId docId versionMs, ∀ id ∈ db.versionRoots treeId docId versionMs,
    next.leavesOf id = db.leavesOf id

theorem TierGrown.of_nodes {fresh : String → String → Option Int → List String}
    (extra : String → List String) (hclosed : db.Closed) (hlayered : db.Layered)
    (hpos : ∀ node ∈ db.nodes, 0 < node.level) (hnodup : next.nodeIds.Nodup)
    (hnodes : next.nodes = db.nodes ++ added)
    (htier : ∀ treeId, (next.mergeTier treeId).Perm (db.mergeTier treeId ++ extra treeId))
    (hfresh : ∀ treeId docId versionMs,
      (extra treeId).filter (next.isVersionNode docId versionMs) = fresh treeId docId versionMs) :
    TierGrown db next fresh where
  roots := by
    intro treeId docId versionMs
    refine ((htier treeId).filter _).trans ?_
    rw [List.filter_append, hfresh, Db.versionRoots]
    refine List.Perm.append_right _ (List.Perm.of_eq ?_)
    exact List.filter_congr fun id hid => isVersionNode_grow hnodup hnodes (mergeTier_subset hclosed hid)
  leaves := fun _ _ _ _ hid =>
    leavesOf_grow hlayered hnodup hnodes hpos (List.mem_filter.mp hid).2

/-- A document that has its one root keeps it while no other root of the version comes in. -/
theorem SealedOnce.grow {fresh : String → String → Option Int → List String} {doc : SealedDocument}
    (h : SealedOnce db doc) (hgrown : TierGrown db next fresh)
    (hnone : fresh doc.treeId doc.docId doc.versionMs = []) : SealedOnce next doc := by
  obtain ⟨root, hroots, hnodup, hleaves⟩ := h
  have hperm := hgrown.roots doc.treeId doc.docId doc.versionMs
  rw [hnone, List.append_nil, hroots, List.perm_singleton] at hperm
  have hsame := hgrown.leaves doc.treeId doc.docId doc.versionMs root (hroots ▸ List.mem_cons_self)
  exact ⟨root, hperm, hsame.symm ▸ hnodup, hsame.symm ▸ hleaves⟩

end Grow

/-! ### What each step does to the merge tier -/

section Steps

variable {config : TreeConfig} {db next : Db} {treeId : String}

theorem mergeTier_congr (hnodes : next.nodes = db.nodes)
    (hbuffered : next.buffered treeId mergeLevelBase = db.buffered treeId mergeLevelBase) :
    next.mergeTier treeId = db.mergeTier treeId := by
  rw [Db.mergeTier, Db.mergeTier, hnodes, hbuffered]

/-- Added nodes that are no merge summaries leave the part of the tier that is under summaries alone. -/
theorem mergeTier_grow {added : List SummaryNode} (hnodes : next.nodes = db.nodes ++ added)
    (hadded : ∀ node ∈ added, node.treeId = treeId → node.level = mergeLevelBase + 1 →
      node.docId ≠ none)
    (extra : List String)
    (hbuffered : next.buffered treeId mergeLevelBase =
      db.buffered treeId mergeLevelBase ++ extra) :
    (next.mergeTier treeId).Perm (db.mergeTier treeId ++ extra) := by
  have hnone : (added.filter fun node => node.treeId == treeId &&
      node.level == mergeLevelBase + 1 && node.docId.isNone) = [] := by
    refine List.filter_eq_nil_iff.mpr fun node hnode hmerge => ?_
    simp only [Bool.and_eq_true, beq_iff_eq, Option.isNone_iff_eq_none] at hmerge
    exact hadded node hnode hmerge.1.1 hmerge.1.2 hmerge.2
  rw [Db.mergeTier, Db.mergeTier, hnodes, hbuffered, List.filter_append, hnone, List.append_nil,
    List.append_assoc, List.append_assoc]
  exact List.Perm.append_left _ List.perm_append_comm

/-- A bucket seal of the merge buffer moves what it took under its node; one below it may put its node
into the merge buffer; any other leaves the tier alone. -/
theorem Committed.mergeTier {snapshot : Buffer} {node : SummaryNode} {nowMs : Int}
    {enqueueFollowUps : Bool} {followUp : Option Queue.SealPayload}
    (h : Committed config snapshot node nowMs enqueueFollowUps db next followUp)
    (hfresh : node.id ∉ db.nodeIds) (hlevel : node.level = snapshot.level + 1)
    (htree : node.treeId = snapshot.treeId) (hdoc : node.docId = none)
    (hchildren : 0 < snapshot.level → node.childIds = snapshot.itemIds) (treeId : String) :
    (next.mergeTier treeId).Perm (db.mergeTier treeId ++
      if treeId = snapshot.treeId ∧ mergeLevelBase = snapshot.level + 1 then [node.id] else []) := by
  have hbuffered := h.buffered treeId mergeLevelBase
  rw [bufferedAfterSeal] at hbuffered
  by_cases hmerge : treeId = snapshot.treeId ∧ mergeLevelBase = snapshot.level
  · obtain ⟨rfl, hbase⟩ := hmerge
    obtain ⟨rest, hrest⟩ := h.snapshotHeld
    rw [← hbase] at hrest
    rw [if_pos ⟨rfl, hbase⟩, ← hrest, List.drop_left] at hbuffered
    have hnode : ([node.bare].filter fun other => other.treeId == snapshot.treeId &&
        other.level == mergeLevelBase + 1 && other.docId.isNone) = [node.bare] := by
      rw [List.filter_singleton, SummaryNode.bare_treeId, SummaryNode.bare_level,
        SummaryNode.bare_docId, htree, hlevel, hdoc, hbase]
      simp
    have htaken : node.bare.childIds = snapshot.itemIds := hchildren (hbase ▸ (by decide))
    rw [if_neg (by omega), List.append_nil, Db.mergeTier, Db.mergeTier, hbuffered, h.nodes hfresh,
      List.filter_append, hnode, List.flatMap_append, List.flatMap_singleton, htaken, ← hrest,
      List.append_assoc, ← List.append_assoc rest]
    exact List.perm_append_comm
  · rw [if_neg hmerge] at hbuffered
    refine mergeTier_grow (h.nodes hfresh) ?_ _ ?_
    · intro other hother hsame hhigh
      rw [List.mem_singleton.mp hother, SummaryNode.bare_treeId, htree] at hsame
      rw [List.mem_singleton.mp hother, SummaryNode.bare_level, hlevel] at hhigh
      exact absurd ⟨hsame.symm, (Nat.succ.inj hhigh).symm⟩ hmerge
    · rw [hbuffered]
      split_ifs
      · rfl
      · exact (List.append_nil _).symm

/-- The document roots that a step puts into the merge tier. -/
def newRoots (config : TreeConfig) (w : Forest) : Forest.Label → String → String → Option Int →
    List String
  | .document doc supply _ crash, treeId, docId, versionMs =>
      match attaching config doc supply crash w.db with
      | none => []
      | some root =>
          if treeId = doc.treeId ∧ docId = doc.docId ∧ versionMs = doc.versionMs then [root.id] else []
  | _, _, _, _ => []

theorem newRoots_of_ne {w : Forest} {label : Forest.Label}
    (hlabel : ∀ doc supply nowMs crash, label ≠ .document doc supply nowMs crash)
    (treeId docId : String) (versionMs : Option Int) :
    newRoots config w label treeId docId versionMs = [] := by
  cases label with
  | document doc supply nowMs crash => exact absurd rfl (hlabel doc supply nowMs crash)
  | append | snapshot | commit | ingest | persist => rfl

/-- An id of a node that belongs to no document version is no root. -/
theorem filter_version_eq_nil {node : SummaryNode} {docId : String} {versionMs : Option Int}
    (hnodup : db.nodeIds.Nodup) (hnode : node ∈ db.nodes) (hdoc : node.docId = none) :
    [node.id].filter (db.isVersionNode docId versionMs) = [] := by
  refine List.filter_eq_nil_iff.mpr fun id hid hroot => ?_
  obtain rfl := List.mem_singleton.mp hid
  obtain ⟨found, hlookup, hfound, -, -⟩ := isVersionNode_iff.mp hroot
  rw [lookup_of_mem hnodup hnode] at hlookup
  obtain rfl := Option.some.inj hlookup
  rw [hdoc] at hfound
  cases hfound

theorem DocumentSeal.Owns.filter_version {doc : DocumentSeal} {root : SummaryNode} (h : doc.Owns root)
    (hnodup : db.nodeIds.Nodup) (hroot : root ∈ db.nodes) (docId : String) (versionMs : Option Int) :
    [root.id].filter (db.isVersionNode docId versionMs) =
      if docId = doc.docId ∧ versionMs = doc.versionMs then [root.id] else [] := by
  have hiff : db.isVersionNode docId versionMs root.id = true ↔
      docId = doc.docId ∧ versionMs = doc.versionMs := by
    rw [isVersionNode_iff, lookup_of_mem hnodup hroot]
    simp only [Option.some.injEq, exists_eq_left', h.docId, h.versionMs, h.deleted, and_true,
      eq_comm (a := doc.docId), eq_comm (a := doc.versionMs)]
  rw [List.filter_cons, List.filter_nil]
  simp only [hiff]

theorem PartOf.layered {doc : DocumentSeal} {batches : List (List String)} {added : List SummaryNode}
    (howned : ∀ node ∈ added, doc.Owns node) {node : SummaryNode} (h : PartOf batches 0 added node)
    (hlevel : 1 < node.level) {id : String} (hid : id ∈ node.childIds) :
    ∃ child ∈ added, child.id = id ∧ child.docId ≠ none ∧ child.level + 1 = node.level := by
  obtain ⟨child, hchild, heq, hbelow⟩ := h.upper hlevel id hid
  refine ⟨child, hchild, heq, ?_, hbelow⟩
  rw [(howned child hchild).docId]
  exact Option.some_ne_none _

end Steps

namespace Forest

variable {config : TreeConfig} {w next : Forest} {label : Label}

/-- What a step does to the merge tier: it may put the root of a document there. -/
theorem tierGrown_step (hsound : Sound w) (hlayered : w.db.Layered) (hmints : Mints w label)
    (hstep : Step config w label next) :
    TierGrown w.db next.db (newRoots config w label) ∧ next.db.Layered := by
  have hnodup := (hsound.step hmints hstep).closed.nodup
  have hpos := fun node hnode => (hsound.live node hnode).2
  cases hstep with
  | quiet hquiet hlabel =>
      have hnodes : next.db.nodes = w.db.nodes ++ [] := by rw [List.append_nil, hquiet.nodes]
      refine ⟨.of_nodes (fun _ => []) hsound.closed hlayered hpos hnodup hnodes ?_ ?_,
        hlayered.grow hnodes fun _ hmem => absurd hmem List.not_mem_nil⟩
      · intro treeId
        rw [mergeTier_congr hquiet.nodes (hquiet.buffered treeId _ (by decide)), List.append_nil]
      · exact fun _ _ _ => (newRoots_of_ne hlabel _ _ _).symm
  | @commit i run summaryId tokenCount nowMs _ next followUp hrun hcommit hseals _ =>
      let node := sealedNode run.snapshot run.inputs summaryId tokenCount nowMs
      have hnodes := hcommit.nodes hmints
      have hnode : node.bare ∈ next.db.nodes := hnodes ▸ List.mem_append_right _ List.mem_cons_self
      refine ⟨.of_nodes _ hsound.closed hlayered hpos hnodup hnodes
        (hcommit.mergeTier hmints rfl rfl rfl (hsound.sealedNode_childIds hrun summaryId tokenCount
          nowMs)) ?_, hlayered.grow hnodes ?_⟩
      · intro treeId docId versionMs
        split_ifs
        · exact filter_version_eq_nil hnodup hnode rfl
        · rfl
      · intro other hother hdoc
        rw [List.mem_singleton.mp hother] at hdoc
        exact absurd rfl hdoc
  | @ingest input summaryId nowMs db hingest =>
      refine ⟨.of_nodes (fun _ => []) hsound.closed hlayered hpos hnodup hingest.nodes ?_
        fun _ _ _ => rfl, hlayered.grow hingest.nodes ?_⟩
      · intro treeId
        refine mergeTier_grow hingest.nodes ?_ _ ?_
        · intro other hother _ hlevel
          rw [List.mem_singleton.mp hother] at hlevel
          exact absurd hlevel (show 1 ≠ mergeLevelBase + 1 by decide)
        · rw [List.append_nil]
          exact (hingest.buffered treeId mergeLevelBase).trans (if_neg fun h => absurd h.2 (by decide))
      · intro other hother hdoc
        rw [List.mem_singleton.mp hother] at hdoc
        exact absurd rfl hdoc
  | @built doc supply nowMs crash db added hnone hgrown hparts =>
      refine ⟨.of_nodes (fun _ => []) hsound.closed hlayered hpos hnodup hgrown.nodes ?_ ?_,
        hlayered.grow hgrown.nodes ?_⟩
      · intro treeId
        refine mergeTier_grow hgrown.nodes ?_ _ ?_
        · intro other hother _ _
          rw [(hgrown.owned other hother).docId]
          exact Option.some_ne_none _
        · rw [List.append_nil]
          exact congrArg Buffer.itemIds (Db.getBuffer_congr hgrown.buffers treeId mergeLevelBase)
      · intro treeId docId versionMs
        rw [newRoots, hnone]
        rfl
      · exact fun other hother _ hlevel id hid =>
          (hparts other hother).layered hgrown.owned hlevel hid
  | @attached doc supply nowMs crash db added root next hroot hattached hbase _ =>
      obtain rfl : next.db = db := congrArg World.db hbase
      refine ⟨.of_nodes (fun treeId => if treeId = doc.treeId then [root.id] else []) hsound.closed
        hlayered hpos hnodup hattached.nodes ?_ ?_, hlayered.grow hattached.nodes ?_⟩
      · intro treeId
        refine mergeTier_grow hattached.nodes ?_ _ ?_
        · intro other hother _ _
          rw [(hattached.owned other hother).docId]
          exact Option.some_ne_none _
        · rw [hattached.buffered]
          by_cases htree : treeId = doc.treeId
          · rw [if_pos ⟨htree, rfl⟩, if_pos htree]
          · rw [if_neg fun h => htree h.1, if_neg htree, List.append_nil]
      · intro treeId docId versionMs
        have hmem : root ∈ next.db.nodes :=
          hattached.nodes ▸ List.mem_append_right _ hattached.built.mem
        rw [newRoots, hroot]
        dsimp only
        by_cases htree : treeId = doc.treeId
        · simp only [htree, if_true, true_and]
          exact (hattached.owned root hattached.built.mem).filter_version hnodup hmem docId versionMs
        · rw [if_neg htree, if_neg fun h => htree h.1]
          rfl
      · exact fun other hother _ hlevel id hid =>
          (hattached.parts other hother).layered hattached.owned hlevel hid

/-- Under an attached root are the stored chunks of its document, in order. -/
theorem leavesOf_attached {doc : DocumentSeal} {supply : List (Option Minted)} {nowMs : Int}
    {crash : Option Crash} {db next : Db} {added : List SummaryNode} {root : SummaryNode}
    (h : Attached config doc supply nowMs crash db added root next) (hnodup : next.nodeIds.Nodup) :
    next.leavesOf root.id = resolvable db doc.chunkIds := by
  have hmem : root ∈ next.nodes := h.nodes ▸ List.mem_append_right _ h.built.mem
  rw [Db.leavesOf, lookup_of_mem hnodup hmem]
  have hitems := h.built.items
  rw [leafBatches, batchLeavesFrom_flatten] at hitems
  exact hitems

/-- What the run has so far: sound rows, layered documents, and every sealed document once. -/
structure Placed (w : Forest) : Prop where
  sound : Sound w
  layered : w.db.Layered
  once : DocumentsOnce w

theorem placed_empty (trees : List (String × TreeKind × String)) : Placed (Forest.empty trees) where
  sound := sound_empty trees
  layered := fun _ hmem => absurd hmem List.not_mem_nil
  once := fun _ hmem => absurd hmem List.not_mem_nil

theorem documentsOnce_of_same (h : Placed w) (hgrown : TierGrown w.db next.db (newRoots config w label))
    (hnone : ∀ old ∈ w.completed, newRoots config w label old.treeId old.docId old.versionMs = []) :
    ∀ old ∈ w.completed, SealedOnce next.db old :=
  fun old hold => (h.once old hold).grow hgrown (hnone old hold)

theorem documents_step (h : Placed w) (hmints : Mints w label) (hok : SealsOnce config w label)
    (hstep : Step config w label next) : DocumentsOnce next := by
  have hgrown := (tierGrown_step h.sound h.layered hmints hstep).1
  have hnodup := (h.sound.step hmints hstep).closed.nodup
  cases hstep with
  | quiet hquiet hlabel =>
      rw [DocumentsOnce, hquiet.completed]
      exact documentsOnce_of_same h hgrown fun _ _ => newRoots_of_ne hlabel _ _ _
  | commit hrun hcommit hseals hcompleted =>
      rw [DocumentsOnce, hcompleted]
      exact documentsOnce_of_same h hgrown fun _ _ => rfl
  | ingest hingest =>
      have hkept := documentsOnce_of_same h hgrown fun _ _ => rfl
      exact hkept
  | built hnone _ _ =>
      have hkept := documentsOnce_of_same h hgrown fun old _ => by rw [newRoots, hnone]
      exact hkept
  | @attached doc supply nowMs crash db added root next hroot hattached hbase hcompleted =>
      obtain rfl : next.db = db := congrArg World.db hbase
      have hcond := hok (hroot ▸ rfl)
      have hother : ∀ old ∈ w.completed,
          ¬(old.treeId = doc.treeId ∧ old.docId = doc.docId ∧ old.versionMs = doc.versionMs) := by
        intro old hold hsame
        split_ifs at hcond
        · exact hcond old hold hsame
        · obtain ⟨other, hroots, -⟩ := h.once old hold
          rw [hsame.1, hsame.2.1, hsame.2.2, hcond.2] at hroots
          cases hroots
      have hkept := documentsOnce_of_same h hgrown fun old hold => by
        rw [newRoots, hroot]
        exact if_neg (hother old hold)
      rw [DocumentsOnce, hcompleted]
      split_ifs at hcond ⊢
      · exact hkept
      · intro new hnew
        rcases List.mem_append.mp hnew with hold | hlast
        · exact hkept new hold
        · obtain rfl := List.mem_singleton.mp hlast
          have hroots := hgrown.roots doc.treeId doc.docId doc.versionMs
          rw [hcond.2, newRoots, hroot] at hroots
          dsimp only at hroots
          rw [if_pos ⟨rfl, rfl, rfl⟩, List.nil_append, List.perm_singleton] at hroots
          have hleaves := leavesOf_attached hattached hnodup
          exact ⟨root.id, hroots, hleaves ▸ hcond.1, fun id => hleaves ▸ Iff.rfl⟩

/-- A second root of a version is not unmade: the version is in the tier twice after the step. -/
theorem documents_broken (h : Placed w) (hmints : Mints w label) (hbad : ¬SealsOnce config w label)
    (hstep : Step config w label next) : ¬DocumentsOnce next := by
  intro honce
  have hgrown := (tierGrown_step h.sound h.layered hmints hstep).1
  have hnodup := (h.sound.step hmints hstep).closed.nodup
  cases hstep with
  | quiet _ hlabel =>
      refine absurd ?_ hbad
      cases label with
      | document doc supply nowMs crash => exact absurd rfl (hlabel doc supply nowMs crash)
      | append | snapshot | commit | ingest | persist => exact trivial
  | commit | ingest => exact absurd trivial hbad
  | built hnone _ _ =>
      refine absurd (fun hsome => ?_) hbad
      rw [hnone] at hsome
      cases hsome
  | @attached doc supply nowMs crash db added root next hroot hattached hbase hcompleted =>
      obtain rfl : next.db = db := congrArg World.db hbase
      refine hbad fun _ => ?_
      have hroots := hgrown.roots doc.treeId doc.docId doc.versionMs
      rw [newRoots, hroot] at hroots
      dsimp only at hroots
      rw [if_pos ⟨rfl, rfl, rfl⟩] at hroots
      have hlength := hroots.length_eq
      rw [List.length_append, List.length_singleton] at hlength
      rw [DocumentsOnce, hcompleted] at honce
      split_ifs at honce ⊢
      · rintro old hold ⟨htree, hdoc, hversion⟩
        obtain ⟨before, hbefore, -⟩ := h.once old hold
        obtain ⟨after, hafter, -⟩ := honce old hold
        rw [htree, hdoc, hversion] at hbefore hafter
        rw [hbefore, hafter] at hlength
        cases hlength
      · obtain ⟨after, hafter, hleaves, -⟩ := honce _ (List.mem_append_right _ List.mem_cons_self)
        dsimp only at hafter
        rw [hafter] at hlength hroots
        have hnone : w.db.versionRoots doc.treeId doc.docId doc.versionMs = [] :=
          List.length_eq_zero_iff.mp (Nat.succ.inj hlength).symm
        rw [hnone, List.nil_append, List.singleton_perm_singleton] at hroots
        rw [hroots, leavesOf_attached hattached hnodup] at hleaves
        exact ⟨hleaves, hnone⟩

/-- In every run every document that was sealed to the end is in the merge tier exactly once, with every
chunk of it once, exactly when no completed call finds a root of its version there. -/
theorem documents_run_iff (config : TreeConfig) (trees : List (String × TreeKind × String))
    (labels : List Label) (hmints : (growing config trees).AllSteps Mints labels) :
    (growing config trees).Throughout DocumentsOnce labels ↔
      (growing config trees).AllSteps (SealsOnce config) labels := by
  have hstart : DocumentsOnce (growing config trees).start := (placed_empty trees).once
  rw [(growing config trees).throughout_iff_allSteps, and_iff_right hstart]
  refine (growing config trees).allSteps_iff_of_guard Placed (placed_empty trees) ?_ ?_ hmints
  · intro w label h hlegal hok
    have hstep := advance_step config h.sound hlegal
    have honce := documents_step h hlegal hok hstep
    exact ⟨⟨sound_advance h.sound hlegal, (tierGrown_step h.sound h.layered hlegal hstep).2, honce⟩,
      honce⟩
  · exact fun w label h hlegal hbad =>
      documents_broken h hlegal hbad (advance_step config h.sound hlegal)

/-- A document of two chunks, one batch each. -/
def twoBatches : DocumentSeal := ⟨"tree-1", "doc-1", some 1, ["chunk-1", "chunk-2"]⟩

/-- The call dies after its first batch; the second call completes and its root is merged. -/
def retryAfterBatch : List Label :=
  [.persist (chunk "chunk-1"), .persist (chunk "chunk-2"),
    .document twoBatches [some ⟨"summary-1", 5, 1⟩, none] 1 none,
    .document twoBatches [some ⟨"summary-2", 5, 2⟩, some ⟨"summary-3", 5, 2⟩, some ⟨"summary-4", 5, 2⟩]
      2 none,
    .snapshot "tree-1" mergeLevelBase, .commit 0 "summary-5" 5 3 false]

/-- The call dies after it appended its root; the second call completes. -/
def retryAfterAppend : List Label :=
  [.persist (chunk "chunk-1"),
    .document ⟨"tree-1", "doc-1", some 1, ["chunk-1"]⟩ [some ⟨"summary-1", 5, 1⟩] 1 (some .beforeHeader),
    .document ⟨"tree-1", "doc-1", some 1, ["chunk-1"]⟩ [some ⟨"summary-2", 5, 2⟩] 2 none]

theorem documents_run_retryAfterBatch : oneTree.Throughout DocumentsOnce retryAfterBatch := by
  refine (documents_run_iff _ _ retryAfterBatch (Machine.allSteps_iff_stepsFrom _ |>.mpr ?_)).mpr
    (Machine.allSteps_iff_stepsFrom _ |>.mpr ?_)
  · decide
  · decide

theorem retryAfterAppend_twoRoots :
    ¬∀ config trees labels, (growing config trees).AllSteps Mints labels →
      (growing config trees).Throughout DocumentsOnce labels := by
  intro hall
  have hmints : oneTree.AllSteps Mints retryAfterAppend :=
    oneTree.allSteps_iff_stepsFrom.mpr (by decide)
  have honce := hall _ _ retryAfterAppend hmints retryAfterAppend List.prefix_rfl
  obtain ⟨root, hroots, -⟩ := honce ⟨"tree-1", "doc-1", some 1, ["chunk-1"]⟩ (by decide)
  have hlength : 2 = 1 := congrArg List.length hroots
  cases hlength

end Forest

end TinyCortex.SummaryTree
