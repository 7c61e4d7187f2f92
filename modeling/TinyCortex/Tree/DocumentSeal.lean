import TinyCortex.Tree.Reach

/-! Per-document subtrees (`tree/document_seal.rs`). A document version is sealed bottom-up into a
subtree of its own, one committed node for each batch, level by level; its root then joins the
cross-document merge tier. Every step is a transaction of its own, so a call may stop after any of
them. The nodes of one level commit concurrently, so any of them may be missing when it stops. -/

namespace TinyCortex.SummaryTree

open Table Chunks

/-- Level offset reserved for cross-document merge nodes. -/
def mergeLevelBase : Nat := 1000

def docSubtreeMaxFanin : Nat := 32

/-- The arguments of one `seal_document_subtree` call. -/
structure DocumentSeal where
  treeId : String
  docId : String
  versionMs : Option Int
  chunkIds : List String
  deriving DecidableEq, Repr

/-- What sealing one node takes from outside: its id, the tokens of the summary and the clock. -/
structure Minted where
  id : String
  tokenCount : Nat
  nowMs : Int
  deriving DecidableEq, Repr

/-- How a call ends short of its result. -/
inductive Halt
  | failed (error : TreeError)
  | crashed
  deriving DecidableEq, Repr

/-- The loop of `batch_leaves_by_token_budget`: a batch is cut when the next chunk would take it over
the budget, or when it is full. Ids without a chunk are skipped. -/
def batchLeavesFrom (config : TreeConfig) (db : Db) (current : List String) (tokens : Nat) :
    List String → List (List String)
  | [] => if current = [] then [] else [current]
  | id :: ids =>
      match db.getChunk id with
      | none => batchLeavesFrom config db current tokens ids
      | some chunk =>
          if current ≠ [] ∧ (config.inputTokenBudget < tokens + chunk.tokenCount ∨
              docSubtreeMaxFanin ≤ current.length) then
            current :: batchLeavesFrom config db [id] chunk.tokenCount ids
          else batchLeavesFrom config db (current ++ [id]) (tokens + chunk.tokenCount) ids

def batchLeavesByTokenBudget (config : TreeConfig) (db : Db) (chunkIds : List String) :
    Except TreeError (List (List String)) :=
  let batches := batchLeavesFrom config db [] 0 chunkIds
  if batches = [] then .error .noResolvableChunks else .ok batches

def batchByCountFrom (max : Nat) (current : List String) : List String → List (List String)
  | [] => if current = [] then [] else [current]
  | id :: ids =>
      if current.length < max then batchByCountFrom max (current ++ [id]) ids
      else current :: batchByCountFrom max [id] ids

/-- `ids.chunks(max.max(1))`. -/
def batchByCount (ids : List String) (max : Nat) : List (List String) :=
  batchByCountFrom (Nat.max max 1) [] ids

/-- The node over one batch. A single small input is passed on, not summarised. -/
def explicitNode (config : TreeConfig) (doc : DocumentSeal) (level : Nat) (childIds : List String)
    (inputs : List SummaryInput) (minted : Minted) : SummaryNode where
  id := minted.id
  treeId := doc.treeId
  level := level + 1
  parentId := none
  childIds := childIds
  tokenCount :=
    match inputs with
    | [input] =>
        if input.tokenCount ≤ config.outputTokenBudget then input.tokenCount else minted.tokenCount
    | _ => minted.tokenCount
  timeRangeStartMs := ((inputs.map SummaryInput.timeRangeStartMs).min?).getD minted.nowMs
  timeRangeEndMs := ((inputs.map SummaryInput.timeRangeEndMs).max?).getD minted.nowMs
  sealedAtMs := minted.nowMs
  deleted := false
  docId := some doc.docId
  versionMs := doc.versionMs

def sealExplicitChildren (config : TreeConfig) (doc : DocumentSeal) (level : Nat)
    (childIds : List String) (minted : Minted) (db : Db) : Except TreeError (Db × SummaryNode) := do
  let inputs := hydrateInputs db level childIds
  if inputs = [] then .error (.noHydratedInputs level)
  else
    let node := explicitNode config doc level childIds inputs minted
    let _ ← db.requireActive doc.treeId
    .ok (insertSealed level node db, node)

/-- One batch of a level; without anything minted the call stops before the batch commits. -/
def sealBatch (config : TreeConfig) (doc : DocumentSeal) (level : Nat) (batch : List String)
    (minted : Option Minted) (db : Db) : Db × Except Halt SummaryNode :=
  match minted with
  | none => (db, .error .crashed)
  | some minted =>
      match sealExplicitChildren config doc level batch minted db with
      | .error error => (db, .error (.failed error))
      | .ok (next, node) => (next, .ok node)

/-- All batches of a level; the nodes, when every batch committed. -/
def sealBatches (config : TreeConfig) (doc : DocumentSeal) (level : Nat) :
    List (List String) → List (Option Minted) → Db → Db × Except Halt (List SummaryNode)
  | [], _, db => (db, .ok [])
  | batch :: batches, supply, db =>
      let first := sealBatch config doc level batch supply.head?.join db
      let rest := sealBatches config doc level batches supply.tail first.1
      (rest.1, do
        let node ← first.2
        let nodes ← rest.2
        .ok (node :: nodes))

/-- The levels of a subtree from a given one on, until a level has one node. Each level has fewer nodes
than the one below it, so there are at most as many levels as first batches. -/
def buildLevels (config : TreeConfig) (doc : DocumentSeal) :
    Nat → Nat → List (List String) → List (Option Minted) → Db → Db × Except Halt SummaryNode
  | 0, _, _, _, db => (db, .error (.failed .noDocumentRoot))
  | fuel + 1, level, batches, supply, db =>
      match sealBatches config doc level batches supply db with
      | (next, .error halt) => (next, .error halt)
      | (next, .ok []) => (next, .error (.failed .noDocumentRoot))
      | (next, .ok [root]) => (next, .ok root)
      | (next, .ok nodes) =>
          buildLevels config doc fuel (level + 1)
            (batchByCount (nodes.map SummaryNode.id) docSubtreeMaxFanin)
            (supply.drop batches.length) next

/-- Seal the subtree of a document version; its root. -/
def buildSubtree (config : TreeConfig) (doc : DocumentSeal) (supply : List (Option Minted)) (db : Db) :
    Db × Except Halt SummaryNode :=
  if doc.chunkIds = [] then (db, .error (.failed .emptyChunkSet))
  else
    match batchLeavesByTokenBudget config db doc.chunkIds with
    | .error error => (db, .error (.failed error))
    | .ok batches => buildLevels config doc batches.length 0 batches supply db

/-- Where a call may stop after its subtree is sealed. -/
inductive Crash
  | beforeAppend
  | beforeHeader
  deriving DecidableEq, Repr

/-- The header transaction: the document root becomes the root of the tree. -/
def moveHeader (tree : Tree) (root : SummaryNode) (nowMs : Int) (db : Db) : Db :=
  if tree.rootId ≠ some root.id ∨ tree.maxLevel < root.level then
    db.updateTreeAfterSeal tree.id root.id root.level nowMs
  else db

/-- Append the root to the merge buffer, then update the header. -/
def attachRoot (doc : DocumentSeal) (root : SummaryNode) (nowMs : Int) (crash : Option Crash)
    (db : Db) : Db × Except Halt String :=
  if crash = some .beforeAppend then (db, .error .crashed)
  else
    match appendToBuffer doc.treeId mergeLevelBase root.id root.tokenCount root.timeRangeStartMs db
      with
    | .error error => (db, .error (.failed error))
    | .ok appended =>
        if crash = some .beforeHeader then (appended, .error .crashed)
        else
          match appended.requireActive doc.treeId with
          | .error error => (appended, .error (.failed error))
          | .ok tree => (moveHeader tree root nowMs appended, .ok root.id)

/-- A document seal up to the cascade over the merge tier. -/
def sealDocument (config : TreeConfig) (doc : DocumentSeal) (supply : List (Option Minted))
    (nowMs : Int) (crash : Option Crash) (db : Db) : Db × Except Halt String :=
  match buildSubtree config doc supply db with
  | (next, .error halt) => (next, .error halt)
  | (next, .ok root) => attachRoot doc root nowMs crash next

/-- The root that a call gets to append to the merge buffer. -/
def attaching (config : TreeConfig) (doc : DocumentSeal) (supply : List (Option Minted))
    (crash : Option Crash) (db : Db) : Option SummaryNode :=
  match buildSubtree config doc supply db with
  | (_, .ok root) => if crash = some .beforeAppend then none else some root
  | (_, .error _) => none

/-- The first batches of a document: those over its chunks. -/
def leafBatches (config : TreeConfig) (doc : DocumentSeal) (db : Db) : List (List String) :=
  batchLeavesFrom config db [] 0 doc.chunkIds

/-! ### Batches -/

section Batches

variable {config : TreeConfig} {db : Db}

/-- The ids that have a chunk. -/
def resolvable (db : Db) (ids : List String) : List String := ids.filter fun id => (db.getChunk id).isSome

theorem batchLeavesFrom_flatten (ids current : List String) (tokens : Nat) :
    (batchLeavesFrom config db current tokens ids).flatten = current ++ resolvable db ids := by
  induction ids generalizing current tokens with
  | nil =>
      unfold batchLeavesFrom
      split_ifs with h <;> simp [h, resolvable]
  | cons id ids ih =>
      unfold batchLeavesFrom
      cases hget : db.getChunk id with
      | none => simp [ih, resolvable, hget]
      | some chunk =>
          dsimp only
          split_ifs
          · rw [List.flatten_cons, ih]
            simp [resolvable, hget]
          · rw [ih]
            simp [resolvable, hget]

theorem batchByCountFrom_flatten (max : Nat) (ids current : List String) :
    (batchByCountFrom max current ids).flatten = current ++ ids := by
  induction ids generalizing current with
  | nil =>
      unfold batchByCountFrom
      split_ifs with h <;> simp [h]
  | cons id ids ih =>
      unfold batchByCountFrom
      split_ifs <;> simp [ih]

theorem batchByCount_flatten (ids : List String) (max : Nat) : (batchByCount ids max).flatten = ids :=
  batchByCountFrom_flatten _ _ _

theorem batchByCountFrom_length (max : Nat) (hmax : 0 < max) (ids current : List String)
    (hcur : current.length ≤ max) :
    (batchByCountFrom max current ids).length = (current.length + ids.length + (max - 1)) / max := by
  induction ids generalizing current with
  | nil =>
      unfold batchByCountFrom
      split_ifs with h
      · rw [h]
        exact (Nat.div_eq_of_lt (by simp; omega)).symm
      · have hpos := List.length_pos_iff.mpr h
        refine (Nat.div_eq_of_lt_le ?_ ?_).symm <;> simp <;> omega
  | cons id ids ih =>
      unfold batchByCountFrom
      split_ifs with h
      · rw [ih _ (by simpa using Nat.succ_le_of_lt h), List.length_append, List.length_cons, List.length_nil,
          List.length_cons]
        congr 2
        omega
      · rw [List.length_cons, ih [id] (by simpa using Nat.succ_le_of_lt hmax), List.length_cons, List.length_nil,
          List.length_cons, ← Nat.add_div_right _ hmax]
        congr 1
        omega

/-- The number of levels of a subtree over `n` batches. -/
def subtreeHeight : Nat → Nat → Nat
  | 0, _ => 0
  | fuel + 1, n => if n ≤ 1 then 1 else 1 + subtreeHeight fuel ((n + 31) / 32)

theorem batchByCount_length (ids : List String) :
    (batchByCount ids docSubtreeMaxFanin).length = (ids.length + 31) / 32 := by
  have h := batchByCountFrom_length 32 (by decide) ids [] (Nat.zero_le _)
  rwa [List.length_nil, Nat.zero_add] at h

end Batches

/-! ### What a build adds -/

section Build

variable {config : TreeConfig} {doc : DocumentSeal} {level : Nat} {db mid next : Db}
  {supply rest : List (Option Minted)} {added more : List SummaryNode}

/-- The ids a supply can still mint. -/
def supplyIds (supply : List (Option Minted)) : List String :=
  supply.filterMap (Option.map Minted.id)

/-- The supply mints every id once, and none that has a row. -/
structure FreshSupply (supply : List (Option Minted)) (db : Db) : Prop where
  nodup : (supplyIds supply).Nodup
  unused : ∀ id ∈ supplyIds supply, id ∉ db.nodeIds

instance (supply : List (Option Minted)) (db : Db) : Decidable (FreshSupply supply db) :=
  decidable_of_iff ((supplyIds supply).Nodup ∧ ∀ id ∈ supplyIds supply, id ∉ db.nodeIds)
    ⟨fun h => ⟨h.1, h.2⟩, fun h => ⟨h.nodup, h.unused⟩⟩

/-- A live node of the document version that `doc` seals. -/
structure DocumentSeal.Owns (doc : DocumentSeal) (node : SummaryNode) : Prop where
  treeId : node.treeId = doc.treeId
  docId : node.docId = some doc.docId
  versionMs : node.versionMs = doc.versionMs
  deleted : node.deleted = false

/-- Nodes of the document were added under ids of the supply, and nothing else changed. -/
structure Grown (doc : DocumentSeal) (supply : List (Option Minted)) (added : List SummaryNode)
    (db next : Db) : Prop where
  nodes : next.nodes = db.nodes ++ added
  trees : next.trees = db.trees
  chunks : next.chunks = db.chunks
  buffers : next.buffers = db.buffers
  ids : (added.map SummaryNode.id).Sublist (supplyIds supply)
  owned : ∀ node ∈ added, doc.Owns node

theorem Grown.refl (doc : DocumentSeal) (supply : List (Option Minted)) (db : Db) :
    Grown doc supply [] db db where
  nodes := (List.append_nil _).symm
  trees := rfl
  chunks := rfl
  buffers := rfl
  ids := List.nil_sublist _
  owned := fun _ h => absurd h List.not_mem_nil

theorem Grown.trans (h : Grown doc supply added db mid) (h' : Grown doc rest more mid next) :
    Grown doc (supply ++ rest) (added ++ more) db next where
  nodes := by rw [h'.nodes, h.nodes, List.append_assoc]
  trees := h'.trees.trans h.trees
  chunks := h'.chunks.trans h.chunks
  buffers := h'.buffers.trans h.buffers
  ids := by
    rw [List.map_append, supplyIds, List.filterMap_append]
    exact h.ids.append h'.ids
  owned := by
    intro node hnode
    exact (List.mem_append.mp hnode).elim (h.owned node) (h'.owned node)

theorem Grown.nodeIds (h : Grown doc supply added db next) :
    next.nodeIds = db.nodeIds ++ added.map SummaryNode.id := by
  rw [Db.nodeIds, h.nodes, List.map_append]
  rfl

theorem Grown.fresh (h : Grown doc supply added db next) (hfresh : FreshSupply supply db) :
    ∀ node ∈ added, node.id ∉ db.nodeIds :=
  fun _ hnode => hfresh.unused _ (h.ids.subset (List.mem_map_of_mem hnode))

/-- What is left of a fresh supply is fresh for the nodes that it has not minted. -/
theorem Grown.freshSupply (h : Grown doc supply added db next)
    (hfresh : FreshSupply (supply ++ rest) db) : FreshSupply rest next := by
  have hids : supplyIds (supply ++ rest) = supplyIds supply ++ supplyIds rest :=
    List.filterMap_append
  have hnodup := hfresh.nodup
  rw [hids, List.nodup_append] at hnodup
  refine ⟨hnodup.2.1, fun id hid => ?_⟩
  rw [h.nodeIds, List.mem_append, not_or]
  refine ⟨hfresh.unused id (hids ▸ List.mem_append_right _ hid), fun hmem => ?_⟩
  exact hnodup.2.2 id (h.ids.subset hmem) id hid rfl

theorem FreshSupply.take (h : FreshSupply supply db) (n : Nat) : FreshSupply (supply.take n) db where
  nodup := h.nodup.sublist ((List.take_sublist _ _).filterMap _)
  unused := fun id hid => h.unused id (((List.take_sublist _ _).filterMap _).subset hid)

theorem Grown.nodup (h : Grown doc supply added db next) (hfresh : FreshSupply supply db)
    (hnodup : db.nodeIds.Nodup) : next.nodeIds.Nodup := by
  rw [h.nodeIds, List.nodup_append]
  refine ⟨hnodup, hfresh.nodup.sublist h.ids, fun id hid id' hid' => ?_⟩
  rintro rfl
  exact hfresh.unused id (h.ids.subset hid') hid

/-- A batch either commits its node or changes nothing. -/
theorem sealBatch_grown {batch : List String} {minted : Option Minted}
    {result : Except Halt SummaryNode} (hfresh : FreshSupply [minted] db)
    (h : sealBatch config doc level batch minted db = (next, result)) :
    ∃ added, Grown doc [minted] added db next ∧
      (∀ node ∈ added, node.level = level + 1 ∧ node.childIds = batch) ∧
      ∀ node, result = .ok node → added = [node] := by
  have hidle : ∀ halt, (db, Except.error halt) = (next, result) →
      ∃ added, Grown doc [minted] added db next ∧
        (∀ node ∈ added, node.level = level + 1 ∧ node.childIds = batch) ∧
        ∀ node, result = .ok node → added = [node] := by
    intro halt heq
    obtain ⟨rfl, rfl⟩ := Prod.mk.inj heq
    exact ⟨[], Grown.refl _ _ _, fun _ hmem => absurd hmem List.not_mem_nil, fun _ hr => nomatch hr⟩
  unfold sealBatch at h
  split at h
  · exact hidle _ h
  · rename_i minted
    split at h
    · exact hidle _ h
    · rename_i _ db' node hok
      obtain ⟨rfl, rfl⟩ := Prod.mk.inj h
      unfold sealExplicitChildren at hok
      dsimp only at hok
      split_ifs at hok
      obtain ⟨tree, -, hok⟩ := Fallible.bind_ok_iff.mp hok
      obtain ⟨rfl, rfl⟩ := Prod.mk.inj (Except.ok.inj hok)
      have hnew := hfresh.unused minted.id List.mem_cons_self
      obtain ⟨hbuf, htrees, hchunks⟩ := insertSealed_frame level
        (explicitNode config doc level batch (hydrateInputs db level batch) minted) db
      refine ⟨[_], ⟨Db.nodes_insertSealed _ _ hnew, htrees, hchunks, hbuf, List.Sublist.refl _, ?_⟩, ?_, ?_⟩
      · intro node hnode
        obtain rfl := List.mem_singleton.mp hnode
        exact ⟨rfl, rfl, rfl, rfl⟩
      · intro node hnode
        obtain rfl := List.mem_singleton.mp hnode
        exact ⟨rfl, rfl⟩
      · rintro node hnode
        obtain rfl := Except.ok.inj hnode
        rfl

theorem supplyIds_cons (supply : List (Option Minted)) :
    supplyIds supply = supplyIds [supply.head?.join] ++ supplyIds supply.tail := by
  cases supply with
  | nil => rfl
  | cons minted supply => exact List.filterMap_append (l := [minted])

/-- The nodes a level committed, one for each batch when all of them did. -/
theorem sealBatches_grown {batches : List (List String)} {result : Except Halt (List SummaryNode)}
    (hfresh : FreshSupply supply db)
    (h : sealBatches config doc level batches supply db = (next, result)) :
    ∃ added, Grown doc (supply.take batches.length) added db next ∧
      (∀ node ∈ added, node.level = level + 1 ∧ node.childIds ∈ batches) ∧
      ∀ nodes, result = .ok nodes → added = nodes ∧ nodes.map SummaryNode.childIds = batches := by
  induction batches generalizing supply db next result with
  | nil =>
      obtain ⟨rfl, rfl⟩ := Prod.mk.inj h
      refine ⟨[], Grown.refl _ _ _, fun _ hmem => absurd hmem List.not_mem_nil, fun nodes hr => ?_⟩
      obtain rfl := Except.ok.inj hr
      exact ⟨rfl, rfl⟩
  | cons batch batches ih =>
      rw [sealBatches] at h
      rcases hfirst : sealBatch config doc level batch supply.head?.join db with ⟨mid, r⟩
      rcases hrest : sealBatches config doc level batches supply.tail mid with ⟨last, r'⟩
      rw [hfirst] at h
      dsimp only at h
      rw [hrest] at h
      obtain ⟨rfl, rfl⟩ := Prod.mk.inj h
      have hsplit : FreshSupply ([supply.head?.join] ++ supply.tail) db := by
        refine ⟨?_, ?_⟩
        all_goals rw [supplyIds, List.filterMap_append, ← supplyIds, ← supplyIds, ← supplyIds_cons]
        · exact hfresh.nodup
        · exact hfresh.unused
      have hhead : FreshSupply [supply.head?.join] db := by
        refine ⟨hfresh.nodup.sublist ?_, fun id hid => hfresh.unused id ?_⟩
        all_goals rw [supplyIds_cons supply]
        · exact List.sublist_append_left _ _
        · exact List.mem_append_left _ hid
      obtain ⟨one, hone, hlevel, hok⟩ := sealBatch_grown hhead hfirst
      obtain ⟨more, hmore, hlevels, hoks⟩ := ih (hone.freshSupply hsplit) hrest
      have hboth := hone.trans hmore
      refine ⟨one ++ more, { hboth with ids := ?_ }, ?_, ?_⟩
      · have hids := hboth.ids
        cases supply with
        | nil => simpa [supplyIds] using hids
        | cons minted supply => exact hids
      · intro node hnode
        rcases List.mem_append.mp hnode with h1 | h2
        · exact ⟨(hlevel node h1).1, (hlevel node h1).2 ▸ List.mem_cons_self⟩
        · exact ⟨(hlevels node h2).1, List.mem_cons_of_mem _ (hlevels node h2).2⟩
      · intro nodes hnodes
        obtain ⟨node, hnode, hnodes⟩ := Fallible.bind_ok_iff.mp hnodes
        obtain ⟨tail, htail, hnodes⟩ := Fallible.bind_ok_iff.mp hnodes
        obtain rfl := Except.ok.inj hnodes
        obtain rfl := hok node hnode
        obtain ⟨rfl, hbatches⟩ := hoks tail htail
        refine ⟨rfl, ?_⟩
        rw [List.map_cons, hbatches, (hlevel node List.mem_cons_self).2]

/-- A node of a document subtree: its children are the batch of a first level, or nodes of the
document one level down. -/
structure PartOf (batches : List (List String)) (level : Nat) (added : List SummaryNode)
    (node : SummaryNode) : Prop where
  above : level < node.level
  first : node.level = level + 1 → node.childIds ∈ batches
  upper : level + 1 < node.level →
    ∀ id ∈ node.childIds, ∃ child ∈ added, child.id = id ∧ child.level + 1 = node.level

/-- What a completed build returns: the topmost of the added nodes, over all first batches in order. -/
structure RootOf (batches : List (List String)) (level : Nat) (fuel : Nat) (added : List SummaryNode)
    (next : Db) (root : SummaryNode) : Prop where
  mem : root ∈ added
  top : ∀ node ∈ added, node.level ≤ root.level
  height : root.level = level + subtreeHeight fuel batches.length
  items : next.descend (root.level - level) root.id = batches.flatten

theorem PartOf.weaken {batches : List (List String)} {node : SummaryNode}
    (h : PartOf batches level added node) (more : List SummaryNode) :
    PartOf batches level (added ++ more) node where
  above := h.above
  first := h.first
  upper := by
    intro hlt id hid
    obtain ⟨child, hchild, hrest⟩ := h.upper hlt id hid
    exact ⟨child, List.mem_append_left _ hchild, hrest⟩

theorem PartOf.lift {batches batches' : List (List String)} {node : SummaryNode}
    (hbatches : batches'.flatten = added.map SummaryNode.id)
    (hlevel : ∀ child ∈ added, child.level = level + 1)
    (h : PartOf batches' (level + 1) more node) : PartOf batches level (added ++ more) node where
  above := Nat.lt_of_succ_lt h.above
  first := fun heq => absurd h.above (by omega)
  upper := by
    intro hlt id hid
    by_cases hfirst : node.level = level + 1 + 1
    · have hmem : id ∈ added.map SummaryNode.id :=
        hbatches ▸ List.mem_flatten.mpr ⟨_, h.first hfirst, hid⟩
      obtain ⟨child, hchild, rfl⟩ := List.mem_map.mp hmem
      exact ⟨child, List.mem_append_left _ hchild, rfl, by rw [hlevel child hchild, hfirst]⟩
    · obtain ⟨child, hchild, hrest⟩ := h.upper (by have := h.above; omega) id hid
      exact ⟨child, List.mem_append_right _ hchild, hrest⟩

theorem RootOf.single {fuel : Nat} {root : SummaryNode} (hgrown : Grown doc supply [root] db next)
    (hnodup : next.nodeIds.Nodup) (hlevel : root.level = level + 1) :
    RootOf [root.childIds] level (fuel + 1) [root] next root where
  mem := List.mem_cons_self
  top := fun node hnode => (List.mem_singleton.mp hnode) ▸ le_rfl
  height := by rw [hlevel, subtreeHeight, List.length_singleton, if_pos le_rfl]
  items := by
    have hmem : root ∈ next.nodes := hgrown.nodes ▸ List.mem_append_right _ List.mem_cons_self
    rw [hlevel, Nat.add_sub_cancel_left, Db.descend, Descent.descend, next.childIdsOf_eq hnodup hmem]
    simp [Descent.descend]

theorem RootOf.lift {batches : List (List String)} {fuel : Nat} {root : SummaryNode}
    (hgrown : Grown doc rest more mid next) (hmid : mid.nodes = db.nodes ++ added)
    (hnodup : next.nodeIds.Nodup) (hlevel : ∀ child ∈ added, child.level = level + 1)
    (hchildren : added.map SummaryNode.childIds = batches) (hmany : 1 < added.length)
    (h : RootOf (batchByCount (added.map SummaryNode.id) docSubtreeMaxFanin) (level + 1) fuel more next
      root) (habove : level + 1 < root.level) :
    RootOf batches level (fuel + 1) (added ++ more) next root where
  mem := List.mem_append_right _ h.mem
  top := by
    intro node hnode
    rcases List.mem_append.mp hnode with hold | hmore
    · rw [hlevel node hold]
      exact habove.le
    · exact h.top node hmore
  height := by
    have hlen : batches.length = added.length := by rw [← hchildren, List.length_map]
    rw [h.height, batchByCount_length, List.length_map, subtreeHeight, hlen, if_neg (by omega)]
    omega
  items := by
    have hdepth : root.level - level = root.level - (level + 1) + 1 := by omega
    have hitems := h.items
    rw [batchByCount_flatten] at hitems
    rw [hdepth, Db.descend, Descent.descend_succ, ← Db.descend, hitems, List.flatMap_map, ← hchildren, ← List.flatMap_def]
    refine List.flatMap_congr fun node hnode => next.childIdsOf_eq hnodup ?_
    rw [hgrown.nodes, hmid]
    exact List.mem_append_left _ (List.mem_append_right _ hnode)

/-- The nodes a build adds, wherever it stops, and the subtree it returns when it does not. -/
theorem buildLevels_grown {fuel : Nat} {batches : List (List String)}
    {result : Except Halt SummaryNode} (hfresh : FreshSupply supply db) (hnodup : db.nodeIds.Nodup)
    (h : buildLevels config doc fuel level batches supply db = (next, result)) :
    ∃ added, Grown doc supply added db next ∧ (∀ node ∈ added, PartOf batches level added node) ∧
      ∀ root, result = .ok root → RootOf batches level fuel added next root := by
  induction fuel generalizing level batches supply db next result with
  | zero =>
      obtain ⟨rfl, rfl⟩ := Prod.mk.inj h
      exact ⟨[], Grown.refl _ _ _, fun _ hmem => absurd hmem List.not_mem_nil, fun _ hr => nomatch hr⟩
  | succ fuel ih =>
      rw [buildLevels] at h
      rcases hlevel : sealBatches config doc level batches supply db with ⟨mid, r⟩
      rw [hlevel] at h
      obtain ⟨added, hgrown, hadded, hok⟩ := sealBatches_grown hfresh hlevel
      have hpart : ∀ node ∈ added, PartOf batches level added node := by
        intro node hnode
        obtain ⟨habove, hmem⟩ := hadded node hnode
        exact ⟨by omega, fun _ => hmem, fun hlt => absurd habove (by omega)⟩
      have hwhole : Grown doc supply added db mid :=
        { hgrown with ids := hgrown.ids.trans ((List.take_sublist _ _).filterMap _) }
      have hmidNodup := hgrown.nodup (hfresh.take _) hnodup
      split at h
      · rename_i heq
        obtain ⟨rfl, rfl⟩ := Prod.mk.inj heq
        obtain ⟨rfl, rfl⟩ := Prod.mk.inj h
        exact ⟨added, hwhole, hpart, fun _ hr => nomatch hr⟩
      · rename_i heq
        obtain ⟨rfl, rfl⟩ := Prod.mk.inj heq
        obtain ⟨rfl, rfl⟩ := Prod.mk.inj h
        exact ⟨added, hwhole, hpart, fun _ hr => nomatch hr⟩
      · rename_i _ root heq
        obtain ⟨rfl, rfl⟩ := Prod.mk.inj h
        obtain ⟨rfl, rfl⟩ := Prod.mk.inj heq
        obtain ⟨rfl, rfl⟩ := hok [root] rfl
        refine ⟨[root], hwhole, hpart, fun root' hr => ?_⟩
        obtain rfl := Except.ok.inj hr
        exact RootOf.single hgrown hmidNodup (hadded root List.mem_cons_self).1
      · rename_i _ nodes hone hmany heq
        obtain ⟨rfl, rfl⟩ := Prod.mk.inj heq
        obtain ⟨rfl, hchildren⟩ := hok nodes rfl
        have hrest : FreshSupply (supply.drop batches.length) mid := by
          refine hgrown.freshSupply ?_
          rwa [List.take_append_drop]
        obtain ⟨more, hmore, hparts, hroot⟩ := ih hrest hmidNodup h
        have hboth := hgrown.trans hmore
        rw [List.take_append_drop] at hboth
        refine ⟨added ++ more, hboth, ?_, fun root hr => ?_⟩
        · intro node hnode
          rcases List.mem_append.mp hnode with hold | hnew
          · exact (hpart node hold).weaken more
          · exact (hparts node hnew).lift (batchByCount_flatten _ _) fun child hchild =>
              (hadded child hchild).1
        · have hnextNodup := hmore.nodup hrest hmidNodup
          have hcount : 1 < added.length := by
            by_contra hle
            rcases Nat.le_one_iff_eq_zero_or_eq_one.mp (Nat.le_of_not_lt hle) with hzero | hsingle
            · exact hone (List.length_eq_zero_iff.mp hzero)
            · obtain ⟨only, honly⟩ := List.length_eq_one_iff.mp hsingle
              exact hmany only honly
          exact (hroot root hr).lift hmore hgrown.nodes hnextNodup
            (fun child hchild => (hadded child hchild).1) hchildren hcount
            (hparts root (hroot root hr).mem).above

/-! ### The whole call -/

/-- The call appended its root to the merge buffer; without a crash it moved the header too. -/
structure Attached (config : TreeConfig) (doc : DocumentSeal) (supply : List (Option Minted))
    (nowMs : Int) (crash : Option Crash) (db : Db) (added : List SummaryNode) (root : SummaryNode)
    (next : Db) : Prop where
  nodes : next.nodes = db.nodes ++ added
  chunks : next.chunks = db.chunks
  ids : (added.map SummaryNode.id).Sublist (supplyIds supply)
  owned : ∀ node ∈ added, doc.Owns node
  parts : ∀ node ∈ added, PartOf (leafBatches config doc db) 0 added node
  built : RootOf (leafBatches config doc db) 0 (leafBatches config doc db).length added next root
  buffered : ∀ treeId level, next.buffered treeId level =
    if treeId = doc.treeId ∧ level = mergeLevelBase then db.buffered treeId level ++ [root.id]
    else db.buffered treeId level
  header : ∃ tree, db.getTree doc.treeId = some tree ∧ next.trees =
    if crash = some .beforeHeader then db.trees else (moveHeader tree root nowMs db).trees

theorem buildSubtree_cases {result : Except Halt SummaryNode} (hfresh : FreshSupply supply db)
    (hnodup : db.nodeIds.Nodup) (h : buildSubtree config doc supply db = (next, result)) :
    ∃ added, Grown doc supply added db next ∧
      (∀ node ∈ added, PartOf (leafBatches config doc db) 0 added node) ∧
      ∀ root, result = .ok root →
        RootOf (leafBatches config doc db) 0 (leafBatches config doc db).length added next root := by
  have hidle : ∀ halt, (db, Except.error halt) = (next, result) →
      ∃ added, Grown doc supply added db next ∧
        (∀ node ∈ added, PartOf (leafBatches config doc db) 0 added node) ∧
        ∀ root, result = .ok root →
          RootOf (leafBatches config doc db) 0 (leafBatches config doc db).length added next root := by
    intro halt heq
    obtain ⟨rfl, rfl⟩ := Prod.mk.inj heq
    exact ⟨[], Grown.refl _ _ _, fun _ hmem => absurd hmem List.not_mem_nil, fun _ hr => nomatch hr⟩
  unfold buildSubtree batchLeavesByTokenBudget at h
  split_ifs at h
  · exact hidle _ h
  · dsimp only at h
    split_ifs at h
    · exact hidle _ h
    · exact buildLevels_grown hfresh hnodup h

/-- A node commits only on an active tree. -/
theorem sealBatch_active {batch : List String} {minted : Option Minted} {node : SummaryNode}
    (h : sealBatch config doc level batch minted db = (next, .ok node)) :
    ∃ tree, db.requireActive doc.treeId = .ok tree := by
  unfold sealBatch at h
  split at h
  · cases (Prod.mk.inj h).2
  · split at h
    · cases (Prod.mk.inj h).2
    · rename_i hok
      unfold sealExplicitChildren at hok
      dsimp only at hok
      split_ifs at hok
      obtain ⟨tree, htree, -⟩ := Fallible.bind_ok_iff.mp hok
      exact ⟨tree, htree⟩

theorem buildLevels_active {fuel : Nat} {batches : List (List String)} {root : SummaryNode}
    (h : buildLevels config doc fuel level batches supply db = (next, .ok root)) :
    ∃ tree, db.requireActive doc.treeId = .ok tree := by
  cases fuel with
  | zero => cases (Prod.mk.inj h).2
  | succ fuel =>
      cases batches with
      | nil => cases (Prod.mk.inj h).2
      | cons batch batches =>
          rcases hfirst : sealBatch config doc level batch supply.head?.join db with ⟨mid, r⟩
          cases r with
          | ok node => exact sealBatch_active hfirst
          | error halt =>
              rw [buildLevels, sealBatches, hfirst] at h
              cases (Prod.mk.inj h).2

theorem buildSubtree_active {root : SummaryNode}
    (h : buildSubtree config doc supply db = (next, .ok root)) :
    ∃ tree, db.requireActive doc.treeId = .ok tree := by
  unfold buildSubtree batchLeavesByTokenBudget at h
  split_ifs at h
  · cases (Prod.mk.inj h).2
  · dsimp only at h
    split_ifs at h
    · cases (Prod.mk.inj h).2
    · exact buildLevels_active h

/-- The header update touches the tree table only. -/
theorem moveHeader_frame (tree : Tree) (root : SummaryNode) (nowMs : Int) (db : Db) :
    (moveHeader tree root nowMs db).summaries = db.summaries ∧
      (moveHeader tree root nowMs db).chunks = db.chunks ∧
      (moveHeader tree root nowMs db).buffers = db.buffers := by
  unfold moveHeader
  split_ifs
  · exact ⟨rfl, rfl, rfl⟩
  · exact ⟨rfl, rfl, rfl⟩

theorem moveHeader_trees (h : next.trees = db.trees) (tree : Tree) (root : SummaryNode)
    (nowMs : Int) : (moveHeader tree root nowMs next).trees = (moveHeader tree root nowMs db).trees := by
  unfold moveHeader
  split_ifs
  · rw [Db.updateTreeAfterSeal, Db.updateTreeAfterSeal, h]
  · exact h

theorem attachRoot_cases {root : SummaryNode} {nowMs : Int} {crash : Option Crash}
    {result : Except Halt String} (hactive : ∃ tree, db.requireActive doc.treeId = .ok tree)
    (hnew : root.id ∉ db.buffered doc.treeId mergeLevelBase)
    (h : attachRoot doc root nowMs crash db = (next, result)) :
    (crash = some .beforeAppend ∧ next = db ∧ result = .error .crashed) ∨
    (crash ≠ some .beforeAppend ∧ next.summaries = db.summaries ∧ next.chunks = db.chunks ∧
      (∀ treeId level, next.buffered treeId level =
        if treeId = doc.treeId ∧ level = mergeLevelBase then db.buffered treeId level ++ [root.id]
        else db.buffered treeId level) ∧
      (∃ tree, db.getTree doc.treeId = some tree ∧ next.trees =
        if crash = some .beforeHeader then db.trees else (moveHeader tree root nowMs db).trees) ∧
      result = if crash = some .beforeHeader then .error .crashed else .ok root.id) := by
  unfold attachRoot at h
  by_cases hcrash : crash = some .beforeAppend
  · rw [if_pos hcrash] at h
    obtain ⟨rfl, rfl⟩ := Prod.mk.inj h
    exact Or.inl ⟨hcrash, rfl, rfl⟩
  · obtain ⟨appended, happend⟩ := appendToBuffer_of_active mergeLevelBase root.id
      (root.tokenCount : Int) root.timeRangeStartMs hactive
    obtain ⟨htrees, hchunks, hsummaries⟩ := appendToBuffer_frame happend
    obtain ⟨tree, htree⟩ := hactive
    have hfound : db.getTree doc.treeId = some tree := (requireActive_ok_iff.mp htree).1
    have hbuffered : ∀ treeId level, appended.buffered treeId level =
        if treeId = doc.treeId ∧ level = mergeLevelBase then db.buffered treeId level ++ [root.id]
        else db.buffered treeId level := by
      intro treeId level
      rw [appendToBuffer_buffered happend]
      simp only [hnew, not_false_eq_true, and_true]
    have hstill : appended.requireActive doc.treeId = .ok tree := by
      rw [← htree, Db.requireActive, Db.requireActive, Db.getTree, Db.getTree, htrees]
    rw [if_neg hcrash, happend] at h
    dsimp only at h
    refine Or.inr ⟨hcrash, ?_⟩
    by_cases hheader : crash = some .beforeHeader
    · rw [if_pos hheader] at h
      obtain ⟨rfl, rfl⟩ := Prod.mk.inj h
      exact ⟨hsummaries, hchunks, hbuffered, ⟨tree, hfound, by rw [if_pos hheader, htrees]⟩,
        (if_pos hheader).symm⟩
    · rw [if_neg hheader, hstill] at h
      obtain ⟨rfl, rfl⟩ := Prod.mk.inj h
      obtain ⟨hsum, hch, hbuf⟩ := moveHeader_frame tree root nowMs appended
      refine ⟨hsum.trans hsummaries, hch.trans hchunks, ?_,
        ⟨tree, hfound, by rw [if_neg hheader, moveHeader_trees htrees]⟩, (if_neg hheader).symm⟩
      intro treeId level
      rw [Db.buffered, Db.getBuffer_congr hbuf, ← Db.buffered, hbuffered]

/-- A call either appends no root, and has added at most nodes of its document, or appends one. -/
theorem sealDocument_cases {nowMs : Int} {crash : Option Crash} {result : Except Halt String}
    (hclosed : db.Closed) (hfresh : FreshSupply supply db)
    (h : sealDocument config doc supply nowMs crash db = (next, result)) :
    (attaching config doc supply crash db = none ∧ (∀ id, result ≠ .ok id) ∧
      ∃ added, Grown doc supply added db next ∧
        ∀ node ∈ added, PartOf (leafBatches config doc db) 0 added node) ∨
    ∃ added root, attaching config doc supply crash db = some root ∧
      Attached config doc supply nowMs crash db added root next ∧
      result = if crash = some .beforeHeader then .error .crashed else .ok root.id := by
  rcases hbuild : buildSubtree config doc supply db with ⟨mid, r⟩
  obtain ⟨added, hgrown, hparts, hroot⟩ := buildSubtree_cases hfresh hclosed.nodup hbuild
  rw [sealDocument, hbuild] at h
  rw [attaching, hbuild]
  cases r with
  | error halt =>
      obtain ⟨rfl, rfl⟩ := Prod.mk.inj h
      exact Or.inl ⟨rfl, fun _ hr => (by cases hr), added, hgrown, hparts⟩
  | ok root =>
      have hbuilt := hroot root rfl
      have hnew : root.id ∉ mid.buffered doc.treeId mergeLevelBase := by
        rw [Db.buffered, Db.getBuffer_congr hgrown.buffers]
        exact fun hmem => hgrown.fresh hfresh root hbuilt.mem
          (hclosed.buffered doc.treeId mergeLevelBase (by decide) root.id hmem)
      have hactive : ∃ tree, mid.requireActive doc.treeId = .ok tree := by
        rw [Db.requireActive, Db.getTree, hgrown.trees]
        exact buildSubtree_active hbuild
      rcases attachRoot_cases hactive hnew h with
        ⟨hcrash, rfl, rfl⟩ | ⟨hcrash, hsum, hchunks, hbuffered, ⟨tree, htree, htrees⟩, hresult⟩
      · exact Or.inl ⟨if_pos hcrash, fun _ hr => (by cases hr), added, hgrown, hparts⟩
      · have hnodes : next.nodes = mid.nodes := by rw [Db.nodes, Db.nodes, hsum]
        refine Or.inr ⟨added, root, if_neg hcrash, ⟨hnodes.trans hgrown.nodes,
          hchunks.trans hgrown.chunks, hgrown.ids, hgrown.owned, hparts, ?_, ?_, tree, ?_, ?_⟩, hresult⟩
        · exact { hbuilt with items := (Db.descend_congr hnodes _ _).trans hbuilt.items }
        · intro treeId level
          rw [hbuffered, Db.buffered, Db.getBuffer_congr hgrown.buffers]
          rfl
        · rwa [Db.getTree, hgrown.trees] at htree
        · rw [htrees, moveHeader_trees hgrown.trees, hgrown.trees]

end Build

end TinyCortex.SummaryTree
