import TinyCortex.Tree.DocumentSeal
import TinyCortex.Tree.Sealable

/-! What a document subtree covers (`tree/document_seal.rs`). The batches of every level are cut from the level below in
order, and a level of more than one batch has fewer batches above it, so the loop ends with one root over all chunks. -/

namespace TinyCortex.SummaryTree

open Table Chunks

variable {config : TreeConfig} {doc : DocumentSeal} {level : Nat} {db next : Db} {supply : List (Option Minted)}

/-- A batch has members, and no more than the fan-in. -/
def Fans (batch : List String) : Prop := batch ≠ [] ∧ batch.length ≤ docSubtreeMaxFanin

/-- A batch of leaves is within the token budget, unless it is a single one. -/
def InBudget (config : TreeConfig) (db : Db) (batch : List String) : Prop :=
  tokenTotal db.leafTokens batch ≤ config.inputTokenBudget ∨ batch.length = 1

theorem leafTokens_of_getChunk {id : String} {chunk : Chunks.Chunk} (h : db.getChunk id = some chunk) :
    db.leafTokens id = chunk.tokenCount := by
  rw [Db.leafTokens, h]
  rfl

/-- The batcher's invariant is about the batch that it is filling: its token count is right, and so far it is one that
the budget allows. -/
theorem batchLeavesFrom_fits (ids : List String) {current : List String} {tokens : Nat}
    (htokens : tokenTotal db.leafTokens current = tokens) (hcurrent : current ≠ [] → Fans current ∧ InBudget config db current) :
    ∀ batch ∈ batchLeavesFrom config db current tokens ids, Fans batch ∧ InBudget config db batch := by
  induction ids generalizing current tokens with
  | nil =>
      unfold batchLeavesFrom
      split_ifs with hempty
      · exact fun batch hbatch => absurd hbatch List.not_mem_nil
      · exact List.forall_mem_singleton.mpr (hcurrent hempty)
  | cons id ids ih =>
      unfold batchLeavesFrom
      cases hget : db.getChunk id with
      | none => exact ih htokens hcurrent
      | some chunk =>
          have hone : tokenTotal db.leafTokens [id] = chunk.tokenCount := by
            simp [tokenTotal, leafTokens_of_getChunk hget]
          have hsingle : Fans [id] ∧ InBudget config db [id] :=
            ⟨⟨List.cons_ne_nil _ _, show 1 ≤ docSubtreeMaxFanin by decide⟩, Or.inr rfl⟩
          dsimp only
          split_ifs with hcut
          · exact List.forall_mem_cons.mpr ⟨hcurrent hcut.1, ih hone fun _ => hsingle⟩
          · have hboth : tokenTotal db.leafTokens (current ++ [id]) = (tokens + chunk.tokenCount : Nat) := by
              rw [tokenTotal_append, htokens, hone, Int.natCast_add]
            apply ih hboth
            intro _
            by_cases hempty : current = []
            · rw [hempty]
              exact hsingle
            · have hroom := not_or.mp (not_and.mp hcut hempty)
              refine ⟨⟨List.append_ne_nil_of_left_ne_nil hempty _, ?_⟩, Or.inl ?_⟩
              · rw [List.length_append, List.length_singleton]
                omega
              · rw [hboth]
                omega

theorem leafBatches_fit (config : TreeConfig) (doc : DocumentSeal) (db : Db) :
    ∀ batch ∈ leafBatches config doc db, Fans batch ∧ InBudget config db batch :=
  batchLeavesFrom_fits doc.chunkIds rfl fun hne => absurd rfl hne

theorem batchByCountFrom_fan (ids : List String) {current : List String} (hcurrent : current ≠ [] → Fans current) :
    ∀ batch ∈ batchByCountFrom docSubtreeMaxFanin current ids, Fans batch := by
  induction ids generalizing current with
  | nil =>
      unfold batchByCountFrom
      split_ifs with hempty
      · exact fun batch hbatch => absurd hbatch List.not_mem_nil
      · exact List.forall_mem_singleton.mpr (hcurrent hempty)
  | cons id ids ih =>
      have hsingle : Fans [id] := ⟨List.cons_ne_nil _ _, show 1 ≤ docSubtreeMaxFanin by decide⟩
      unfold batchByCountFrom
      split_ifs with hroom
      · apply ih
        intro _
        refine ⟨List.append_ne_nil_of_right_ne_nil _ (List.cons_ne_nil _ _), ?_⟩
        rw [List.length_append, List.length_singleton]
        omega
      · refine List.forall_mem_cons.mpr ⟨hcurrent ?_, ih fun _ => hsingle⟩
        intro hempty
        rw [hempty] at hroom
        exact hroom (by decide)

theorem batchByCount_fan (ids : List String) : ∀ batch ∈ batchByCount ids docSubtreeMaxFanin, Fans batch :=
  batchByCountFrom_fan ids fun hne => absurd rfl hne

/-- The children of every node that a build adds are a batch of its level. -/
theorem buildLevels_fan {fuel : Nat} {batches : List (List String)} {result : Except Halt SummaryNode}
    (hfresh : FreshSupply supply db) (hfan : ∀ batch ∈ batches, Fans batch)
    (h : buildLevels config doc fuel level batches supply db = (next, result)) :
    ∀ node ∈ next.nodes, node ∈ db.nodes ∨ Fans node.childIds := by
  induction fuel generalizing level batches supply db with
  | zero =>
      obtain ⟨rfl, -⟩ := Prod.mk.inj h
      exact fun node hnode => Or.inl hnode
  | succ fuel ih =>
      rw [buildLevels] at h
      rcases hlevel : sealBatches config doc level batches supply db with ⟨mid, r⟩
      rw [hlevel] at h
      obtain ⟨added, hgrown, hadded, -⟩ := sealBatches_grown hfresh hlevel
      have hmid : ∀ node ∈ mid.nodes, node ∈ db.nodes ∨ Fans node.childIds := by
        intro node hnode
        rw [hgrown.nodes] at hnode
        exact (List.mem_append.mp hnode).imp_right fun hnew => hfan _ (hadded node hnew).2
      have hrest : FreshSupply (supply.drop batches.length) mid := by
        apply hgrown.freshSupply
        rwa [List.take_append_drop]
      rcases r with halt | nodes
      · obtain ⟨rfl, -⟩ := Prod.mk.inj h
        exact hmid
      · rcases nodes with _ | ⟨root, _ | ⟨second, nodes⟩⟩
        · obtain ⟨rfl, -⟩ := Prod.mk.inj h
          exact hmid
        · obtain ⟨rfl, -⟩ := Prod.mk.inj h
          exact hmid
        · intro node hnode
          exact (ih hrest (batchByCount_fan _) h node hnode).elim (hmid node) Or.inr

/-- A batch that can be sealed: it has members, and their rows are there. -/
def CanSeal (db : Db) (level : Nat) (batch : List String) : Prop := batch ≠ [] ∧ ∀ id ∈ batch, db.Resolves level id

theorem Grown.resolves {added : List SummaryNode} {id : String} (h : Grown doc supply added db next)
    (hid : db.Resolves level id) : next.Resolves level id := by
  rw [Db.Resolves] at hid ⊢
  split_ifs at hid ⊢
  · rw [h.chunks]
    exact hid
  · rw [← Db.nodeIds_eq] at hid ⊢
    rw [h.nodeIds]
    exact List.mem_append_left _ hid

theorem Grown.active {added : List SummaryNode} (h : Grown doc supply added db next)
    (hactive : ∃ tree, db.requireActive doc.treeId = .ok tree) : ∃ tree, next.requireActive doc.treeId = .ok tree := by
  rw [Db.requireActive, Db.getTree, h.trees]
  exact hactive

theorem sealBatch_ok (config : TreeConfig) {batch : List String} (hactive : ∃ tree, db.requireActive doc.treeId = .ok tree)
    (hbatch : CanSeal db level batch) (minted : Minted) :
    ∃ next node, sealBatch config doc level batch (some minted) db = (next, .ok node) := by
  obtain ⟨tree, htree⟩ := hactive
  obtain ⟨id, hid⟩ := List.exists_mem_of_ne_nil _ hbatch.1
  have hinputs : hydrateInputs db level batch ≠ [] := by
    intro hnil
    have hids := hydrateInputs_ids_of_resolves hbatch.2
    rw [hnil, List.map_nil] at hids
    exact hbatch.1 hids.symm
  unfold sealBatch sealExplicitChildren
  dsimp only
  rw [if_neg hinputs, htree]
  exact ⟨_, _, rfl⟩

/-- A level whose batches can be sealed is sealed, on an active tree and with enough minted. -/
theorem sealBatches_ok (config : TreeConfig) {batches : List (List String)} (hactive : ∃ tree, db.requireActive doc.treeId = .ok tree)
    (hfresh : FreshSupply supply db) (hminted : ∀ minted ∈ supply, minted.isSome)
    (hsupply : batches.length ≤ supply.length) (hbatches : ∀ batch ∈ batches, CanSeal db level batch) :
    ∃ next nodes, sealBatches config doc level batches supply db = (next, .ok nodes) := by
  induction batches generalizing supply db with
  | nil => exact ⟨db, [], rfl⟩
  | cons batch batches ih =>
      obtain ⟨hbatch, hrest⟩ := List.forall_mem_cons.mp hbatches
      obtain ⟨first, supply, rfl⟩ := List.exists_cons_of_length_pos (Nat.lt_of_lt_of_le batches.length.succ_pos hsupply)
      obtain ⟨minted, rfl⟩ := Option.isSome_iff_exists.mp (hminted first List.mem_cons_self)
      obtain ⟨mid, node, hnode⟩ := sealBatch_ok config hactive hbatch minted
      have hsplit : FreshSupply ([some minted] ++ supply) db := hfresh
      obtain ⟨added, hgrown, -, -⟩ := sealBatch_grown (hsplit.take 1) hnode
      obtain ⟨next, nodes, hnodes⟩ := ih (hgrown.active hactive) (hgrown.freshSupply hsplit)
        (fun minted hmem => hminted minted (List.mem_cons_of_mem _ hmem)) (Nat.le_of_succ_le_succ hsupply)
        fun batch hmem => ⟨(hrest batch hmem).1, fun id hid => hgrown.resolves ((hrest batch hmem).2 id hid)⟩
      refine ⟨next, node :: nodes, ?_⟩
      rw [sealBatches, List.head?_cons, Option.join_some, hnode]
      dsimp only
      rw [List.tail_cons, hnodes]
      rfl

/-- The batches over the nodes of a level can be sealed. -/
theorem canSeal_batchByCount {added : List SummaryNode} (hgrown : Grown doc supply added db next) :
    ∀ batch ∈ batchByCount (added.map SummaryNode.id) docSubtreeMaxFanin, CanSeal next (level + 1) batch := by
  intro batch hbatch
  refine ⟨(batchByCount_fan _ batch hbatch).1, fun id hid => ?_⟩
  have hmem : id ∈ added.map SummaryNode.id := by
    rw [← batchByCount_flatten (added.map SummaryNode.id) docSubtreeMaxFanin]
    exact List.mem_flatten.mpr ⟨batch, hbatch, hid⟩
  rw [Db.Resolves, if_neg (by omega), ← Db.nodeIds_eq, hgrown.nodeIds]
  exact List.mem_append_right _ hmem

/-- The levels end in a root whatever the turns, from the number of first batches on: a level of `n` batches has
`(n + 31) / 32` above it. -/
theorem buildLevels_ok (config : TreeConfig) {batches : List (List String)}
    (hactive : ∃ tree, db.requireActive doc.treeId = .ok tree) (hfresh : FreshSupply supply db)
    (hminted : ∀ minted ∈ supply, minted.isSome) (hne : batches ≠ [])
    (hsupply : 2 * batches.length ≤ supply.length + 1) (hbatches : ∀ batch ∈ batches, CanSeal db level batch) :
    ∃ next root, ∀ fuel, batches.length ≤ fuel →
      buildLevels config doc fuel level batches supply db = (next, .ok root) := by
  induction hn : batches.length using Nat.strong_induction_on generalizing level batches supply db with
  | _ n ih =>
      have hpos := List.length_pos_iff.mpr hne
      obtain ⟨mid, nodes, hnodes⟩ := sealBatches_ok config hactive hfresh hminted (by omega) hbatches
      obtain ⟨added, hgrown, -, hok⟩ := sealBatches_grown hfresh hnodes
      obtain ⟨rfl, hchildren⟩ := hok nodes rfl
      have hlength : added.length = n := by
        rw [← hn, ← hchildren, List.length_map]
      rcases added with _ | ⟨root, _ | ⟨second, added⟩⟩
      · rw [List.length_nil] at hlength
        omega
      · refine ⟨mid, root, fun fuel hfuel => ?_⟩
        obtain ⟨turns, rfl⟩ : ∃ turns, fuel = turns + 1 := ⟨fuel - 1, by omega⟩
        rw [buildLevels, hnodes]
      · have hcount := batchByCount_length ((root :: second :: added).map SummaryNode.id)
        rw [List.length_map, hlength] at hcount
        have hmany : 2 ≤ n := by
          rw [← hlength, List.length_cons, List.length_cons]
          omega
        have hrest : FreshSupply (supply.drop batches.length) mid := by
          apply hgrown.freshSupply
          rwa [List.take_append_drop]
        have habove : batchByCount ((root :: second :: added).map SummaryNode.id) docSubtreeMaxFanin ≠ [] := by
          rw [← List.length_pos_iff, hcount]
          omega
        obtain ⟨next, top, htop⟩ := ih ((n + 31) / 32) (by omega) (hgrown.active hactive) hrest
          (fun minted hmem => hminted minted (List.mem_of_mem_drop hmem)) habove
          (by rw [hcount, List.length_drop]; omega) (canSeal_batchByCount hgrown) hcount
        refine ⟨next, top, fun fuel hfuel => ?_⟩
        obtain ⟨turns, rfl⟩ : ∃ turns, fuel = turns + 1 := ⟨fuel - 1, by omega⟩
        rw [buildLevels, hnodes]
        exact htop turns (by omega)

theorem mem_resolvable {ids : List String} {id : String} :
    id ∈ resolvable db ids ↔ id ∈ ids ∧ db.Resolves 0 id := by
  rw [resolvable, List.mem_filter, Db.Resolves, if_pos rfl, Db.getChunk, lookup_isSome_iff]

theorem leafBatches_flatten (config : TreeConfig) (doc : DocumentSeal) (db : Db) :
    (leafBatches config doc db).flatten = resolvable db doc.chunkIds :=
  batchLeavesFrom_flatten doc.chunkIds [] 0

theorem length_leafBatches_le (config : TreeConfig) (doc : DocumentSeal) (db : Db) :
    (leafBatches config doc db).length ≤ doc.chunkIds.length := by
  have hlengths : ∀ n ∈ (leafBatches config doc db).map List.length, 1 ≤ n := by
    intro n hn
    obtain ⟨batch, hbatch, rfl⟩ := List.mem_map.mp hn
    exact List.length_pos_iff.mpr (leafBatches_fit config doc db batch hbatch).1.1
  calc (leafBatches config doc db).length
      = ((leafBatches config doc db).map List.length).length := (List.length_map _).symm
    _ ≤ ((leafBatches config doc db).map List.length).sum := List.length_le_sum_of_one_le _ hlengths
    _ = (resolvable db doc.chunkIds).length := by rw [← List.length_flatten, leafBatches_flatten]
    _ ≤ doc.chunkIds.length := List.length_filter_le _ _

/-- The first batches of a document of which a chunk is there. -/
theorem leafBatches_canSeal (config : TreeConfig) (hsome : ∃ id ∈ doc.chunkIds, (db.getChunk id).isSome) :
    leafBatches config doc db ≠ [] ∧ ∀ batch ∈ leafBatches config doc db, CanSeal db 0 batch := by
  constructor
  · intro hnil
    obtain ⟨id, hid, hchunk⟩ := hsome
    have hmem : id ∈ resolvable db doc.chunkIds := List.mem_filter.mpr ⟨hid, hchunk⟩
    rw [← leafBatches_flatten config, hnil] at hmem
    cases hmem
  · intro batch hbatch
    refine ⟨(leafBatches_fit config doc db batch hbatch).1.1, fun id hid => ?_⟩
    have hmem : id ∈ resolvable db doc.chunkIds := by
      rw [← leafBatches_flatten config]
      exact List.mem_flatten.mpr ⟨batch, hbatch, hid⟩
    exact (mem_resolvable.mp hmem).2

/-- A document of which a chunk is there is sealed into one subtree, whatever the turns from the number of its first
batches on. In order, its root covers the chunks that are there, each once; every node has children, at most as many as
the fan-in; and the leaves under one node are within the token budget, unless there is one alone. -/
theorem buildSubtree_covers (config : TreeConfig) (hsome : ∃ id ∈ doc.chunkIds, (db.getChunk id).isSome)
    (hnodup : doc.chunkIds.Nodup) (hactive : ∃ tree, db.requireActive doc.treeId = .ok tree)
    (hkeys : db.nodeIds.Nodup) (hfresh : FreshSupply supply db) (hminted : ∀ minted ∈ supply, minted.isSome)
    (hsupply : 2 * doc.chunkIds.length ≤ supply.length) :
    ∃ next root added, buildSubtree config doc supply db = (next, .ok root) ∧
      (∀ turns, (leafBatches config doc db).length ≤ turns →
        buildLevels config doc turns 0 (leafBatches config doc db) supply db = (next, .ok root)) ∧
      next.nodes = db.nodes ++ added ∧ root ∈ added ∧
      next.descend root.level root.id = resolvable db doc.chunkIds ∧ (next.descend root.level root.id).Nodup ∧
      ∀ node ∈ added, Fans node.childIds ∧ (node.level = 1 → InBudget config db node.childIds) := by
  have hcount := length_leafBatches_le config doc db
  obtain ⟨hne, hbatches⟩ := leafBatches_canSeal config hsome
  obtain ⟨next, root, hlevels⟩ := buildLevels_ok config hactive hfresh hminted hne (by omega) hbatches
  have hbuild : buildSubtree config doc supply db = (next, .ok root) := by
    have hids : doc.chunkIds ≠ [] := by
      obtain ⟨id, hid, -⟩ := hsome
      exact List.ne_nil_of_mem hid
    rw [buildSubtree, if_neg hids, batchLeavesByTokenBudget, ← leafBatches, if_neg hne]
    exact hlevels _ le_rfl
  obtain ⟨added, hgrown, hparts, hroot⟩ := buildSubtree_cases hfresh hkeys hbuild
  have hbuilt := hroot root rfl
  have hitems : next.descend root.level root.id = resolvable db doc.chunkIds :=
    hbuilt.items.trans (leafBatches_flatten config doc db)
  refine ⟨next, root, added, hbuild, hlevels, hgrown.nodes, hbuilt.mem, hitems, ?_, fun node hnode => ⟨?_, ?_⟩⟩
  · rw [hitems]
    exact hnodup.filter _
  · have hmem : node ∈ next.nodes := by
      rw [hgrown.nodes]
      exact List.mem_append_right _ hnode
    have hfan := fun batch hbatch => (leafBatches_fit config doc db batch hbatch).1
    refine (buildLevels_fan hfresh hfan (hlevels _ le_rfl) node hmem).resolve_left fun hold => ?_
    exact hgrown.fresh hfresh node hnode (List.mem_map_of_mem hold)
  · intro hfirst
    exact (leafBatches_fit config doc db _ ((hparts node hnode).first hfirst)).2

/-- Three chunks of a document, of which the second one went. -/
def holed : Db where
  trees := [⟨"t", .source, "notes", none, 0, .active, none⟩]
  chunks := [⟨"a", .document, "notes", none, 0, 0, 0, 6, 0, .admitted⟩,
    ⟨"c", .document, "notes", none, 0, 0, 0, 7, 2, .admitted⟩]
  summaries := []
  buffers := []

def notes : DocumentSeal := ⟨"t", "d", none, ["a", "b", "c"]⟩

def sixMinted : List (Option Minted) := (List.range 6).map fun i => some ⟨toString i, 5, 1⟩

theorem buildSubtree_covers_holed :
    ∃ next root added, buildSubtree ⟨10, 5, 2⟩ notes sixMinted holed = (next, .ok root) ∧
      (∀ turns, (leafBatches ⟨10, 5, 2⟩ notes holed).length ≤ turns →
        buildLevels ⟨10, 5, 2⟩ notes turns 0 (leafBatches ⟨10, 5, 2⟩ notes holed) sixMinted holed = (next, .ok root)) ∧
      next.nodes = holed.nodes ++ added ∧ root ∈ added ∧
      next.descend root.level root.id = resolvable holed notes.chunkIds ∧ (next.descend root.level root.id).Nodup ∧
      ∀ node ∈ added, Fans node.childIds ∧ (node.level = 1 → InBudget ⟨10, 5, 2⟩ holed node.childIds) :=
  buildSubtree_covers ⟨10, 5, 2⟩ (by decide) (by decide) ⟨_, rfl⟩ (by decide) (by decide) (by decide) (by decide)

end TinyCortex.SummaryTree
