import TinyCortex.Lib.Incidence
import TinyCortex.Score.EntityIndex

/-! The persisted edges against the self-join over the index: they agree along a run exactly when every call places
whole sets of entities on nodes and no call takes a pair away. -/

namespace TinyCortex.Score

open Chunks TinyCortex.Graph Table Incidence

/-- The nodes of an entity as a set. -/
def nodesOf (index : List IndexRow) (entityId : String) : Finset String := (nodesForEntity index entityId).toFinset

theorem mem_nodesOf {index : List IndexRow} {a n : String} :
    n ∈ nodesOf index a ↔ ∃ row ∈ index, row.key = (a, n) := by
  rw [nodesOf, List.mem_toFinset, mem_nodesForEntity]

theorem coOccurrence_eq_shared (index : List IndexRow) (a b : String) :
    coOccurrence index a b = shared (nodesOf index) a b := by
  rw [coOccurrence, shared, ← List.card_toFinset]
  congr 1
  ext n
  simp only [nodesOf, List.mem_toFinset, List.mem_filter, decide_eq_true_eq, Finset.mem_inter, mem_entitiesOnNode]

/-- A pair has the weight that the self-join computes, and no row when that is zero. -/
def Refines (store : Store) : Prop :=
  ∀ a b, a < b → weightOf store.edges a b =
    if coOccurrence store.index a b = 0 then none else some (coOccurrence store.index a b)

/-- No node keeps an entity next to one that is dropped from it. -/
def DropsAlone (drops : IndexRow → Bool) (index : List IndexRow) : Prop :=
  ∀ row ∈ index, drops row → ∀ other ∈ index, other.nodeId = row.nodeId → other.entityId = row.entityId

/-- A call under which the edges stay what the self-join computes. -/
def Harmless (store : Store) : Call → Prop
  | .indexEntities entities nodeId _ _ _ =>
      PlacedWhole (nodesOf store.index) (entities.map CanonicalEntity.canonicalId) nodeId
  | .indexSummaryEntityIds entityIds nodeId _ _ => PlacedWhole (nodesOf store.index) entityIds nodeId
  | .clearEntityIndexForNode nodeId => DropsAlone (fun row => row.nodeId = nodeId) store.index
  | .persistScore result _ _ => DropsAlone (fun row => row.nodeId = result.chunkId) store.index
  | .deleteChunks request tier => request = .purge ∨ DropsAlone (dropsRow request tier) store.index

/-! ### One write -/

theorem Refines.weightOf (h : Refines store) {a b : String} (hab : a < b) :
    (Graph.weightOf store.edges a b).getD 0 = shared (nodesOf store.index) a b := by
  rw [h a b hab, ← coOccurrence_eq_shared]
  split_ifs with hzero
  · exact hzero.symm
  · rfl

/-- After the pairs of some entities were written over agreeing tables, these agree again exactly when each of the
pairs gained one node and no other pair did. -/
theorem refines_iff_shared {store next : Store} (h : Refines store) {ids : List String} {ts : Int}
    (hedges : next.edges = upsertEdges (pairsFromEntities ids) ts store.edges) :
    Refines next ↔ ∀ a b, a ≠ b → shared (nodesOf next.index) a b =
      shared (nodesOf store.index) a b + if a ∈ ids ∧ b ∈ ids then 1 else 0 := by
  have hpair : ∀ a b, a < b → ((Graph.weightOf next.edges a b =
      if coOccurrence next.index a b = 0 then none else some (coOccurrence next.index a b)) ↔
      shared (nodesOf next.index) a b =
        shared (nodesOf store.index) a b + if a ∈ ids ∧ b ∈ ids then 1 else 0) := by
    intro a b hab
    rw [hedges, weightOf_upsertEdges ids ts store.edges hab, h.weightOf hab, coOccurrence_eq_shared]
    by_cases hids : a ∈ ids ∧ b ∈ ids
    · rw [if_pos hids, if_pos hids]
      split_ifs with hzero
      · simp [hzero]
      · rw [Option.some.injEq, eq_comm]
    · rw [if_neg hids, if_neg hids, h a b hab, coOccurrence_eq_shared, Nat.add_zero]
      split_ifs with hold hnew hnew
      · simp [hold, hnew]
      · simp [hold, hnew]
      · simp only [false_iff]
        exact fun heq => hold (heq ▸ hnew)
      · rw [Option.some.injEq, eq_comm]
  constructor
  · intro hnext a b hab
    rcases lt_or_gt_of_ne hab with hlt | hgt
    · exact (hpair a b hlt).mp (hnext a b hlt)
    · rw [shared_comm, shared_comm (nodesOf store.index)]
      simpa only [and_comm] using (hpair b a hgt).mp (hnext b a hgt)
  · intro hall a b hab
    exact (hpair a b hab).mpr (hall a b hab.ne)

theorem upsertEdges_nil (ts : Int) (edges : List EdgeRow) :
    upsertEdges (pairsFromEntities []) ts edges = edges := by
  simp [pairsFromEntities, pairsOf, upsertEdges]

/-- Without a write the tables agree exactly when every pair shares as many nodes as before. -/
theorem refines_iff_shared_eq {store next : Store} (h : Refines store) (hedges : next.edges = store.edges) :
    Refines next ↔ ∀ a b, a ≠ b → shared (nodesOf next.index) a b = shared (nodesOf store.index) a b := by
  have hnil : next.edges = upsertEdges (pairsFromEntities []) 0 store.edges := by rw [hedges, upsertEdges_nil]
  rw [refines_iff_shared h hnil]
  simp

/-! ### Placing and dropping rows -/

theorem nodesOf_upsertRows {rows index : List IndexRow} {ids : List String} {nodeId : String}
    (hkeys : rows.map IndexRow.key = ids.map fun id => (id, nodeId)) :
    nodesOf (upsertRows rows index) = place (nodesOf index) ids nodeId := by
  funext a
  ext n
  have hkey : ∀ table : List IndexRow, (∃ row ∈ table, row.key = (a, n)) ↔ (a, n) ∈ table.map IndexRow.key :=
    fun table => List.mem_map.symm
  rw [mem_nodesOf, mem_place, mem_nodesOf, hkey, hkey, mem_keys_upsertRows, hkeys, List.mem_map]
  refine or_congr_left ⟨?_, ?_⟩
  · rintro ⟨id, hid, heq⟩
    obtain ⟨rfl, rfl⟩ := Prod.mk.inj heq
    exact ⟨rfl, hid⟩
  · rintro ⟨rfl, ha⟩
    exact ⟨a, ha, rfl⟩

theorem nodesOf_filter_subset (index : List IndexRow) (keep : IndexRow → Bool) (a : String) :
    nodesOf (index.filter keep) a ⊆ nodesOf index a := by
  intro n hn
  obtain ⟨row, hrow, hkey⟩ := mem_nodesOf.mp hn
  exact mem_nodesOf.mpr ⟨row, (List.mem_filter.mp hrow).1, hkey⟩

/-- Dropping rows takes no pair away exactly when every dropped row stands alone on its node. -/
theorem shared_filter_iff {index : List IndexRow} (hnd : (index.map IndexRow.key).Nodup) {drops : IndexRow → Bool} :
    (∀ a b, a ≠ b → shared (nodesOf (index.filter fun row => !drops row)) a b = shared (nodesOf index) a b) ↔
      DropsAlone drops index := by
  rw [shared_eq_iff_of_le (nodesOf_filter_subset index _)]
  constructor
  · intro h row hrow hdrop other hother hnode
    by_contra hne
    have hkept := h row.entityId other.entityId row.nodeId (Ne.symm hne)
      (mem_nodesOf.mpr ⟨row, hrow, rfl⟩) (mem_nodesOf.mpr ⟨other, hother, by rw [IndexRow.key, hnode]⟩)
    obtain ⟨same, hsame, hkey⟩ := mem_nodesOf.mp hkept
    obtain ⟨hmem, hkeep⟩ := List.mem_filter.mp hsame
    obtain rfl := eq_of_pk_eq hnd hmem hrow hkey
    simp [hdrop] at hkeep
  · intro h a b n hab ha hb
    obtain ⟨row, hrow, hkey⟩ := mem_nodesOf.mp ha
    obtain ⟨other, hother, hkey'⟩ := mem_nodesOf.mp hb
    obtain ⟨rfl, rfl⟩ := Prod.mk.inj hkey
    obtain ⟨rfl, hnode⟩ := Prod.mk.inj hkey'
    refine mem_nodesOf.mpr ⟨row, List.mem_filter.mpr ⟨hrow, ?_⟩, rfl⟩
    rw [Bool.not_eq_true']
    by_contra hdrop
    rw [Bool.not_eq_false] at hdrop
    exact hab (h row hrow hdrop other hother hnode).symm

/-! ### Every call -/

/-- The tables agree, and no key stands twice in the index. -/
structure Agrees (store : Store) : Prop where
  refines : Refines store
  keyed : (store.index.map IndexRow.key).Nodup

theorem nodup_upsertRows {rows index : List IndexRow} (hnd : (index.map IndexRow.key).Nodup) :
    ((upsertRows rows index).map IndexRow.key).Nodup := by
  induction rows generalizing index with
  | nil => exact hnd
  | cons row rows ih => exact ih (nodup_upsert hnd)

theorem nodup_filter {index : List IndexRow} (hnd : (index.map IndexRow.key).Nodup) (keep : IndexRow → Bool) :
    ((index.filter keep).map IndexRow.key).Nodup :=
  hnd.sublist (List.filter_sublist.map IndexRow.key)

/-- What a batch write does: the rows of its entities on the node, and their pairs. -/
structure Writes (store next : Store) (ids : List String) (nodeId : String) : Prop where
  index : nodesOf next.index = place (nodesOf store.index) ids nodeId
  edges : ∃ ts, next.edges = upsertEdges (pairsFromEntities ids) ts store.edges
  keyed : (store.index.map IndexRow.key).Nodup → (next.index.map IndexRow.key).Nodup

theorem Writes.nil (store : Store) (nodeId : String) : Writes store store [] nodeId where
  index := by
    funext a
    exact (if_neg List.not_mem_nil).symm
  edges := ⟨0, (upsertEdges_nil 0 store.edges).symm⟩
  keyed := id

theorem writes_indexEntities (entities : List CanonicalEntity) (nodeId nodeKind : String) (ts : Int)
    (treeId : Option String) (store : Store) : Writes store (indexEntities entities nodeId nodeKind ts treeId store).1
      (entities.map CanonicalEntity.canonicalId) nodeId := by
  unfold indexEntities
  by_cases hnil : entities = []
  · rw [if_pos hnil, hnil]
    exact Writes.nil store nodeId
  · rw [if_neg hnil]
    refine ⟨nodesOf_upsertRows ?_, ⟨ts, rfl⟩, nodup_upsertRows⟩
    rw [List.map_map, List.map_map]
    rfl

theorem writes_indexSummary (entityIds : List String) (nodeId : String) (ts : Int) (treeId : Option String)
    (store : Store) : Writes store (indexSummaryEntityIds entityIds nodeId ts treeId store).1 entityIds nodeId := by
  unfold indexSummaryEntityIds
  by_cases hnil : entityIds = []
  · rw [if_pos hnil, hnil]
    exact Writes.nil store nodeId
  · rw [if_neg hnil]
    refine ⟨nodesOf_upsertRows ?_, ⟨ts, rfl⟩, nodup_upsertRows⟩
    rw [List.map_map]
    rfl

theorem Writes.refines_iff {store next : Store} {ids : List String} {nodeId : String}
    (hw : Writes store next ids nodeId) (h : Refines store) :
    Refines next ↔ PlacedWhole (nodesOf store.index) ids nodeId := by
  obtain ⟨ts, hedges⟩ := hw.edges
  rw [refines_iff_shared h hedges, hw.index, shared_place_eq_iff]

theorem refines_drop_iff {store : Store} (h : Agrees store) (drops : IndexRow → Bool) :
    Refines { store with index := store.index.filter fun row => !drops row } ↔ DropsAlone drops store.index := by
  have hsame : Refines { store with index := store.index.filter fun row => !drops row } ↔
      ∀ a b, a ≠ b → shared (nodesOf (store.index.filter fun row => !drops row)) a b =
        shared (nodesOf store.index) a b := refines_iff_shared_eq h.refines rfl
  rw [hsame, shared_filter_iff h.keyed]

theorem clear_eq (nodeId : String) (store : Store) : (clearEntityIndexForNode nodeId store).1 =
    { store with index := store.index.filter fun row => !decide (row.nodeId = nodeId) } := by
  simp [clearEntityIndexForNode]

/-- A cleared node holds no entity, so that what is written there next is placed whole. -/
theorem placedWhole_clear (nodeId : String) (store : Store) (ids : List String) :
    PlacedWhole (nodesOf (clearEntityIndexForNode nodeId store).1.index) ids nodeId := by
  have hnone : ∀ a, nodeId ∉ nodesOf (clearEntityIndexForNode nodeId store).1.index a := by
    intro a hn
    obtain ⟨row, hrow, hkey⟩ := mem_nodesOf.mp hn
    have hne := (List.mem_filter.mp hrow).2
    simp [(Prod.mk.inj hkey).2] at hne
  exact Or.inl ⟨fun a ha => absurd ha (hnone a), fun a b ha => absurd ha (hnone a)⟩

/-- A rescored chunk leaves the tables in agreement exactly when the clearing took no pair away. -/
theorem persistScore_refines_iff {store : Store} (h : Agrees store) (result : ScoreResult) (ts : Int)
    (treeId : Option String) : Refines (persistScore result ts treeId store) ↔
      DropsAlone (fun row => row.nodeId = result.chunkId) store.index := by
  have hclear := refines_drop_iff h fun row => decide (row.nodeId = result.chunkId)
  rw [← clear_eq] at hclear
  unfold persistScore
  dsimp only
  split_ifs
  · have hw := writes_indexEntities result.canonicalEntities result.chunkId "leaf" ts treeId
      (clearEntityIndexForNode result.chunkId store).1
    obtain ⟨ts', hedges⟩ := hw.edges
    rw [refines_iff_shared h.refines hedges, ← shared_filter_iff h.keyed]
    refine forall_congr' fun a => forall_congr' fun b => imp_congr_right fun hab => ?_
    rw [hw.index, shared_place_eq_iff.mpr (placedWhole_clear _ _ _) a b hab, Nat.add_right_cancel_iff, clear_eq]
  · exact hclear

theorem refines_purged : Refines ⟨[], []⟩ := fun _ _ _ => rfl

/-- A call keeps the tables in agreement exactly when it is harmless. -/
theorem call_refines_iff {store : Store} (h : Agrees store) (c : Call) :
    Refines (store.call c) ↔ Harmless store c := by
  cases c with
  | indexEntities entities nodeId nodeKind ts treeId =>
      exact (writes_indexEntities entities nodeId nodeKind ts treeId store).refines_iff h.refines
  | indexSummaryEntityIds entityIds nodeId ts treeId =>
      exact (writes_indexSummary entityIds nodeId ts treeId store).refines_iff h.refines
  | clearEntityIndexForNode nodeId =>
      have hclear := refines_drop_iff h fun row => decide (row.nodeId = nodeId)
      rwa [← clear_eq] at hclear
  | persistScore result ts treeId => exact persistScore_refines_iff h result ts treeId
  | deleteChunks request tier =>
      by_cases hpurge : request = .purge
      · subst hpurge
        exact iff_of_true refines_purged (Or.inl rfl)
      · have hdrop := refines_drop_iff h (dropsRow request tier)
        have hcall : store.call (.deleteChunks request tier) =
            { store with index := store.index.filter fun row => !dropsRow request tier row } := by
          cases request with
          | purge => exact absurd rfl hpurge
          | bySource | bySourcePrefix | byOwner | byId | orphanedTree => rfl
        rw [hcall, hdrop]
        exact (or_iff_right hpurge).symm

theorem keyed_call {store : Store} (h : (store.index.map IndexRow.key).Nodup) (c : Call) :
    ((store.call c).index.map IndexRow.key).Nodup := by
  cases c with
  | indexEntities entities nodeId nodeKind ts treeId =>
      exact (writes_indexEntities entities nodeId nodeKind ts treeId store).keyed h
  | indexSummaryEntityIds entityIds nodeId ts treeId =>
      exact (writes_indexSummary entityIds nodeId ts treeId store).keyed h
  | clearEntityIndexForNode nodeId => exact nodup_filter h _
  | persistScore result ts treeId =>
      have hclear : ((clearEntityIndexForNode result.chunkId store).1.index.map IndexRow.key).Nodup := nodup_filter h _
      dsimp only [Store.call, persistScore]
      split_ifs
      · exact (writes_indexEntities _ _ _ _ _ _).keyed hclear
      · exact hclear
  | deleteChunks request tier =>
      cases request with
      | purge => exact List.nodup_nil
      | bySource | bySourcePrefix | byOwner | byId | orphanedTree => exact nodup_filter h _

theorem agrees_call {store : Store} (h : Agrees store) {c : Call} (hc : Harmless store c) : Agrees (store.call c) :=
  ⟨(call_refines_iff h c).mpr hc, keyed_call h.keyed c⟩

/-- The edges are what the self-join computes in every state of a run exactly when every call of it is harmless. -/
theorem refines_run_iff (history : List Call) :
    calls.Throughout Refines history ↔ calls.AllSteps Harmless history := by
  have hstart : Agrees calls.start := ⟨refines_purged, List.nodup_nil⟩
  apply calls.throughout_iff hstart
  · exact fun store c h hc => agrees_call h hc
  · exact fun store h => h.refines
  · exact fun store c h hc hrefines => hc ((call_refines_iff h c).mp hrefines)

/-- A chunk with two entities that is scored twice: one node, and an edge of weight two. -/
theorem rescored_doubled : ∃ history : List Call, ¬calls.Throughout Refines history := by
  let ada : CanonicalEntity := ⟨"person:ada", "person", "Ada"⟩
  let bob : CanonicalEntity := ⟨"person:bob", "person", "Bob"⟩
  let score : Call := .persistScore ⟨"chunk", true, [ada, bob]⟩ 1000 none
  refine ⟨[score, score], fun h => ?_⟩
  have hend := h [score, score] List.prefix_rfl "person:ada" "person:bob" (by decide +kernel)
  revert hend
  decide +kernel

end TinyCortex.Score
