import TinyCortex.Lib.Table

/-! Persisted undirected co-occurrence edges (`graph/edge_store.rs`). Identifiers compare by their code points, as
the bytes of UTF-8 do. -/

namespace TinyCortex.Graph

open Table

/-- One row in `mem_tree_entity_edges`. -/
structure EdgeRow where
  entityA : String
  entityB : String
  weight : Nat
  updatedMs : Int
  deriving DecidableEq, Repr

def EdgeRow.key (row : EdgeRow) : String × String := (row.entityA, row.entityB)

def orderPair (a b : String) : Option (String × String) :=
  if a < b then some (a, b) else if b < a then some (b, a) else none

/-- The pairs of a list, each with the entries to its right. -/
def pairsOf : List String → List (String × String)
  | [] => []
  | a :: rest => rest.filterMap (orderPair a) ++ pairsOf rest

/-- The pairs of the distinct entities, in ascending order. -/
def pairsFromEntities (entityIds : List String) : List (String × String) :=
  pairsOf (entityIds.dedup.insertionSort (· ≤ ·))

/-- `INSERT … VALUES (a, b, 1, ts) ON CONFLICT DO UPDATE SET weight = weight + 1`. -/
def upsertEdge (timestampMs : Int) (edges : List EdgeRow) (pair : String × String) : List EdgeRow :=
  let weight := (lookup EdgeRow.key pair edges).elim 1 fun row => row.weight + 1
  upsert EdgeRow.key ⟨pair.1, pair.2, weight, timestampMs⟩ edges

/-- The order in which the distinct pairs are written leaves no trace in the table. -/
def upsertEdges (pairs : List (String × String)) (timestampMs : Int) (edges : List EdgeRow) : List EdgeRow :=
  ((pairs.filterMap fun pair => orderPair pair.1 pair.2).dedup).foldl (upsertEdge timestampMs) edges

/-- The weight stored for a pair. -/
def weightOf (edges : List EdgeRow) (a b : String) : Option Nat :=
  (lookup EdgeRow.key (a, b) edges).map EdgeRow.weight

/-! ### Pairs -/

theorem orderPair_eq_some {a b c d : String} :
    orderPair a b = some (c, d) ↔ c < d ∧ ((a = c ∧ b = d) ∨ (a = d ∧ b = c)) := by
  unfold orderPair
  by_cases hab : a < b
  · rw [if_pos hab, Option.some.injEq, Prod.mk.injEq]
    constructor
    · rintro ⟨rfl, rfl⟩
      exact ⟨hab, Or.inl ⟨rfl, rfl⟩⟩
    · rintro ⟨hcd, ⟨rfl, rfl⟩ | ⟨rfl, rfl⟩⟩
      · exact ⟨rfl, rfl⟩
      · exact absurd hab (lt_asymm hcd)
  · rw [if_neg hab]
    by_cases hba : b < a
    · rw [if_pos hba, Option.some.injEq, Prod.mk.injEq]
      constructor
      · rintro ⟨rfl, rfl⟩
        exact ⟨hba, Or.inr ⟨rfl, rfl⟩⟩
      · rintro ⟨hcd, ⟨rfl, rfl⟩ | ⟨rfl, rfl⟩⟩
        · exact absurd hcd hab
        · exact ⟨rfl, rfl⟩
    · rw [if_neg hba]
      refine iff_of_false (by simp) ?_
      rintro ⟨hcd, ⟨rfl, rfl⟩ | ⟨rfl, rfl⟩⟩
      · exact hab hcd
      · exact hba hcd

theorem orderPair_of_lt {a b : String} (h : a < b) : orderPair a b = some (a, b) := if_pos h

theorem mem_pairsOf {ids : List String} {a b : String} :
    (a, b) ∈ pairsOf ids ↔ a < b ∧ a ∈ ids ∧ b ∈ ids := by
  induction ids with
  | nil => simp [pairsOf]
  | cons c ids ih =>
      simp only [pairsOf, List.mem_append, List.mem_filterMap, orderPair_eq_some, ih, List.mem_cons]
      constructor
      · rintro (⟨d, hd, hlt, ⟨rfl, rfl⟩ | ⟨rfl, rfl⟩⟩ | ⟨hlt, ha, hb⟩)
        · exact ⟨hlt, Or.inl rfl, Or.inr hd⟩
        · exact ⟨hlt, Or.inr hd, Or.inl rfl⟩
        · exact ⟨hlt, Or.inr ha, Or.inr hb⟩
      · rintro ⟨hlt, rfl | ha, rfl | hb⟩
        · exact absurd hlt (lt_irrefl _)
        · exact Or.inl ⟨b, hb, hlt, Or.inl ⟨rfl, rfl⟩⟩
        · exact Or.inl ⟨a, ha, hlt, Or.inr ⟨rfl, rfl⟩⟩
        · exact Or.inr ⟨hlt, ha, hb⟩

theorem mem_pairsFromEntities {ids : List String} {a b : String} :
    (a, b) ∈ pairsFromEntities ids ↔ a < b ∧ a ∈ ids ∧ b ∈ ids := by
  rw [pairsFromEntities, mem_pairsOf, List.mem_insertionSort, List.mem_insertionSort, List.mem_dedup,
    List.mem_dedup]

/-! ### Weights -/

theorem weightOf_upsertEdge (ts : Int) (edges : List EdgeRow) (pair : String × String) (a b : String) :
    weightOf (upsertEdge ts edges pair) a b =
      if pair = (a, b) then some ((weightOf edges a b).getD 0 + 1) else weightOf edges a b := by
  unfold weightOf upsertEdge
  by_cases h : pair = (a, b)
  · subst h
    rw [if_pos rfl]
    dsimp only
    have hself : ∀ row : EdgeRow, row.key = (a, b) →
        lookup EdgeRow.key (a, b) (upsert EdgeRow.key row edges) = some row :=
      fun row hrow => hrow ▸ lookup_upsert_self row edges
    rw [hself _ rfl]
    cases lookup EdgeRow.key (a, b) edges with
    | none => rfl
    | some row => rfl
  · have hne : EdgeRow.key ⟨pair.1, pair.2, (lookup EdgeRow.key pair edges).elim 1 fun row => row.weight + 1, ts⟩ ≠
        (a, b) := h
    rw [if_neg h, lookup_upsert_of_ne hne]

theorem weightOf_foldl {ts : Int} {pairs : List (String × String)} (hnd : pairs.Nodup) (edges : List EdgeRow)
    (a b : String) : weightOf (pairs.foldl (upsertEdge ts) edges) a b =
      if (a, b) ∈ pairs then some ((weightOf edges a b).getD 0 + 1) else weightOf edges a b := by
  induction pairs generalizing edges with
  | nil => simp
  | cons pair pairs ih =>
      obtain ⟨hnot, hnd⟩ := List.nodup_cons.mp hnd
      rw [List.foldl_cons, ih hnd, weightOf_upsertEdge]
      by_cases h : pair = (a, b)
      · subst h
        rw [if_neg hnot, if_pos rfl, if_pos List.mem_cons_self]
      · rw [if_neg h]
        have hiff : (a, b) ∈ pair :: pairs ↔ (a, b) ∈ pairs := by
          rw [List.mem_cons, or_iff_right (Ne.symm h)]
        simp only [hiff]

/-- Writing the pairs of some entities raises the weight of each of these pairs by one. -/
theorem weightOf_upsertEdges (ids : List String) (ts : Int) (edges : List EdgeRow) {a b : String} (hab : a < b) :
    weightOf (upsertEdges (pairsFromEntities ids) ts edges) a b =
      if a ∈ ids ∧ b ∈ ids then some ((weightOf edges a b).getD 0 + 1) else weightOf edges a b := by
  have hmem : (a, b) ∈ ((pairsFromEntities ids).filterMap fun pair => orderPair pair.1 pair.2).dedup ↔
      a ∈ ids ∧ b ∈ ids := by
    rw [List.mem_dedup, List.mem_filterMap]
    constructor
    · rintro ⟨⟨c, d⟩, hcd, hpair⟩
      obtain ⟨hlt, hc, hd⟩ := mem_pairsFromEntities.mp hcd
      obtain ⟨rfl, rfl⟩ := Prod.mk.inj (Option.some.inj ((orderPair_of_lt hlt).symm.trans hpair))
      exact ⟨hc, hd⟩
    · intro hids
      exact ⟨(a, b), mem_pairsFromEntities.mpr ⟨hab, hids⟩, orderPair_of_lt hab⟩
  rw [upsertEdges, weightOf_foldl (List.nodup_dedup _)]
  simp only [hmem]

end TinyCortex.Graph
