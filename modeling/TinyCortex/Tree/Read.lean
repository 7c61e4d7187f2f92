import TinyCortex.Lib.Descent
import TinyCortex.Lib.Text
import TinyCortex.Tree.Store

/-! The basic tree walk (`tree/read.rs`, `tree/io.rs`): breadth first from a start node through the summaries that are
not deleted, down to the chunks, with a cap on the depth. No node is remembered, so a graph that is no tree is walked
along every path. -/

namespace TinyCortex.SummaryTree

open Chunks Descent

inductive NodeKind
  | summary
  | chunk
  deriving DecidableEq, Repr

structure TreeReadHit where
  nodeId : String
  nodeKind : NodeKind
  level : Nat
  content : String
  score : Nat
  deriving DecidableEq, Repr

structure TreeReadRequest where
  treeId : String
  startNodeId : Option String
  maxDepth : Nat
  query : Option String
  limit : Option Nat
  deriving DecidableEq, Repr

structure TreeReadResult where
  hits : List TreeReadHit
  total : Nat
  treeId : String
  deriving DecidableEq, Repr

def defaultReadLimit : Nat := 50

/-- The texts of the rows, and `str::to_lowercase`. -/
structure Reading where
  summaryContent : String → String
  chunkContent : String → String
  toLowercase : String → String

namespace Reading

variable (reading : Reading)

def summaryHit (node : SummaryNode) : TreeReadHit := ⟨node.id, .summary, node.level, reading.summaryContent node.id, 0⟩

def chunkHit (chunk : Chunk) : TreeReadHit := ⟨chunk.id, .chunk, 0, reading.chunkContent chunk.id, 0⟩

/-- The hits of a node: itself, and its chunks when it is of level 1 and not at the last depth. -/
def visit (db : Db) (maxDepth : Nat) (node : SummaryNode) (depth : Nat) : List TreeReadHit :=
  reading.summaryHit node ::
    if maxDepth ≤ depth + 1 ∨ 2 ≤ node.level then []
    else (node.childIds.filterMap db.getChunk).map reading.chunkHit

end Reading

/-- The summary children of a node that are there and not deleted. -/
def liveKids (db : Db) (node : SummaryNode) : List SummaryNode :=
  if 2 ≤ node.level then (node.childIds.filterMap db.getSummary).filter fun child => !child.deleted else []

/-- What a node puts into the queue. -/
def enqueued (db : Db) (maxDepth : Nat) (node : SummaryNode) (depth : Nat) : List SummaryNode :=
  if maxDepth ≤ depth + 1 then [] else liveKids db node

def splitWords (text : List Char) : List (List Char) :=
  (text.splitOnP Text.isWhitespace).filter fun word => !word.isEmpty

/-- How many words of the lowercased query the lowercased content contains. -/
def overlap (reading : Reading) (query content : String) : Nat :=
  (splitWords (reading.toLowercase query).toList).countP fun word =>
    decide (word <:+: (reading.toLowercase content).toList)

/-- The hits by falling score; without a query they stay as they were met. -/
def ranked (reading : Reading) (query : Option String) (hits : List TreeReadHit) : List TreeReadHit :=
  match query with
  | none => hits
  | some query =>
      (hits.map fun hit => { hit with score := overlap reading query hit.content }).insertionSort
        fun a b => b.score ≤ a.score

/-- The walk, unless the queue outlasts the fuel. -/
def readTree (reading : Reading) (fuel : Nat) (db : Db) (req : TreeReadRequest) : Option TreeReadResult :=
  match db.getTree req.treeId with
  | none => some ⟨[], 0, req.treeId⟩
  | some tree =>
      if req.maxDepth = 0 then some ⟨[], 0, tree.id⟩
      else
        match (req.startNodeId.or tree.rootId).bind db.getSummary with
        | none => some ⟨[], 0, tree.id⟩
        | some start => do
            let met ← drain (reading.visit db req.maxDepth) (enqueued db req.maxDepth) fuel [(start, 0)]
            let hits := ranked reading req.query met
            some ⟨hits.take (req.limit.getD defaultReadLimit), hits.length, tree.id⟩

variable {reading : Reading} {db : Db} {start : SummaryNode} {maxDepth : Nat}

/-- The nodes a number of levels below the start, in order. -/
def readLevel (db : Db) (start : SummaryNode) (depth : Nat) : List SummaryNode := descend (liveKids db) depth start

/-- What the walk meets, level by level. -/
def met (reading : Reading) (db : Db) (start : SummaryNode) (maxDepth : Nat) : List TreeReadHit :=
  (List.range maxDepth).flatMap fun depth => (readLevel db start depth).flatMap (reading.visit db maxDepth · depth)

/-- How many turns the loop takes. -/
def readTurns (db : Db) (start : SummaryNode) (maxDepth : Nat) : Nat :=
  ((List.range maxDepth).map fun depth => (readLevel db start depth).length).sum

/-- The depths of the queue are the levels, and nothing is left of it after the last depth. -/
theorem layer_enqueued (db : Db) (start : SummaryNode) {maxDepth depth : Nat} (hdepth : depth < maxDepth) :
    layer (enqueued db maxDepth) [start] depth = readLevel db start depth := by
  apply layer_eq_descend (maxDepth - 1)
  · intro node other hother
    exact if_neg (by omega)
  · omega

theorem layer_last (db : Db) (start : SummaryNode) (hpos : 0 < maxDepth) :
    layer (enqueued db maxDepth) [start] maxDepth = [] := by
  obtain ⟨last, rfl⟩ := Nat.exists_eq_succ_of_ne_zero hpos.ne'
  rw [layer, List.flatMap_eq_nil_iff]
  intro node _
  exact if_pos (Nat.le_refl _)

/-- The loop ends after as many turns as there are nodes on the levels, with the levels in order. -/
theorem drain_read (reading : Reading) (db : Db) (start : SummaryNode) (hpos : 0 < maxDepth) (spare : Nat) :
    drain (reading.visit db maxDepth) (enqueued db maxDepth) (readTurns db start maxDepth + spare) [(start, 0)] =
      some (met reading db start maxDepth) := by
  have hdrain := drain_layers (reading.visit db maxDepth) (enqueued db maxDepth) [start] maxDepth spare
  rw [layer_last db start hpos, List.map_nil] at hdrain
  have hturns : ((List.range maxDepth).map fun depth => (layer (enqueued db maxDepth) [start] depth).length) =
      (List.range maxDepth).map fun depth => (readLevel db start depth).length :=
    List.map_congr_left fun depth hdepth => by rw [layer_enqueued db start (List.mem_range.mp hdepth)]
  have hmet : (List.range maxDepth).flatMap (fun depth =>
      (layer (enqueued db maxDepth) [start] depth).flatMap (reading.visit db maxDepth · depth)) =
      met reading db start maxDepth :=
    List.flatMap_congr fun depth hdepth => by rw [layer_enqueued db start (List.mem_range.mp hdepth)]
  rw [hturns, hmet] at hdrain
  rw [readTurns, show [(start, 0)] = [start].map (·, 0) from rfl, hdrain]
  cases spare <;> simp [drain]

/-! ### The ranking -/

theorem filter_orderedInsert {α : Type*} (score : α → Nat) (n : Nat) (x : α) (xs : List α) :
    (xs.orderedInsert (fun a b => score b ≤ score a) x).filter (fun a => decide (score a = n)) =
      (x :: xs).filter fun a => decide (score a = n) := by
  induction xs with
  | nil => rfl
  | cons y xs ih =>
      rw [List.orderedInsert_cons]
      by_cases hle : score y ≤ score x
      · rw [if_pos hle]
      · have hskip : score x = n → score y ≠ n := by omega
        rw [if_neg hle, List.filter_cons, ih, List.filter_cons, List.filter_cons, List.filter_cons]
        by_cases hx : score x = n
        · simp [hx, hskip hx]
        · simp [hx]

/-- The sort keeps the order of the hits of one score. -/
theorem filter_insertionSort {α : Type*} (score : α → Nat) (n : Nat) (xs : List α) :
    (xs.insertionSort fun a b => score b ≤ score a).filter (fun a => decide (score a = n)) =
      xs.filter fun a => decide (score a = n) := by
  induction xs with
  | nil => rfl
  | cons x xs ih => rw [List.insertionSort_cons, filter_orderedInsert, List.filter_cons, ih, List.filter_cons]

/-- The hits of a query: those that were met with their scores, sorted, ties in the order of the walk. -/
structure RankedBy (reading : Reading) (query : String) (met hits : List TreeReadHit) : Prop where
  sorted : hits.Pairwise fun a b => b.score ≤ a.score
  ties : ∀ n, hits.filter (fun hit => decide (hit.score = n)) =
    (met.map fun hit => { hit with score := overlap reading query hit.content }).filter fun hit =>
      decide (hit.score = n)

theorem ranked_some (reading : Reading) (query : String) (met : List TreeReadHit) :
    RankedBy reading query met (ranked reading (some query) met) where
  sorted := List.pairwise_insertionSort _ _
  ties := fun n => filter_insertionSort TreeReadHit.score n _

/-! ### The walk of a tree -/

/-- A summary that is met is a row, found by its id. -/
theorem getSummary_of_met {depth : Nat} {node : SummaryNode} (hstart : db.getSummary start.id = some start)
    (hnode : node ∈ readLevel db start depth) : db.getSummary node.id = some node := by
  cases depth with
  | zero => rwa [List.mem_singleton.mp hnode]
  | succ depth =>
      obtain ⟨parent, -, hchild⟩ := mem_descend_succ.mp hnode
      rw [liveKids] at hchild
      split_ifs at hchild
      · obtain ⟨id, -, hget⟩ := List.mem_filterMap.mp (List.mem_of_mem_filter hchild)
        rw [(Table.lookup_mem hget).2]
        exact hget
      · cases hchild

/-- The summaries that are met, in order. -/
def metNodes (db : Db) (start : SummaryNode) (maxDepth : Nat) : List SummaryNode :=
  (List.range maxDepth).flatMap (readLevel db start)

theorem summaries_of_met (reading : Reading) (db : Db) (start : SummaryNode) (maxDepth : Nat) :
    (met reading db start maxDepth).filter (fun hit => decide (hit.nodeKind = .summary)) =
      (metNodes db start maxDepth).map reading.summaryHit := by
  have hvisit (node : SummaryNode) (depth : Nat) :
      (reading.visit db maxDepth node depth).filter (fun hit => decide (hit.nodeKind = .summary)) =
        [reading.summaryHit node] := by
    rw [Reading.visit, List.filter_cons_of_pos (by rfl)]
    congr 1
    split_ifs
    · rfl
    · rw [List.filter_eq_nil_iff]
      intro hit hhit
      obtain ⟨chunk, -, rfl⟩ := List.mem_map.mp hhit
      simp [Reading.chunkHit]
  rw [met, metNodes, List.filter_flatMap, List.map_flatMap]
  refine List.flatMap_congr fun depth _ => ?_
  rw [List.filter_flatMap, List.map_eq_flatMap]
  exact List.flatMap_congr fun node _ => hvisit node depth

/-- A walk with depth and limit enough goes through the whole of the start's tree. -/
theorem readTurns_le (htree : Treelike (liveKids db) SummaryNode.level start)
    (hstart : db.getSummary start.id = some start) (maxDepth : Nat) :
    readTurns db start maxDepth ≤ db.summaries.length := by
  have hlength : readTurns db start maxDepth = (metNodes db start maxDepth).length := by
    rw [readTurns, metNodes, List.length_flatMap]
  rw [hlength]
  refine (List.subperm_of_subset (htree.levels_nodup maxDepth) fun node hnode => ?_).length_le
  obtain ⟨depth, -, hlevel⟩ := List.mem_flatMap.mp hnode
  exact (Table.lookup_mem (getSummary_of_met hstart hlevel)).1

theorem nodup_metIds (htree : Treelike (liveKids db) SummaryNode.level start)
    (hstart : db.getSummary start.id = some start) (maxDepth : Nat) :
    ((metNodes db start maxDepth).map SummaryNode.id).Nodup := by
  refine (htree.levels_nodup maxDepth).map_on fun node hnode other hother hid => ?_
  obtain ⟨depth, -, hlevel⟩ := List.mem_flatMap.mp hnode
  obtain ⟨depth', -, hlevel'⟩ := List.mem_flatMap.mp hother
  have hget := getSummary_of_met hstart hlevel
  rw [hid, getSummary_of_met hstart hlevel'] at hget
  exact (Option.some.inj hget).symm

/-- The walk ends, and returns the levels below the start in order, or by falling overlap with the query with ties in
that order, up to the limit. Where the rows below the start form a tree it takes at most a turn for each summary, hits
each summary once, and with more depth than the level of the start hits all that are below it and not deleted. -/
theorem readTree_levels (reading : Reading) (db : Db) (req : TreeReadRequest) {tree : Tree} {start : SummaryNode}
    (htree : db.getTree req.treeId = some tree) (hpos : 0 < req.maxDepth)
    (hstart : (req.startNodeId.or tree.rootId).bind db.getSummary = some start) {fuel : Nat}
    (hfuel : readTurns db start req.maxDepth ≤ fuel) :
    (∃ hits, readTree reading fuel db req =
        some ⟨hits.take (req.limit.getD defaultReadLimit), hits.length, tree.id⟩ ∧
      (req.query = none → hits = met reading db start req.maxDepth) ∧
      ∀ query, req.query = some query → RankedBy reading query (met reading db start req.maxDepth) hits) ∧
    (Treelike (liveKids db) SummaryNode.level start →
      readTurns db start req.maxDepth ≤ db.summaries.length ∧
      ((met reading db start req.maxDepth).filter fun hit => decide (hit.nodeKind = .summary)) =
        (metNodes db start req.maxDepth).map reading.summaryHit ∧
      ((metNodes db start req.maxDepth).map SummaryNode.id).Nodup ∧
      (start.level < req.maxDepth → ∀ node, node ∈ metNodes db start req.maxDepth ↔ Below (liveKids db) start node)) := by
  obtain ⟨startId, -, hget⟩ := Option.bind_eq_some_iff.mp hstart
  have hself : db.getSummary start.id = some start := by
    rw [(Table.lookup_mem hget).2]
    exact hget
  refine ⟨⟨ranked reading req.query (met reading db start req.maxDepth), ?_, fun hnone => ?_, fun query hquery => ?_⟩,
    fun htreelike => ⟨readTurns_le htreelike hself _, summaries_of_met _ _ _ _, nodup_metIds htreelike hself _,
      fun hdeep node => (htreelike.below_iff hdeep).symm⟩⟩
  · obtain ⟨spare, rfl⟩ := Nat.exists_eq_add_of_le hfuel
    rw [readTree, htree]
    dsimp only
    rw [if_neg hpos.ne', hstart]
    dsimp only
    rw [drain_read reading db start hpos spare]
    rfl
  · rw [hnone]
    rfl
  · rw [hquery]
    exact ranked_some reading query _

/-- A root over two summaries, one of them deleted. -/
def prunedTree : Db where
  trees := [⟨"t", .source, "room", some "r", 2, .active, none⟩]
  chunks := [⟨"a", .chat, "room", none, 0, 0, 0, 4, 0, .admitted⟩]
  summaries := [⟨"s1", "t", 1, none, ["a", "b"], 5, 0, 0, 0, false, none, none⟩,
    ⟨"s2", "t", 1, none, ["c"], 5, 0, 0, 0, true, none, none⟩,
    ⟨"r", "t", 2, none, ["s1", "s2"], 5, 0, 0, 0, false, none, none⟩]
  buffers := []

theorem readTree_levels_prunedTree :
    ∃ hits : List TreeReadHit, readTree ⟨id, id, id⟩ 3 prunedTree ⟨"t", none, 3, none, none⟩ =
        some ⟨hits.take 50, hits.length, "t"⟩ ∧ hits.map TreeReadHit.nodeId = ["r", "s1", "a"] := by
  have htree : prunedTree.getTree "t" = some ⟨"t", .source, "room", some "r", 2, .active, none⟩ := rfl
  have hstart : ((none : Option String).or (some "r")).bind prunedTree.getSummary =
      some ⟨"r", "t", 2, none, ["s1", "s2"], 5, 0, 0, 0, false, none, none⟩ := rfl
  have hfuel : readTurns prunedTree ⟨"r", "t", 2, none, ["s1", "s2"], 5, 0, 0, 0, false, none, none⟩ 3 ≤ 3 := by decide
  obtain ⟨⟨hits, hread, hmet, -⟩, -⟩ :=
    readTree_levels ⟨id, id, id⟩ prunedTree ⟨"t", none, 3, none, none⟩ htree (by decide) hstart hfuel
  refine ⟨hits, hread, ?_⟩
  rw [hmet rfl]
  decide

end TinyCortex.SummaryTree
