import TinyCortex.Lib.Ranking
import TinyCortex.Retrieval.Fast

/-! The filters of graph-routed retrieval. The dense and the occurrence route look for live summaries in the window;
the graph route is told of no window, and takes tombstones and dropped chunks like any other row. -/

namespace TinyCortex.Retrieval

open Chunks Fallible TinyCortex.Graph Score SummaryTree Table

/-- A chunk that the admission turned down, as its score or its lifecycle has it. -/
def Tables.Dropped (tables : Tables) (chunk : Chunk) : Prop :=
  chunk.id ∈ tables.droppedChunkIds ∨ chunk.lifecycleStatus = .dropped

/-- The row of a hit is neither deleted nor dropped. -/
def Tables.Live (tables : Tables) (hit : RetrievalHit) : Prop :=
  match hit.nodeKind with
  | .summary => ∃ node, tables.db.getSummary hit.nodeId = some node ∧ node.deleted = false
  | .leaf => ∃ chunk, tables.db.getChunk hit.nodeId = some chunk ∧ ¬tables.Dropped chunk

/-- A live row whose time range meets the window, if there is one. -/
structure Tables.Current (tables : Tables) (clock : Clock) (days : Option Nat) (hit : RetrievalHit) : Prop where
  window : ∀ n, days = some n →
    (clock.window n).1 ≤ hit.timeRangeEndMs ∧ hit.timeRangeStartMs ≤ (clock.window n).2
  live : tables.Live hit

def inScope (sourceScope : Option (List String)) (hit : RetrievalHit) : Bool :=
  sourceScope.all fun scope => sourceScopeAllows scope hit.treeScope

/-- Everything that is asked of a hit. -/
structure Tables.Admits (tables : Tables) (clock : Clock) (days : Option Nat) (sourceScope : Option (List String))
    (hit : RetrievalHit) : Prop extends tables.Current clock days hit where
  scope : inScope sourceScope hit = true

/-- The row of a candidate. -/
def Tables.resolve (tables : Tables) (entry : String × Candidate) : Option RetrievalHit :=
  if entry.2.nodeKind = "leaf" then
    (tables.db.getChunk entry.1).map fun chunk => hitFromChunk chunk "" chunk.sourceId
  else
    (tables.db.getSummary entry.1).map fun node =>
      hitFromSummary node ((tables.db.getTree node.treeId).elim "" Tree.scope)

/-- A candidate with a row in the scope. -/
def Tables.serves (tables : Tables) (sourceScope : Option (List String)) (entry : String × Candidate) : Bool :=
  (tables.resolve entry).any (inScope sourceScope)

variable {policy : RetrievalPolicy} {tables : Tables} {clock : Clock} {sourceScope : Option (List String)}
variable {candidates : Candidates} {limit : Nat} {days : Option Nat} {hit : RetrievalHit}

/-! ### The order of candidates -/

/-- Where a candidate stands. -/
def place (entry : String × Candidate) : ℕᵒᵈ ×ₗ ℤᵒᵈ ×ₗ String :=
  toLex (OrderDual.toDual entry.2.matched.length, toLex (OrderDual.toDual entry.2.latestTs, entry.1))

theorem before_iff {a b : String × Candidate} : before a b = true ↔ place a < place b := by
  simp only [before, place, Prod.Lex.toLex_lt_toLex, OrderDual.toDual_lt_toDual, OrderDual.toDual_inj,
    Bool.or_eq_true, Bool.and_eq_true, decide_eq_true_eq, beq_iff_eq]

theorem before_eq_false_iff {a b : String × Candidate} : before a b = false ↔ place b ≤ place a := by
  rw [← Bool.not_eq_true, before_iff, not_lt]

theorem strict_before : Ranking.Strict before where
  irrefl _ := before_eq_false_iff.mpr le_rfl
  asymm _ _ h := before_eq_false_iff.mpr (before_iff.mp h).le

theorem place_ne {a b : String × Candidate} (h : a.1 ≠ b.1) : place a ≠ place b := by
  intro heq
  simp only [place, toLex_inj, Prod.mk.injEq] at heq
  exact h heq.2.2

theorem rank_perm (candidates : Candidates) : (rank candidates).Perm candidates := List.perm_insertionSort _ _

theorem rank_pairwise (hnodup : (candidates.map Prod.fst).Nodup) :
    (rank candidates).Pairwise fun a b => before a b = true := by
  have : Std.Total fun a b : String × Candidate => before b a = false :=
    ⟨fun a b => by simp only [before_eq_false_iff]; exact le_total _ _⟩
  have : IsTrans _ fun a b : String × Candidate => before b a = false :=
    ⟨fun a b c => by simp only [before_eq_false_iff]; exact le_trans⟩
  have hsorted : (rank candidates).Pairwise fun a b => before b a = false := List.pairwise_insertionSort _ _
  have hids : ((rank candidates).map Prod.fst).Nodup := ((rank_perm candidates).map Prod.fst).nodup_iff.mpr hnodup
  refine (hsorted.and (List.pairwise_map.mp hids)).imp fun h => ?_
  exact before_iff.mpr (lt_of_le_of_ne (before_eq_false_iff.mp h.1) (place_ne h.2))

/-! ### The candidates of the graph -/

/-- Candidates have distinct ids. -/
theorem addOccurrence_nodup (h : (candidates.map Prod.fst).Nodup) (pair : PairDistance) (rightTs : Int) (hit : IndexRow) :
    ((addOccurrence pair rightTs hit candidates).map Prod.fst).Nodup := nodup_upsert h

theorem localCandidates_nodup {pairs : List PairDistance} (h : localCandidates policy tables pairs = .ok candidates) :
    (candidates.map Prod.fst).Nodup := by
  rw [localCandidates] at h
  have hnil : (([] : Candidates).map Prod.fst).Nodup := List.nodup_nil
  generalize ([] : Candidates) = output at h hnil
  induction pairs generalizing output with
  | nil =>
      cases h
      exact hnil
  | cons pair pairs ih =>
      rw [List.foldlM_cons, bind_ok_iff] at h
      obtain ⟨next, hnext, hrest⟩ := h
      refine ih next hrest ?_
      simp only [bind_ok_iff] at hnext
      obtain ⟨left, -, right, -, hfold⟩ := hnext
      rw [← Except.ok.inj hfold]
      refine List.foldlRecOn left (motive := fun output : Candidates => (output.map Prod.fst).Nodup) _ hnil
        fun output houtput hit _ => ?_
      cases lookup IndexRow.nodeId hit.nodeId right.reverse with
      | none => exact houtput
      | some row => exact addOccurrence_nodup houtput pair row.timestampMs hit

/-- The loop ends with what it began with or with candidates of fewer hops. -/
theorem narrow_induct {candidatesAt : Nat → Except String Candidates} {P : Candidates → Prop}
    (hat : ∀ hops found, candidatesAt hops = .ok found → P found) {hops : Nat} {last : Candidates}
    {result : Candidates × Candidates} (hfirst : P candidates) (hlast : P last)
    (h : narrow candidatesAt limit hops candidates last = .ok result) : P result.1 ∧ P result.2 := by
  induction hops, candidates, last using narrow.induct limit with
  | case1 hops candidates last hmore ih =>
      rw [narrow, if_pos hmore, bind_ok_iff] at h
      obtain ⟨next, hnext, hrest⟩ := h
      split_ifs at hrest with hempty
      · rw [← Except.ok.inj hrest]
        exact ⟨hfirst, hlast⟩
      · exact ih next (hat _ _ hnext) (hat _ _ hnext) hrest
  | case2 hops candidates last hfew =>
      rw [narrow, if_neg hfew] at h
      rw [← Except.ok.inj h]
      exact ⟨hfirst, hlast⟩
  | case3 hops candidates last hfew =>
      rw [narrow] at h
      · rw [← Except.ok.inj h]
        exact ⟨hfirst, hlast⟩
      · exact hfew

theorem graphRoute_nodup {entityIds : List String} {maxHops : Nat}
    (h : graphRoute policy tables entityIds limit maxHops = .ok (some candidates)) :
    (candidates.map Prod.fst).Nodup := by
  rw [graphRoute] at h
  dsimp only at h
  by_cases hpairs : pairDistances tables.edges entityIds maxHops = []
  · rw [if_pos hpairs] at h
    cases h
  rw [if_neg hpairs] at h
  simp only [bind_ok_iff] at h
  obtain ⟨first, hfirst, result, hresult, h⟩ := h
  obtain ⟨hfound, hlast⟩ := narrow_induct (fun _ _ => localCandidates_nodup) (localCandidates_nodup hfirst)
    (localCandidates_nodup hfirst) hresult
  have hsome := Except.ok.inj h
  by_cases hempty : result.1 = []
  · rw [if_pos hempty] at hsome
    split_ifs at hsome
    rw [← Option.some.inj hsome]
    exact hlast
  · rw [if_neg hempty, if_neg hempty] at hsome
    rw [← Option.some.inj hsome]
    exact hfound

theorem graphRoute_nil (maxHops : Nat) : graphRoute policy tables [] limit maxHops = .ok none := by
  have hpairs : pairDistances tables.edges [] maxHops = [] := if_pos (Or.inr (by decide))
  rw [graphRoute, hpairs]
  rfl

/-! ### What the graph route returns -/

theorem fetchLeaves_of_le {ids : List String} (h : ids.length ≤ policy.fetchBatchLimit) (db : Db) :
    fetchLeaves policy db ids =
      ids.filterMap fun id => (db.getChunk id).map fun chunk => hitFromChunk chunk "" chunk.sourceId := by
  rw [fetchLeaves, if_neg (Nat.not_lt.mpr h)]

/-- The batches of a fetch are together a fetch of everything. -/
theorem fetchLeaves_batches (hbatch : policy.fetchBatchLimit ≠ 0) (db : Db) (ids : List String) :
    (chunksOf policy.fetchBatchLimit ids).flatMap (fetchLeaves policy db) =
      ids.filterMap fun id => (db.getChunk id).map fun chunk => hitFromChunk chunk "" chunk.sourceId := by
  conv_rhs => rw [← flatten_chunksOf policy.fetchBatchLimit ids]
  rw [List.filterMap_flatten, List.flatMap_def]
  refine congrArg List.flatten (List.map_congr_left fun piece hpiece => ?_)
  exact fetchLeaves_of_le (length_le_of_mem_chunksOf (Nat.pos_of_ne_zero hbatch) hpiece) db

theorem getChunk_id {db : Db} {id : String} {chunk : Chunk} (h : db.getChunk id = some chunk) : chunk.id = id :=
  (lookup_mem h).2

/-- The map by id holds the row of each candidate. -/
theorem lookup_byId (tables : Tables) (hbatch : policy.fetchBatchLimit ≠ 0) {ordered : Candidates}
    (hnodup : (ordered.map Prod.fst).Nodup) {entry : String × Candidate} (hentry : entry ∈ ordered) :
    lookup RetrievalHit.nodeId entry.1
      ((chunksOf policy.fetchBatchLimit ((ordered.filter fun entry => entry.2.nodeKind == "leaf").map Prod.fst)).flatMap
          (fetchLeaves policy tables.db) ++
        summaryHits tables.db ((ordered.filter fun entry => entry.2.nodeKind != "leaf").map Prod.fst)) =
      tables.resolve entry := by
  have hmem : ∀ p : String × Candidate → Bool, entry.1 ∈ (ordered.filter p).map Prod.fst ↔ p entry = true := by
    intro p
    rw [List.mem_map]
    constructor
    · intro h
      obtain ⟨other, hother, hid⟩ := h
      obtain ⟨hin, hp⟩ := List.mem_filter.mp hother
      rw [← eq_of_pk_eq hnodup hin hentry hid]
      exact hp
    · exact fun hp => ⟨entry, List.mem_filter.mpr ⟨hentry, hp⟩, rfl⟩
  rw [lookup_append, fetchLeaves_batches hbatch, summaryHits, lookup_filterMap, lookup_filterMap, Tables.resolve]
  · simp only [hmem, beq_iff_eq, bne_iff_ne]
    by_cases hleaf : entry.2.nodeKind = "leaf"
    · simp [hleaf]
    · simp [hleaf]
  · intro id hit hhit
    obtain ⟨node, hnode, rfl⟩ := Option.map_eq_some_iff.mp hhit
    exact (lookup_mem hnode).2
  · intro id hit hhit
    obtain ⟨chunk, hchunk, rfl⟩ := Option.map_eq_some_iff.mp hhit
    exact getChunk_id hchunk

/-- The rows of the first few candidates that have one in the scope. -/
theorem resolveLocal_eq (tables : Tables) (sourceScope : Option (List String)) (limit : Nat)
    (hbatch : policy.fetchBatchLimit ≠ 0) (hnodup : (candidates.map Prod.fst).Nodup) :
    resolveLocal policy tables candidates sourceScope limit =
      .ok (QueryResponse.new ((((rank candidates).filterMap tables.resolve).filter (inScope sourceScope)).take limit)
        (((rank candidates).filterMap tables.resolve).filter (inScope sourceScope)).length) := by
  have hids : ((rank candidates).map Prod.fst).Nodup := ((rank_perm candidates).map Prod.fst).nodup_iff.mpr hnodup
  rw [resolveLocal, if_neg hbatch]
  dsimp only
  rw [List.filterMap_congr fun entry hentry => lookup_byId tables hbatch hids hentry]
  rfl


/-- A candidate is served if fewer candidates with a row in the scope than the limit go before it. -/
theorem mem_resolved_iff (hnodup : (candidates.map Prod.fst).Nodup) :
    hit ∈ (((rank candidates).filterMap tables.resolve).filter (inScope sourceScope)).take limit ↔
      ∃ entry ∈ candidates, tables.resolve entry = some hit ∧ inScope sourceScope hit = true ∧
        candidates.countP (fun other => tables.serves sourceScope other && before other entry) < limit := by
  rw [Ranking.take_filter_filterMap, List.mem_filterMap]
  constructor
  · intro h
    obtain ⟨entry, hentry, hhit⟩ := h
    obtain ⟨hmem, hserves, hfew⟩ := (Ranking.mem_take_filter_iff strict_before (rank_pairwise hnodup)).mp hentry
    rw [hhit, Option.any_some] at hserves
    rw [(rank_perm candidates).countP_eq] at hfew
    exact ⟨entry, (rank_perm candidates).mem_iff.mp hmem, hhit, hserves, hfew⟩
  · intro h
    obtain ⟨entry, hentry, hhit, hscope, hfew⟩ := h
    refine ⟨entry, ?_, hhit⟩
    refine (Ranking.mem_take_filter_iff strict_before (rank_pairwise hnodup)).mpr ⟨?_, ?_, ?_⟩
    · exact (rank_perm candidates).mem_iff.mpr hentry
    · rw [hhit, Option.any_some, hscope]
    · rw [(rank_perm candidates).countP_eq]
      exact hfew

/-! ### What the other routes return -/

section Dense

variable {ρ σ : Type*} {toLowercase : String → String} {embedder : Embedder ρ σ} {query : String}
variable {response : QueryResponse}

theorem checkedWindow_ok {window : Option (Int × Int)} (h : clock.checkedWindow days = .ok window) :
    window = days.map clock.window := by
  cases days with
  | none =>
      rw [← Except.ok.inj h]
      rfl
  | some n =>
      rw [Clock.checkedWindow] at h
      split_ifs at h
      rw [← Except.ok.inj h]
      rfl

theorem orderHits_perm (scored : List (RetrievalHit × Option (List ρ))) (query : Option String) :
    (orderHits embedder scored query).Perm (scored.map Prod.fst) := by
  cases query with
  | none => exact List.mergeSort_perm _ _
  | some query => exact rerank_perm embedder query scored

theorem querySource_hits {sourceId : Option String} {sourceKind : Option SourceKind} {query : Option String}
    (h : querySource toLowercase embedder policy tables.db clock sourceId sourceKind days query limit = .ok response)
    (hhit : hit ∈ response.hits) :
    hit ∈ collectSourceHits toLowercase tables.db sourceId sourceKind (days.map clock.window) := by
  rw [querySource] at h
  simp only [bind_ok_iff] at h
  obtain ⟨window, hwindow, h⟩ := h
  rw [← Except.ok.inj h] at hhit
  have hordered := (orderHits_perm _ query).mem_iff.mp (List.mem_of_mem_take hhit)
  rw [List.map_map, List.mem_map] at hordered
  obtain ⟨found, hfound, rfl⟩ := hordered
  rw [← checkedWindow_ok hwindow]
  exact hfound

/-- What is gathered from trees is live and in the window. -/
theorem collectSourceHits_current {sourceId : Option String} {sourceKind : Option SourceKind}
    (h : hit ∈ collectSourceHits toLowercase tables.db sourceId sourceKind (days.map clock.window)) :
    tables.Current clock days hit := by
  obtain ⟨tree, -, hhit⟩ := List.mem_flatMap.mp h
  obtain ⟨node, hnode, rfl⟩ := List.mem_map.mp hhit
  have hlive : ∀ node ∈ tables.db.summaries, node.deleted = false →
      tables.Live (hitFromSummary node tree.scope) := fun node hrow hlive =>
    ⟨node, lookup_of_mem tables.summaryIds hrow, hlive⟩
  cases days with
  | none =>
      obtain ⟨-, hrow, -, hdeleted, -, -⟩ := mem_treeSummaries.mp hnode
      exact ⟨fun _ hn => (nomatch hn), hlive node hrow hdeleted⟩
  | some n =>
      obtain ⟨-, hrow, -, hdeleted, -, hend, hstart⟩ := mem_treeSummaries_window.mp hnode
      refine ⟨fun m hm => ?_, hlive node hrow hdeleted⟩
      rw [← Option.some.inj hm]
      exact ⟨hend, hstart⟩

theorem dense_admits (h : dense toLowercase embedder policy tables clock query sourceScope limit days = .ok response)
    (hhit : hit ∈ response.hits) : tables.Admits clock days sourceScope hit := by
  rw [dense] at h
  simp only [bind_ok_iff] at h
  obtain ⟨found, hfound, h⟩ := h
  rw [← Except.ok.inj h] at hhit
  obtain ⟨hmem, hscope⟩ := List.mem_filter.mp (List.mem_of_mem_take hhit)
  exact ⟨collectSourceHits_current (querySource_hits hfound hmem), hscope⟩

theorem globalOccurrence_admits {entityIds : List String}
    (h : globalOccurrence toLowercase embedder policy tables clock query entityIds sourceScope limit days = .ok response)
    (hhit : hit ∈ response.hits) : tables.Admits clock days sourceScope hit := by
  rw [globalOccurrence] at h
  simp only [bind_ok_iff] at h
  obtain ⟨found, hfound, h⟩ := h
  rw [← Except.ok.inj h] at hhit
  exact dense_admits hfound (List.mem_mergeSort.mp (List.mem_of_mem_take hhit))

/-! ### All routes -/

end Dense

/-- A message that two connected entities are on. -/
def launchTables : Tables where
  db := ⟨[], [⟨"leaf-1", .chat, "slack:#eng", none, 0, 0, 0, 1, 0, .admitted⟩], [], []⟩
  index :=
    [⟨"person:alice", "leaf-1", "leaf", "person", "Alice", 0, none⟩,
      ⟨"topic:launch", "leaf-1", "leaf", "topic", "launch", 0, none⟩]
  edges := [⟨"person:alice", "topic:launch", 1, 0⟩]
  droppedChunkIds := []
  entities := fun _ => []
  summaryIds := List.nodup_nil

/-- Thirty days after the message. -/
def monthLater : Clock := ⟨30 * dayMs, -dayMs⟩

def lastWeek : FastRetrieveOptions := { FastRetrieveOptions.default with timeWindowDays := some 7 }

def launchCandidates : Candidates := [("leaf-1", ⟨"leaf", ["topic:launch", "person:alice"], 0⟩)]

theorem graphRoute_launch : graphRoute .default launchTables (dedupIds ["person:alice", "topic:launch"])
    (lastWeek.cappedLimit .default) (lastWeek.cappedHops .default) =
      .ok (some launchCandidates) := by
  decide

/-- No vectors. -/
def inert : Embedder Unit Unit := ⟨fun _ => none, fun _ => none, fun _ _ => (), fun _ _ => none⟩

def launchHit : RetrievalHit := ⟨"leaf-1", .leaf, "", "slack:#eng", 0, 0, 0, []⟩

end TinyCortex.Retrieval
