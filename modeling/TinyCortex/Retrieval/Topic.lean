import TinyCortex.Retrieval.FastFilters
import TinyCortex.Score.EdgesRefine
import TinyCortex.Lib.Ranking
import TinyCortex.Ingest.Pipeline
import TinyCortex.Tree.DocumentSeal
import TinyCortex.Tree.Forest

/-! `query_topic` (`retrieval/global.rs`): the nodes that an entity is indexed on. A window is asked of the row in the
index first, and then of the time range of the node. Scores of hits are left out. -/

namespace TinyCortex.Retrieval

open Chunks Fallible Score SummaryTree Table

/-! ### Times -/

/-- The bounds of `DateTime<Utc>`. -/
def minUtcMs : Int := -8334601228800000

def maxUtcMs : Int := 8210266876799999

/-- A time that `DateTime<Utc>` can hold. -/
def IsUtc (ms : Int) : Prop := minUtcMs ≤ ms ∧ ms ≤ maxUtcMs

instance (ms : Int) : Decidable (IsUtc ms) := inferInstanceAs (Decidable (_ ∧ _))

/-- In nanoseconds, as the last instant of the range is not a whole millisecond. -/
def msToUtc (ms : Int) : Int :=
  if ms < minUtcMs then minUtcMs * 1000000
  else if maxUtcMs < ms then maxUtcMs * 1000000 + 999999
  else ms * 1000000

/-- A time lies in a window that may be open. -/
def within (sinceMs untilMs : Option Int) (ms : Int) : Bool :=
  sinceMs.all (fun start => decide (start ≤ ms)) && untilMs.all fun stop => decide (ms ≤ stop)

/-- A time range meets a window that may be open. -/
def overlaps (sinceMs untilMs : Option Int) (startMs endMs : Int) : Bool :=
  sinceMs.all (fun start => decide (start ≤ endMs)) && untilMs.all fun stop => decide (startMs ≤ stop)

def RetrievalHit.overlaps (sinceMs untilMs : Option Int) (hit : RetrievalHit) : Bool :=
  Retrieval.overlaps sinceMs untilMs hit.timeRangeStartMs hit.timeRangeEndMs

/-! ### The query -/

/-- The hit of an index row among the summaries and chunks that were fetched. -/
def resolveAmong (db : Db) (droppedChunkIds summaryIds leafIds : List String) (row : IndexRow) : Option RetrievalHit :=
  match if row.nodeId ∈ summaryIds then db.getSummary row.nodeId else none with
  | some node =>
      if node.deleted then none
      else some (hitFromSummary node ((db.getTree node.treeId).elim "" Tree.scope))
  | none =>
      match if row.nodeId ∈ leafIds then db.getChunk row.nodeId else none with
      | some chunk => if chunk.id ∈ droppedChunkIds then none else some (hitFromChunk chunk "" chunk.sourceId)
      | none => none

def resolveTopicHits (policy : RetrievalPolicy) (db : Db) (index : List IndexRow) (droppedChunkIds : List String)
    (entityId : String) (sinceMs untilMs : Option Int) : Except String (List RetrievalHit) := do
  let entityHits ← lookupEntityInWindow index entityId sinceMs untilMs (some policy.topicLookupLimit)
  let summaryIds := (entityHits.filter fun row => row.nodeKind == "summary").map IndexRow.nodeId
  let leafIds := (entityHits.filter fun row => row.nodeKind != "summary").map IndexRow.nodeId
  .ok (entityHits.filterMap (resolveAmong db droppedChunkIds summaryIds leafIds))

/-- The test that a query with a window puts to the time range of a hit. -/
def retains (sinceMs untilMs : Option Int) (hit : RetrievalHit) : Bool :=
  sinceMs.all (fun start => decide (msToUtc start ≤ hit.timeRangeEndMs * 1000000)) &&
    untilMs.all fun stop => decide (hit.timeRangeStartMs * 1000000 ≤ msToUtc stop)

def RetrievalPolicy.resultLimit (policy : RetrievalPolicy) (limit : Nat) : Nat :=
  if limit = 0 then policy.defaultLimit else min limit policy.maxLimit

/-- The tables that a topic query reads. -/
structure TopicTables where
  db : Db
  index : List IndexRow
  /-- The chunks whose last admission result is dropped (`mem_tree_score`). -/
  droppedChunkIds : List String
  deriving DecidableEq, Repr

def queryTopic {ρ σ : Type*} (embedder : Embedder ρ σ) (policy : RetrievalPolicy) (tables : TopicTables)
    (entityId : String) (sinceMs untilMs : Option Int) (query : Option String) (limit : Nat) :
    Except String QueryResponse := do
  let limit := policy.resultLimit limit
  let entityId := Text.trim entityId
  if entityId = "" then .ok (QueryResponse.new [] 0)
  else
    let found ← resolveTopicHits policy tables.db tables.index tables.droppedChunkIds entityId sinceMs untilMs
    let kept := if sinceMs.isSome || untilMs.isSome then found.filter (retains sinceMs untilMs) else found
    let scored := kept.map fun hit => (hit, embedder.stored hit.nodeId)
    .ok (QueryResponse.new ((orderHits embedder scored query).take limit) scored.length)

/-! ### The rows of an entity -/

/-- The index rows that a query for an entity is about. -/
def topicRows (index : List IndexRow) (entityId : String) : List IndexRow :=
  if Text.trim entityId = "" then [] else index.filter fun row => row.entityId == Text.trim entityId

/-- The most rows that a topic query looks up. -/
def RetrievalPolicy.topicLookupCap (policy : RetrievalPolicy) : Nat := min policy.topicLookupLimit (2 ^ 63 - 1)

/-- The live node of an index row. -/
def resolveRow (db : Db) (droppedChunkIds : List String) (row : IndexRow) : Option RetrievalHit :=
  if row.nodeKind = "summary" then
    ((db.getSummary row.nodeId).filter fun node => !node.deleted).map fun node =>
      hitFromSummary node ((db.getTree node.treeId).elim "" Tree.scope)
  else
    ((db.getChunk row.nodeId).filter fun chunk => decide (chunk.id ∉ droppedChunkIds)).map fun chunk =>
      hitFromChunk chunk "" chunk.sourceId

variable {policy : RetrievalPolicy} {db : Db} {index rows : List IndexRow} {droppedChunkIds : List String}
variable {entityId : String} {sinceMs untilMs : Option Int} {row : IndexRow} {hit : RetrievalHit}

theorem matches_eq : row.matches entityId sinceMs untilMs =
    (row.entityId == entityId && within sinceMs untilMs row.timestampMs) := Bool.and_assoc _ _ _

theorem mem_topicRows : row ∈ topicRows index entityId ↔
    Text.trim entityId ≠ "" ∧ row ∈ index ∧ row.entityId = Text.trim entityId := by
  rw [topicRows]
  by_cases hblank : Text.trim entityId = ""
  · rw [if_pos hblank]
    exact iff_of_false List.not_mem_nil fun h => h.1 hblank
  · rw [if_neg hblank, List.mem_filter, beq_iff_eq]
    exact (and_iff_right hblank).symm

/-! ### The look-up -/

theorem parseKinds_ok_iff {found : List IndexRow} :
    parseKinds found = .ok rows ↔ rows = found ∧ ∀ row ∈ found, row.entityKind ∈ entityKinds := by
  rw [parseKinds]
  cases hfind : found.find? fun row => decide (row.entityKind ∉ entityKinds) with
  | some row =>
      refine iff_of_false (fun h => (nomatch h)) fun h => ?_
      have hbad := List.find?_some hfind
      exact absurd (h.2 row (List.mem_of_find?_eq_some hfind)) (by simpa using hbad)
  | none =>
      have hgood : ∀ row ∈ found, row.entityKind ∈ entityKinds := by
        intro row hrow
        simpa using List.find?_eq_none.mp hfind row hrow
      rw [Except.ok.injEq]
      exact ⟨fun h => ⟨h.symm, hgood⟩, fun h => h.1.symm⟩

theorem newestFirst_perm (rows : List IndexRow) : (newestFirst rows).Perm rows := List.perm_insertionSort _ _

/-- Each row of a look-up finds its own kind of node among what was fetched. -/
theorem resolveAmong_eq (hkeys : (index.map IndexRow.key).Nodup) (hsub : rows ⊆ index)
    (hentity : ∀ row ∈ rows, row.entityId = entityId) (hrow : row ∈ rows) :
    resolveAmong db droppedChunkIds ((rows.filter fun row => row.nodeKind == "summary").map IndexRow.nodeId)
      ((rows.filter fun row => row.nodeKind != "summary").map IndexRow.nodeId) row =
      resolveRow db droppedChunkIds row := by
  have hmem : ∀ p : IndexRow → Bool, row.nodeId ∈ (rows.filter p).map IndexRow.nodeId ↔ p row = true := by
    intro p
    rw [List.mem_map]
    constructor
    · intro h
      obtain ⟨other, hother, hid⟩ := h
      obtain ⟨hin, hp⟩ := List.mem_filter.mp hother
      have hkey : other.key = row.key := Prod.ext ((hentity other hin).trans (hentity row hrow).symm) hid
      rw [← eq_of_pk_eq hkeys (hsub hin) (hsub hrow) hkey]
      exact hp
    · exact fun hp => ⟨row, List.mem_filter.mpr ⟨hrow, hp⟩, rfl⟩
  rw [resolveAmong, resolveRow]
  simp only [hmem, beq_iff_eq, bne_iff_ne]
  by_cases hkind : row.nodeKind = "summary"
  · rw [if_pos hkind, if_pos hkind, if_neg (not_not.mpr hkind)]
    cases db.getSummary row.nodeId with
    | none => rfl
    | some node => cases hdeleted : node.deleted <;> simp [hdeleted]
  · rw [if_neg hkind, if_neg hkind, if_pos hkind]
    cases db.getChunk row.nodeId with
    | none => rfl
    | some chunk => by_cases hdropped : chunk.id ∈ droppedChunkIds <;> simp [hdropped]

/-- The rows of an entity that are themselves in a window. -/
def windowRows (index : List IndexRow) (entityId : String) (sinceMs untilMs : Option Int) : List IndexRow :=
  (topicRows index entityId).filter fun row => within sinceMs untilMs row.timestampMs

theorem filter_matches (hentity : Text.trim entityId ≠ "") :
    index.filter (IndexRow.matches (Text.trim entityId) sinceMs untilMs) = windowRows index entityId sinceMs untilMs := by
  rw [windowRows, topicRows, if_neg hentity, List.filter_filter]
  refine List.filter_congr fun row _ => ?_
  rw [matches_eq, Bool.and_comm]

theorem mem_windowRows : row ∈ windowRows index entityId sinceMs untilMs ↔
    row ∈ topicRows index entityId ∧ within sinceMs untilMs row.timestampMs = true := List.mem_filter

theorem length_windowRows_le (index : List IndexRow) (entityId : String) (sinceMs untilMs : Option Int) :
    (windowRows index entityId sinceMs untilMs).length ≤ (topicRows index entityId).length :=
  List.length_filter_le _ _

/-- A look-up that is not cut short gives the rows of its entity in the window. -/
theorem lookupEntityInWindow_ok_iff (hentity : Text.trim entityId ≠ "")
    (hfew : (topicRows index entityId).length ≤ policy.topicLookupCap) :
    lookupEntityInWindow index (Text.trim entityId) sinceMs untilMs (some policy.topicLookupLimit) = .ok rows ↔
      rows = newestFirst (windowRows index entityId sinceMs untilMs) ∧
      ∀ row ∈ windowRows index entityId sinceMs untilMs, row.entityKind ∈ entityKinds := by
  have hlen := (newestFirst_perm (windowRows index entityId sinceMs untilMs)).length_eq
  have hcap : (windowRows index entityId sinceMs untilMs).length ≤ min policy.topicLookupLimit (2 ^ 63 - 1) :=
    (length_windowRows_le index entityId sinceMs untilMs).trans hfew
  rw [lookupEntityInWindow, filter_matches hentity, Option.getD_some, List.take_of_length_le (hlen.trans_le hcap),
    parseKinds_ok_iff]
  simp only [(newestFirst_perm _).mem_iff]

theorem resolveTopicHits_ok_iff (db : Db) (droppedChunkIds : List String)
    (hkeys : (index.map IndexRow.key).Nodup) (hentity : Text.trim entityId ≠ "")
    (hfew : (topicRows index entityId).length ≤ policy.topicLookupCap) {found : List RetrievalHit} :
    resolveTopicHits policy db index droppedChunkIds (Text.trim entityId) sinceMs untilMs = .ok found ↔
      found = (newestFirst (windowRows index entityId sinceMs untilMs)).filterMap (resolveRow db droppedChunkIds) ∧
      ∀ row ∈ windowRows index entityId sinceMs untilMs, row.entityKind ∈ entityKinds := by
  have hrow : ∀ row ∈ newestFirst (windowRows index entityId sinceMs untilMs),
      row ∈ index ∧ row.entityId = Text.trim entityId := fun row hrow =>
    (mem_topicRows.mp (mem_windowRows.mp ((newestFirst_perm _).mem_iff.mp hrow)).1).2
  have hresolve : ∀ row ∈ newestFirst (windowRows index entityId sinceMs untilMs),
      _ = resolveRow db droppedChunkIds row := fun row hr =>
    resolveAmong_eq hkeys (fun row hr => (hrow row hr).1) (fun row hr => (hrow row hr).2) hr
  rw [resolveTopicHits, bind_ok_iff]
  simp only [lookupEntityInWindow_ok_iff hentity hfew]
  constructor
  · intro h
    obtain ⟨rows, ⟨rfl, hkinds⟩, hfound⟩ := h
    rw [← Except.ok.inj hfound]
    exact ⟨List.filterMap_congr hresolve, hkinds⟩
  · intro h
    obtain ⟨rfl, hkinds⟩ := h
    exact ⟨_, ⟨rfl, hkinds⟩, congrArg Except.ok (List.filterMap_congr hresolve)⟩

/-! ### What a query returns -/

/-- The hits of an entity in a window, before they are ordered. -/
def topicHits (tables : TopicTables) (entityId : String) (sinceMs untilMs : Option Int) : List RetrievalHit :=
  ((windowRows tables.index entityId sinceMs untilMs).filterMap
    (resolveRow tables.db tables.droppedChunkIds)).filter (retains sinceMs untilMs)

theorem retain_eq (found : List RetrievalHit) :
    (if sinceMs.isSome || untilMs.isSome then found.filter (retains sinceMs untilMs) else found) =
      found.filter (retains sinceMs untilMs) := by
  cases sinceMs with
  | some _ => rfl
  | none =>
      cases untilMs with
      | some _ => rfl
      | none => exact (List.filter_eq_self.mpr fun _ _ => rfl).symm

theorem topicRows_of_blank (hblank : Text.trim entityId = "") (index : List IndexRow) : topicRows index entityId = [] :=
  if_pos hblank

theorem orderHits_stored {ρ σ : Type*} (embedder : Embedder ρ σ) (hits : List RetrievalHit) (query : Option String) :
    (orderHits embedder (hits.map fun hit => (hit, embedder.stored hit.nodeId)) query).Perm hits := by
  refine (orderHits_perm _ query).trans (List.Perm.of_eq ?_)
  rw [List.map_map]
  exact List.map_id hits

/-- A query that looks up every row fails on a kind that is not known, and otherwise returns the first of the hits of
its entity, in some order. -/
theorem queryTopic_cases {ρ σ : Type*} (embedder : Embedder ρ σ) (sinceMs untilMs : Option Int)
    (query : Option String) (limit : Nat) {tables : TopicTables} (hkeys : (tables.index.map IndexRow.key).Nodup)
    (hfew : (topicRows tables.index entityId).length ≤ policy.topicLookupCap) :
    ((∀ row ∈ windowRows tables.index entityId sinceMs untilMs, row.entityKind ∈ entityKinds) ∧
      ∃ hits : List RetrievalHit, hits.Perm (topicHits tables entityId sinceMs untilMs) ∧
        queryTopic embedder policy tables entityId sinceMs untilMs query limit =
          .ok (QueryResponse.new (hits.take (policy.resultLimit limit)) hits.length)) ∨
    ((∃ row ∈ windowRows tables.index entityId sinceMs untilMs, row.entityKind ∉ entityKinds) ∧
      ∃ error, queryTopic embedder policy tables entityId sinceMs untilMs query limit =
        .error error) := by
  rw [queryTopic]
  dsimp only
  by_cases hentity : Text.trim entityId = ""
  · have hnone : windowRows tables.index entityId sinceMs untilMs = [] := by rw [windowRows, topicRows_of_blank hentity]; rfl
    rw [if_pos hentity, topicHits, hnone]
    refine Or.inl ⟨fun _ hrow => absurd hrow List.not_mem_nil, [], List.Perm.refl _, ?_⟩
    rw [List.take_nil]
    rfl
  rw [if_neg hentity]
  cases hfound : resolveTopicHits policy tables.db tables.index tables.droppedChunkIds (Text.trim entityId) sinceMs untilMs with
  | ok found =>
      obtain ⟨heq, hkinds⟩ := (resolveTopicHits_ok_iff tables.db tables.droppedChunkIds hkeys hentity hfew).mp hfound
      have hperm : (found.filter (retains sinceMs untilMs)).Perm
          (topicHits tables entityId sinceMs untilMs) := by
        rw [heq]
        exact ((newestFirst_perm _).filterMap _).filter _
      have hordered := orderHits_stored embedder (found.filter (retains sinceMs untilMs)) query
      refine Or.inl ⟨hkinds, _, hordered.trans hperm, ?_⟩
      rw [hordered.length_eq]
      show Except.ok _ = _
      rw [retain_eq, List.length_map]
  | error error =>
      refine Or.inr ⟨?_, error, rfl⟩
      by_contra hnone
      have hkinds : ∀ row ∈ windowRows tables.index entityId sinceMs untilMs, row.entityKind ∈ entityKinds :=
        fun row hrow => by_contra fun hbad => hnone ⟨row, hrow, hbad⟩
      have hok := (resolveTopicHits_ok_iff tables.db tables.droppedChunkIds hkeys hentity hfew).mpr ⟨rfl, hkinds⟩
      rw [hfound] at hok
      cases hok

end TinyCortex.Retrieval

/-! A windowed topic query next to the query without a window. The window goes into the look-up of index rows, so a
node whose time range meets it is lost when the time on its row lies outside. -/

namespace TinyCortex.Retrieval

open Chunks Fallible Score SummaryTree Table

variable {policy : RetrievalPolicy} {tables : TopicTables}
variable {entityId : String} {sinceMs untilMs : Option Int} {row : IndexRow} {hit : RetrievalHit}

/-- All times of the tables can be held. -/
structure Timed (tables : TopicTables) : Prop where
  rows : ∀ row ∈ tables.index, IsUtc row.timestampMs
  chunks : ∀ chunk ∈ tables.db.chunks, IsUtc chunk.timeRangeStartMs ∧ IsUtc chunk.timeRangeEndMs
  summaries : ∀ node ∈ tables.db.summaries, IsUtc node.timeRangeStartMs ∧ IsUtc node.timeRangeEndMs

theorem Timed.ofHit (h : Timed tables) (hhit : resolveRow tables.db tables.droppedChunkIds row = some hit) :
    IsUtc hit.timeRangeStartMs ∧ IsUtc hit.timeRangeEndMs := by
  rw [resolveRow] at hhit
  split_ifs at hhit
  · obtain ⟨node, hnode, rfl⟩ := Option.map_eq_some_iff.mp hhit
    exact h.summaries node (lookup_mem (Option.filter_eq_some_iff.mp hnode).1).1
  · obtain ⟨chunk, hchunk, rfl⟩ := Option.map_eq_some_iff.mp hhit
    exact h.chunks chunk (lookup_mem (Option.filter_eq_some_iff.mp hchunk).1).1

/-- Where the row is in the window, a bound out of range compares like one in range. -/
theorem retains_eq (hrow : IsUtc row.timestampMs) (hstart : IsUtc hit.timeRangeStartMs) (hend : IsUtc hit.timeRangeEndMs)
    (hwithin : within sinceMs untilMs row.timestampMs = true) :
    retains sinceMs untilMs hit = hit.overlaps sinceMs untilMs := by
  rw [within, Bool.and_eq_true] at hwithin
  rw [retains, RetrievalHit.overlaps, overlaps]
  congr 1
  · cases sinceMs with
    | none => rfl
    | some start =>
        have hfrom : start ≤ row.timestampMs := of_decide_eq_true hwithin.1
        refine decide_eq_decide.mpr ?_
        simp only [IsUtc, msToUtc, minUtcMs, maxUtcMs] at *
        split_ifs <;> omega
  · cases untilMs with
    | none => rfl
    | some stop =>
        have hto : row.timestampMs ≤ stop := of_decide_eq_true hwithin.2
        refine decide_eq_decide.mpr ?_
        simp only [IsUtc, msToUtc, minUtcMs, maxUtcMs] at *
        split_ifs <;> omega

theorem topicHits_eq (h : Timed tables) : topicHits tables entityId sinceMs untilMs =
    ((windowRows tables.index entityId sinceMs untilMs).filterMap (resolveRow tables.db tables.droppedChunkIds)).filter
      (RetrievalHit.overlaps sinceMs untilMs) := by
  refine List.filter_congr fun hit hhit => ?_
  obtain ⟨row, hrow, hresolve⟩ := List.mem_filterMap.mp hhit
  obtain ⟨hindex, hwithin⟩ := mem_windowRows.mp hrow
  obtain ⟨hstart, hend⟩ := h.ofHit hresolve
  exact retains_eq (h.rows row (mem_topicRows.mp hindex).2.1) hstart hend hwithin

theorem windowRows_open (index : List IndexRow) (entityId : String) :
    windowRows index entityId none none = topicRows index entityId := List.filter_eq_self.mpr fun _ _ => rfl

theorem topicHits_open (tables : TopicTables) (entityId : String) : topicHits tables entityId none none =
    (topicRows tables.index entityId).filterMap (resolveRow tables.db tables.droppedChunkIds) := by
  rw [topicHits, windowRows_open]
  exact List.filter_eq_self.mpr fun _ _ => rfl

section Query

variable {ρ σ : Type*} {embedder : Embedder ρ σ} {query : Option String} {limit : Nat} {all : QueryResponse}

/-- A query without a window that no limit cuts short. -/
structure TopicComplete (embedder : Embedder ρ σ) (policy : RetrievalPolicy) (tables : TopicTables) (entityId : String)
    (query : Option String) (limit : Nat) (all : QueryResponse) : Prop where
  answers : queryTopic embedder policy tables entityId none none query limit = .ok all
  looked : (topicRows tables.index entityId).length ≤ policy.topicLookupCap
  returned : all.total ≤ policy.resultLimit limit

/-- With a window the query returns the hits that meet the window, of those it returns without one. -/
def Narrows (embedder : Embedder ρ σ) (policy : RetrievalPolicy) (tables : TopicTables) (entityId : String)
    (sinceMs untilMs : Option Int) (query : Option String) (limit : Nat) (all : QueryResponse) : Prop :=
  ∃ windowed, queryTopic embedder policy tables entityId sinceMs untilMs query limit = .ok windowed ∧
    windowed.hits.Perm (all.hits.filter (RetrievalHit.overlaps sinceMs untilMs))

/-- Every live node of the entity whose time range meets the window has its own row in the window. -/
def RowsInStep (tables : TopicTables) (entityId : String) (sinceMs untilMs : Option Int) : Prop :=
  ∀ row ∈ topicRows tables.index entityId, ∀ hit, resolveRow tables.db tables.droppedChunkIds row = some hit →
    hit.overlaps sinceMs untilMs = true → within sinceMs untilMs row.timestampMs = true

theorem TopicComplete.all_hits (h : TopicComplete embedder policy tables entityId query limit all)
    (hkeys : (tables.index.map IndexRow.key).Nodup) :
    (∀ row ∈ topicRows tables.index entityId, row.entityKind ∈ entityKinds) ∧
      (topicHits tables entityId none none).length ≤ policy.resultLimit limit ∧
      all.hits.Perm (topicHits tables entityId none none) := by
  obtain ⟨hkinds, hits, hperm, hanswer⟩ | ⟨-, error, hanswer⟩ :=
    queryTopic_cases embedder none none query limit hkeys h.looked
  · rw [h.answers, Except.ok.injEq] at hanswer
    have htotal := h.returned
    rw [hanswer] at htotal ⊢
    rw [windowRows_open] at hkinds
    refine ⟨hkinds, hperm.length_eq.symm.trans_le htotal, ?_⟩
    show (hits.take _).Perm _
    rw [List.take_of_length_le htotal]
    exact hperm
  · rw [h.answers] at hanswer
    cases hanswer

theorem length_topicHits_le (tables : TopicTables) (entityId : String) (sinceMs untilMs : Option Int) :
    (topicHits tables entityId sinceMs untilMs).length ≤ (topicHits tables entityId none none).length := by
  rw [topicHits_open, topicHits]
  refine (List.length_filter_le _ _).trans ?_
  exact (Prefilter.filterMap_filter_sublist _ _ _).length_le

/-- A query that no limit cuts short narrows with the window exactly when the rows are in step with it. -/
theorem narrows_iff (hkeys : (tables.index.map IndexRow.key).Nodup) (htimed : Timed tables)
    (h : TopicComplete embedder policy tables entityId query limit all) :
    Narrows embedder policy tables entityId sinceMs untilMs query limit all ↔
      RowsInStep tables entityId sinceMs untilMs := by
  obtain ⟨hkinds, hfew, hall⟩ := h.all_hits hkeys
  obtain ⟨-, hits, hperm, hanswer⟩ | ⟨⟨row, hrow, hbad⟩, -⟩ :=
    queryTopic_cases embedder sinceMs untilMs query limit hkeys h.looked
  · have hlen : hits.length ≤ policy.resultLimit limit :=
      (hperm.length_eq.trans_le (length_topicHits_le tables entityId sinceMs untilMs)).trans hfew
    have hfiltered := hall.filter (RetrievalHit.overlaps sinceMs untilMs)
    have hwindowed : Narrows embedder policy tables entityId sinceMs untilMs query limit all ↔
        hits.Perm (all.hits.filter (RetrievalHit.overlaps sinceMs untilMs)) := by
      rw [List.take_of_length_le hlen] at hanswer
      constructor
      · intro h
        obtain ⟨windowed, hwindowed, hsame⟩ := h
        rw [hanswer, Except.ok.injEq] at hwindowed
        rw [← hwindowed] at hsame
        exact hsame
      · exact fun hsame => ⟨_, hanswer, hsame⟩
    rw [hwindowed, hperm.congr_left, hfiltered.congr_right, topicHits_eq htimed, topicHits_open]
    exact Prefilter.pushdown_perm_iff
  · exact absurd (hkinds row (mem_windowRows.mp hrow).1) hbad

end Query

end TinyCortex.Retrieval

/-! The writers of the entity index as one machine: chunks are ingested with their scores (`ingest/pipeline.rs`) or
scored again (`score/mod.rs`), and every node that a seal (`tree/bucket_seal.rs`), a direct ingest
(`tree/direct_ingest.rs`) or a document seal (`tree/document_seal.rs`) commits is indexed in its transaction. The
labels that a summariser gives to a node come with the step; an ingest that the gate turns away takes no step. -/

namespace TinyCortex.Retrieval

open Chunks Score SummaryTree Table

/-- The tree tables with the seals in flight, the index and the chunks whose last score is dropped. -/
structure Corpus where
  world : World
  store : Score.Store
  droppedChunkIds : List String
  deriving DecidableEq, Repr

/-- A chunk of an ingest with its fast score. -/
structure Staged where
  chunk : Chunk
  kept : Bool
  entities : List CanonicalEntity
  deriving DecidableEq, Repr

def Staged.result (staged : Staged) : ScoreResult := ⟨staged.chunk.id, staged.kept, staged.entities⟩

namespace Corpus

def db (c : Corpus) : Db := c.world.db

def tables (c : Corpus) : TopicTables := ⟨c.db, c.store.index, c.droppedChunkIds⟩

def withDb (db : Db) (c : Corpus) : Corpus := { c with world := { c.world with db := db } }

def withChunks (chunks : List Chunk) (c : Corpus) : Corpus := c.withDb { c.db with chunks := chunks }

/-- `persist_score_tx`, with the score row. -/
def persistScore (result : ScoreResult) (timestampMs : Int) (treeId : Option String) (c : Corpus) : Corpus :=
  { c with
    store := Score.persistScore result timestampMs treeId c.store
    droppedChunkIds :=
      if result.kept then c.droppedChunkIds.filter (· ≠ result.chunkId)
      else c.droppedChunkIds.insert result.chunkId }

/-- One chunk of an ingest; lifecycles are read before the upsert. -/
def scheduleOne (prior : List Chunk) (c : Corpus) (staged : Staged) : Except ChunkError Corpus :=
  if Ingest.needsProcessing (getChunkLifecycleStatus staged.chunk.id prior) then do
    let scored := c.persistScore staged.result staged.chunk.timestampMs none
    let chunks ← setChunkLifecycleStatus staged.chunk.id .pendingExtraction scored.db.chunks
    .ok (scored.withChunks chunks)
  else .ok c

def ingest (staged : List Staged) (c : Corpus) : Except ChunkError Corpus :=
  staged.foldlM (scheduleOne c.db.chunks) (c.withChunks (upsertStagedChunks (staged.map Staged.chunk) c.db.chunks).1)

/-- The index rows of a committed node. -/
def indexNode (nodeId treeId : String) (entityIds : List String) (nowMs : Int) (c : Corpus) : Corpus :=
  { c with store := (indexSummaryEntityIds entityIds nodeId nowMs (some treeId) c.store).1 }

inductive Label
  | ingest (staged : List Staged)
  | score (result : ScoreResult) (timestampMs : Int) (treeId : Option String)
  | append (treeId : String) (level : Nat) (itemId : String) (tokenDelta itemTs : Int)
  | snapshot (treeId : String) (level : Nat)
  | commit (run : Nat) (summaryId : String) (tokenCount : Nat) (entityIds : List String) (nowMs : Int)
      (enqueueFollowUps : Bool)
  | direct (input : SummaryIngest) (summaryId : String) (entityIds : List String) (nowMs : Int)
  | sealChildren (doc : DocumentSeal) (level : Nat) (childIds : List String) (minted : Minted)
      (entityIds : List String)
  deriving DecidableEq, Repr

/-- A seal in flight commits and indexes its node, or aborts. -/
def commit (config : TreeConfig) (c : Corpus) (i : Nat) (run : SealRun) (summaryId : String) (tokenCount : Nat)
    (entityIds : List String) (nowMs : Int) (enqueueFollowUps : Bool) : Corpus :=
  let node := sealedNode run.snapshot run.inputs summaryId tokenCount nowMs
  let next := { c with world := c.world.commit config i run summaryId tokenCount nowMs enqueueFollowUps }
  match commitSeal config run.snapshot node nowMs enqueueFollowUps c.db with
  | .ok _ => next.indexNode summaryId run.snapshot.treeId entityIds nowMs
  | .error _ => next

def advance (config : TreeConfig) (c : Corpus) : Label → Corpus
  | .ingest staged =>
      match c.ingest staged with
      | .ok next => next
      | .error _ => c
  | .score result timestampMs treeId => c.persistScore result timestampMs treeId
  | .append treeId level itemId tokenDelta itemTs =>
      { c with world := c.world.append treeId level itemId tokenDelta itemTs }
  | .snapshot treeId level => { c with world := c.world.snapshot treeId level }
  | .commit i summaryId tokenCount entityIds nowMs enqueueFollowUps =>
      match c.world.seals[i]? with
      | some run =>
          if run.phase = SealPhase.summarising then
            c.commit config i run summaryId tokenCount entityIds nowMs enqueueFollowUps
          else c
      | none => c
  | .direct input summaryId entityIds nowMs =>
      match ingestSummary input summaryId nowMs c.db with
      | .ok db => (c.withDb db).indexNode summaryId input.treeId entityIds nowMs
      | .error _ => c
  | .sealChildren doc level childIds minted entityIds =>
      match sealExplicitChildren config doc level childIds minted c.db with
      | .ok (db, node) => (c.withDb db).indexNode node.id doc.treeId entityIds minted.nowMs
      | .error _ => c

def empty (trees : List (String × TreeKind × String)) : Corpus :=
  ⟨World.empty (trees.map fun (id, kind, scope) => Tree.fresh id kind scope) [], ⟨[], []⟩, []⟩

end Corpus

/-- Ingests, scorings, appends and seals in any order, on freshly created trees. -/
def indexing (config : TreeConfig) (trees : List (String × TreeKind × String)) : Machine Corpus Corpus.Label :=
  ⟨Corpus.empty trees, Corpus.advance config⟩

end TinyCortex.Retrieval
