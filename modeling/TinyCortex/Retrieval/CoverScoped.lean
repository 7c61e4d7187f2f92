import TinyCortex.Retrieval.CoverComplete

/-! `cover_window_scoped` (`retrieval/cover.rs`): a cover of the chunks of some sources. Trees are shared among
sources, so a summary of such a cover stands for what is below it only if all of it is asked for. -/

namespace TinyCortex.Retrieval

open Chunks SummaryTree Table Relation Pruning

/-- A store with the tags of its chunk rows. -/
structure TaggedDb where
  db : Db
  tags : String → List String

/-- The chunks that a source scope lets through. -/
def scopedChunks (store : TaggedDb) : Option (List String) → List Chunk
  | none => store.db.chunks
  | some allowed => store.db.chunks.filter (inSourceScope store.tags allowed)

def collectCoverScoped (limits : RetrievalLimits) (store : TaggedDb) (window : Window)
    (sourceScope : Option (List String)) : List RetrievalHit :=
  let restrictSummaries := window.sourceId.isSome || sourceScope.isSome
  let inScope := scopedChunks store sourceScope
  let chunks := scanPages window.query limits.windowChunkPageSize inScope (inScope.length + 1) []
  (chunks.map chunkTreeScope).dedup.flatMap fun source =>
    coverOneSource store.db window source (chunks.filter fun chunk => chunkTreeScope chunk == source)
      restrictSummaries

def coverWindowScoped (limits : RetrievalLimits) (store : TaggedDb) (window : Window)
    (sourceScope : Option (List String)) (limit : Nat) : Except CoverError QueryResponse :=
  if window.untilMs < window.sinceMs then
    .error (.untilPrecedesSince window.untilMs window.sinceMs)
  else
    let hits := (collectCoverScoped limits store window sourceScope).mergeSort bySource
    .ok (.new (hits.take (if limit = 0 then limits.coverDefaultLimit else limit)) hits.length)

/-- A cover without a scope is the plain one. -/
theorem coverWindowScoped_none (limits : RetrievalLimits) (store : TaggedDb) (window : Window) (limit : Nat) :
    coverWindowScoped limits store window none limit = coverWindow limits store.db window limit := by
  have hcollect : collectCoverScoped limits store window none = collectCover limits store.db window := by
    simp only [collectCoverScoped, scopedChunks, Option.isSome_none, Bool.or_false]
    rfl
  rw [coverWindowScoped, coverWindow, hcollect]
  rfl

/-- The chunk is of a source that the query asks for. -/
def allows (store : TaggedDb) (window : Window) (sourceScope : Option (List String)) (chunk : Chunk) : Bool :=
  (window.sourceId.map fun id => chunk.sourceId == id).getD true &&
    (sourceScope.map fun allowed => inSourceScope store.tags allowed chunk).getD true

def allowedChunks (store : TaggedDb) (window : Window) (sourceScope : Option (List String)) : List Chunk :=
  store.db.chunks.filter (allows store window sourceScope)

/-- The ids at the ends of the subtree of a summary. -/
def leaves (db : Db) (s : SummaryNode) : List String := collectDescendantChunks db.summaries (s.level + 1) s

/-- All that is below the summary is allowed. -/
def onlyAllowed (store : TaggedDb) (window : Window) (sourceScope : Option (List String)) (s : SummaryNode) :
    Bool :=
  (leaves store.db s).all fun id => decide (id ∈ (allowedChunks store window sourceScope).map Chunk.id)

/-- The hit is an allowed chunk, or a summary with nothing else below it. -/
def Within (store : TaggedDb) (window : Window) (sourceScope : Option (List String)) (hit : RetrievalHit) : Prop :=
  match hit.nodeKind with
  | .leaf => ∃ chunk ∈ allowedChunks store window sourceScope, chunk.id = hit.nodeId
  | .summary => ∃ s ∈ store.db.summaries, s.id = hit.nodeId ∧ onlyAllowed store window sourceScope s = true

/-- Summaries that form a forest, above chunks with other ids. -/
structure Linked (db : Db) : Prop where
  forest : Forest db.summaries
  apart : ∀ chunk ∈ db.chunks, chunk.id ∉ db.summaries.map SummaryNode.id

section Scope

variable {limits : RetrievalLimits} {store : TaggedDb} {window : Window} {sourceScope : Option (List String)}
  {chunk : Chunk} {source id : String} {s p : SummaryNode}

/-- The chunks that the scan of a scoped cover gets to see. -/
def listedScoped (limits : RetrievalLimits) (store : TaggedDb) (window : Window)
    (sourceScope : Option (List String)) : List Chunk :=
  scanned window.query limits.windowChunkPageSize (scopedChunks store sourceScope)

theorem collectCoverScoped_eq (hlimits : limits.Valid) :
    collectCoverScoped limits store window sourceScope =
      ((listedScoped limits store window sourceScope).map chunkTreeScope).dedup.flatMap fun source =>
        coverOneSource store.db window source
          ((listedScoped limits store window sourceScope).filter fun chunk => chunkTreeScope chunk == source)
          (window.sourceId.isSome || sourceScope.isSome) := by
  rw [collectCoverScoped, scanPages_eq hlimits.2]
  rfl

/-- What matches the window among the chunks of the scope are the allowed chunks that match it. -/
theorem allMatching_scoped : allMatching window.query (scopedChunks store sourceScope) =
    allMatching window.query (allowedChunks store window sourceScope) := by
  have hadmits : ∀ chunk, window.query.admits chunk = true →
      (window.sourceId.map fun id => chunk.sourceId == id).getD true = true := by
    intro chunk h
    simp only [ListChunksQuery.admits, Window.query, Bool.and_eq_true] at h
    exact h.1.1.1.2
  have hfilter : (scopedChunks store sourceScope).filter window.query.admits =
      (allowedChunks store window sourceScope).filter window.query.admits := by
    cases sourceScope with
    | none =>
        rw [scopedChunks, allowedChunks, List.filter_filter]
        refine List.filter_congr fun chunk _ => Bool.eq_iff_iff.mpr ?_
        rw [Bool.and_eq_true]
        refine ⟨fun h => ⟨h, ?_⟩, fun h => h.1⟩
        rw [allows, hadmits chunk h]
        rfl
    | some allowed =>
        rw [scopedChunks, allowedChunks, List.filter_filter, List.filter_filter]
        refine List.filter_congr fun chunk _ => Bool.eq_iff_iff.mpr ?_
        rw [Bool.and_eq_true, Bool.and_eq_true]
        refine and_congr_right fun h => ?_
        rw [allows, hadmits chunk h]
        rfl
  rw [allMatching, hfilter, ← allMatching]

theorem mem_listedScoped (h : chunk ∈ listedScoped limits store window sourceScope) :
    chunk ∈ allowedChunks store window sourceScope ∧ window.query.admits chunk = true := by
  have hmem := scanned_sublist.subset h
  rw [allMatching_scoped] at hmem
  exact mem_allMatching.mp hmem

theorem mem_leaves (h : Linked store.db) (hs : s ∈ store.db.summaries) :
    id ∈ leaves store.db s ↔ Under store.db.summaries s id :=
  mem_collectDescendantChunks h.forest hs (Nat.lt_succ_self _)

theorem onlyAllowed_iff (h : Linked store.db) (hs : s ∈ store.db.summaries) :
    onlyAllowed store window sourceScope s = true ↔
      ∀ id, Under store.db.summaries s id → id ∈ (allowedChunks store window sourceScope).map Chunk.id := by
  rw [onlyAllowed, List.all_eq_true]
  refine forall_congr' fun id => ?_
  rw [mem_leaves h hs, decide_eq_true_iff]

/-- What is below an allowed summary is allowed. -/
theorem onlyAllowed_below (h : Linked store.db) (hs : onlyAllowed store window sourceScope s = true)
    (hlink : Lists store.db.summaries s p) : onlyAllowed store window sourceScope p = true := by
  rw [onlyAllowed_iff h hlink.2.1]
  rw [onlyAllowed_iff h hlink.1] at hs
  exact fun id hunder => hs id (under_of_above (.single hlink) hunder)

/-- The ids that a summary of the cover may have below it. -/
def presentIds (limits : RetrievalLimits) (store : TaggedDb) (window : Window) (sourceScope : Option (List String))
    (source : String) : List String :=
  ((listedScoped limits store window sourceScope).filter fun chunk => chunkTreeScope chunk == source).map Chunk.id

theorem presentIds_allowed (h : id ∈ presentIds limits store window sourceScope source) :
    id ∈ (allowedChunks store window sourceScope).map Chunk.id := by
  obtain ⟨chunk, hchunk, rfl⟩ := List.mem_map.mp h
  exact List.mem_map_of_mem (mem_listedScoped (List.mem_of_mem_filter hchunk)).1

theorem Linked.allowed_apart (h : Linked store.db) (hid : id ∈ (allowedChunks store window sourceScope).map Chunk.id) :
    id ∉ store.db.summaries.map SummaryNode.id := by
  obtain ⟨chunk, hchunk, rfl⟩ := List.mem_map.mp hid
  exact h.apart chunk (List.mem_of_mem_filter hchunk)

theorem Linked.present_apart (h : Linked store.db) :
    ∀ present, some (presentIds limits store window sourceScope source) = some present → ∀ id ∈ present,
      id ∉ (fitting store.db window source).map SummaryNode.id := by
  intro present heq id hid hmem
  obtain rfl := Option.some.inj heq
  obtain ⟨t, ht, rfl⟩ := List.mem_map.mp hmem
  exact h.allowed_apart (presentIds_allowed hid) (List.mem_map_of_mem (fitting_subset ht))

/-- A summary that stands for present chunks has nothing else below it, also among the rows that do not fit into
the window: such a row would be taken for a chunk, and no chunk has its id. -/
theorem onlyAllowed_of_stands (h : Linked store.db)
    (hs : Stands (fitting store.db window source) (some (presentIds limits store window sourceScope source)) s) :
    onlyAllowed store window sourceScope s = true := by
  have hrow := hs.1.1
  have hpresent := (hs.2.2 _ rfl).2
  have hfits : ∀ p, ReflTransGen (Lists store.db.summaries) s p →
      ReflTransGen (Lists (fitting store.db window source)) s p := by
    intro p habove
    induction habove with
    | refl => exact .refl
    | @tail p t _ hlink ih =>
        have hp := mem_of_above ih hrow
        by_cases ht : t.id ∈ (fitting store.db window source).map SummaryNode.id
        · obtain ⟨other, hother, heq⟩ := List.mem_map.mp ht
          obtain rfl := eq_of_pk_eq h.forest.nodup (fitting_subset hother) hlink.2.1 heq
          exact ih.tail ⟨hp, hother, hlink.2.2⟩
        · have hid := presentIds_allowed (hpresent t.id ⟨p, ih, hlink.2.2, ht⟩)
          exact absurd (List.mem_map_of_mem hlink.2.1) (h.allowed_apart hid)
  rw [onlyAllowed_iff h (fitting_subset hrow)]
  intro id hunder
  obtain ⟨p, habove, hchild, hid⟩ := hunder
  refine presentIds_allowed (hpresent id ⟨p, hfits p habove, hchild, fun hmem => hid ?_⟩)
  obtain ⟨t, ht, rfl⟩ := List.mem_map.mp hmem
  exact List.mem_map_of_mem (fitting_subset ht)

theorem within_coverOneSource (h : Linked store.db) {hit : RetrievalHit}
    (hhit : hit ∈ coverOneSource store.db window source
      ((listedScoped limits store window sourceScope).filter fun chunk => chunkTreeScope chunk == source) true) :
    Within store window sourceScope hit := by
  have hforest : Forest (fitting store.db window source) := h.forest.fitting
  rw [coverOneSource_eq hforest, if_pos rfl, List.mem_append, List.mem_map, List.mem_map] at hhit
  rcases hhit with ⟨s, hs, rfl⟩ | ⟨chunk, hchunk, rfl⟩
  · have hstands := (mem_maximalRows hforest h.present_apart).mp hs
    exact ⟨s, fitting_subset hstands.1.1, rfl, onlyAllowed_of_stands h hstands⟩
  · have hlisted := List.mem_of_mem_filter (List.mem_of_mem_filter hchunk)
    exact ⟨chunk, (mem_listedScoped hlisted).1, rfl⟩

/-- Every hit of a restricted cover is within the restriction. -/
theorem within_collectCoverScoped (h : Linked store.db) (hlimits : limits.Valid)
    (hrestricted : (window.sourceId.isSome || sourceScope.isSome) = true) {hit : RetrievalHit}
    (hhit : hit ∈ collectCoverScoped limits store window sourceScope) : Within store window sourceScope hit := by
  rw [collectCoverScoped_eq hlimits, hrestricted] at hhit
  obtain ⟨source, -, hhit⟩ := List.mem_flatMap.mp hhit
  exact within_coverOneSource h hhit

end Scope

end TinyCortex.Retrieval
