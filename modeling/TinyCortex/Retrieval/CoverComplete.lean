import TinyCortex.Retrieval.CoverPlan

/-! When a cover represents every chunk of its window once. A document subtree has several nodes of one
version, of which only the first in the window does not lose, and losers take down the chunks of the whole
subtree; a summary above them may still stand for these. So everything depends on which rows of each
visited tree fit into the window, and which of them lose. -/

namespace TinyCortex.Retrieval

open Chunks SummaryTree Table Relation Pruning

/-- A forest of sealed trees: rows and backlinks agree, levels fall on the way down, envelopes enclose what
is below, and chunks hang under trees of their own scope. Only revisions of one document share chunks. -/
structure Sealed (db : Db) : Prop where
  summaries : (db.summaries.map SummaryNode.id).Nodup
  chunks : (db.chunks.map Chunk.id).Nodup
  trees : (db.trees.map Tree.id).Nodup
  apart : ∀ chunk ∈ db.chunks, chunk.id ∉ db.summaries.map SummaryNode.id
  live : ∀ s ∈ db.summaries, s.deleted = false
  parent : ∀ p ∈ db.summaries, ∀ s ∈ db.summaries, s.parentId = some p.id ↔ s.id ∈ p.childIds
  child : ∀ p ∈ db.summaries, ∀ s ∈ db.summaries, s.id ∈ p.childIds → s.treeId = p.treeId ∧
    s.level < p.level ∧ p.timeRangeStartMs ≤ s.timeRangeStartMs ∧ s.timeRangeEndMs ≤ p.timeRangeEndMs
  leaf : ∀ p ∈ db.summaries, ∀ id ∈ p.childIds, id ∉ db.summaries.map SummaryNode.id →
    ∃ chunk ∈ db.chunks, chunk.id = id ∧ p.timeRangeStartMs ≤ chunk.timestampMs ∧
      chunk.timestampMs ≤ p.timeRangeEndMs ∧
      ∀ tree ∈ db.trees, tree.id = p.treeId → tree.kind = .source → tree.scope = chunkTreeScope chunk
  shared : ∀ p ∈ db.summaries, ∀ q ∈ db.summaries, p.treeId = q.treeId → ∀ id ∈ p.childIds,
    id ∈ q.childIds → id ∉ db.summaries.map SummaryNode.id → p = q ∨ p.docId.isSome ∧ p.docId = q.docId

/-- The summary stands above the chunk. -/
def Covers (db : Db) (s : SummaryNode) (id : String) : Prop :=
  s ∈ db.summaries ∧ Under db.summaries s id

/-- The summary belongs to a version of its document that a newer one supersedes. -/
def Outdated (db : Db) (s : SummaryNode) : Prop :=
  s.docId.isSome ∧ ∃ t ∈ db.summaries, t.treeId = s.treeId ∧ t.docId = s.docId ∧ version s < version t

/-- The chunk belongs to no document version, or to one that is not superseded. -/
def Current (db : Db) (id : String) : Prop :=
  (∀ s ∈ db.summaries, id ∈ s.childIds → s.docId = none) ∨
    ∃ s ∈ db.summaries, id ∈ s.childIds ∧ s.docId.isSome ∧ ¬Outdated db s

/-- The chunk matches the window and its filters. -/
def Window.matching (window : Window) (chunk : Chunk) : Bool :=
  { window.query with excludeDropped := false }.admits chunk

/-- The hit is the chunk, or a summary above it. -/
def Represents (db : Db) (hit : RetrievalHit) (id : String) : Prop :=
  match hit.nodeKind with
  | .leaf => hit.nodeId = id
  | .summary => ∃ s, s.id = hit.nodeId ∧ Covers db s id

/-- The hits represent everything in the window once, and nothing outside it or superseded. -/
structure Represented (db : Db) (window : Window) (hits : List RetrievalHit) : Prop where
  nodup : (hits.map RetrievalHit.nodeId).Nodup
  once : ∀ chunk ∈ db.chunks, window.query.admits chunk = true → Current db chunk.id →
    ∃! hit, hit ∈ hits ∧ Represents db hit chunk.id
  matching : ∀ hit ∈ hits, hit.nodeKind = .summary → ∀ s, s.id = hit.nodeId →
    ∀ chunk ∈ db.chunks, Covers db s chunk.id → window.matching chunk = true
  newest : ∀ hit ∈ hits, hit.nodeKind = .summary → ∀ s ∈ db.summaries, s.id = hit.nodeId →
    ¬Outdated db s
  current : ∀ hit ∈ hits, hit.nodeKind = .leaf → Current db hit.nodeId

/-- The chunks that the scan of the window gets to see. -/
def listed (limits : RetrievalLimits) (db : Db) (window : Window) : List Chunk :=
  scanned window.query limits.windowChunkPageSize db.chunks

/-- The rows of the source tree of a scope that fit into the window. -/
def fitting (db : Db) (window : Window) (source : String) : List SummaryNode :=
  ((getTreeByScope db .source source).map fun tree =>
    listSummariesInWindow db tree.id window.sinceMs window.untilMs).getD []

/-- The ids of the listed chunks of a scope, where the cover asks for these only. -/
def present (limits : RetrievalLimits) (db : Db) (window : Window) (source : String) :
    Option (List String) :=
  if window.sourceId.isSome then
    some (((listed limits db window).filter fun chunk => chunkTreeScope chunk == source).map Chunk.id)
  else none

/-- The cover looks at the tree of the scope. -/
def Visits (limits : RetrievalLimits) (db : Db) (window : Window) (source : String) : Prop :=
  ∃ chunk ∈ listed limits db window, chunkTreeScope chunk = source

/-- The row loses in a tree that the cover looks at. -/
def Lost (limits : RetrievalLimits) (db : Db) (window : Window) (s : SummaryNode) : Prop :=
  ∃ source, Visits limits db window source ∧ Loses (fitting db window source) s

/-- The row stands for what is under it in a tree that the cover looks at. -/
def Stand (limits : RetrievalLimits) (db : Db) (window : Window) (s : SummaryNode) : Prop :=
  ∃ source, Visits limits db window source ∧
    Stands (fitting db window source) (present limits db window source) s

/-- The window is harmless for the forest: a current chunk is listed and under no loser, or under exactly
one row that stands; rows that stand are of the newest version and over the asked kind only; and a listed
chunk of superseded versions is under a row that loses or stands. -/
structure Harmless (limits : RetrievalLimits) (db : Db) (window : Window) : Prop where
  whole : ∀ chunk ∈ db.chunks, window.query.admits chunk = true → Current db chunk.id →
    (chunk ∈ listed limits db window ∧ ∀ l, Lost limits db window l → ¬Covers db l chunk.id) ∨
      ∃! s, Stand limits db window s ∧ Covers db s chunk.id
  kinds : ∀ kind, window.sourceKind = some kind → ∀ s, Stand limits db window s →
    ∀ chunk ∈ db.chunks, Covers db s chunk.id → chunk.sourceKind = kind
  newest : ∀ s, Stand limits db window s → ¬Outdated db s
  stale : ∀ chunk ∈ listed limits db window, ¬Current db chunk.id →
    ∃ s, (Lost limits db window s ∨ Stand limits db window s) ∧ Covers db s chunk.id

section Rows

variable {limits : RetrievalLimits} {db : Db} {window : Window} {source id : String}
  {s p : SummaryNode} {chunk : Chunk}

theorem mem_fitting : s ∈ fitting db window source ↔ s ∈ db.summaries ∧ s.deleted = false ∧
    window.sinceMs ≤ s.timeRangeStartMs ∧ s.timeRangeEndMs ≤ window.untilMs ∧
    ∃ tree, getTreeByScope db .source source = some tree ∧ s.treeId = tree.id := by
  unfold fitting
  cases getTreeByScope db .source source with
  | none => simp
  | some tree =>
      rw [Option.map_some, Option.getD_some, listSummariesInWindow, List.mem_mergeSort,
        List.mem_filter]
      simp only [Bool.and_eq_true, beq_iff_eq, Bool.not_eq_true', decide_eq_true_iff,
        Option.some.injEq, exists_eq_left']
      tauto

theorem fitting_subset (h : s ∈ fitting db window source) : s ∈ db.summaries := (mem_fitting.mp h).1

theorem nodup_fitting (h : (db.summaries.map SummaryNode.id).Nodup) :
    ((fitting db window source).map SummaryNode.id).Nodup := by
  unfold fitting
  cases getTreeByScope db .source source with
  | none => exact List.nodup_nil
  | some tree =>
      rw [Option.map_some, Option.getD_some, listSummariesInWindow]
      refine ((List.mergeSort_perm _ _).map _).nodup_iff.mpr ?_
      exact h.sublist (List.filter_sublist.map _)

/-- The rows of a tree that fit into a window are a forest when all rows are. -/
theorem Forest.fitting (h : Forest db.summaries) : Forest (fitting db window source) where
  nodup := nodup_fitting h.nodup
  falls := fun p s hlink =>
    h.falls p s ⟨fitting_subset hlink.1, fitting_subset hlink.2.1, hlink.2.2⟩
  parent := fun p hp s hs => h.parent p (fitting_subset hp) s (fitting_subset hs)

theorem Sealed.rows (h : Sealed db) : Forest db.summaries where
  nodup := h.summaries
  falls := fun p s hlink => (h.child p hlink.1 s hlink.2.1 hlink.2.2).2.1
  parent := h.parent

theorem Sealed.forest (h : Sealed db) : Forest (Retrieval.fitting db window source) := h.rows.fitting

/-- What is below a row of the window is in the window. -/
theorem Sealed.fitting_child (h : Sealed db) (hp : p ∈ fitting db window source)
    (hlink : Lists db.summaries p s) : s ∈ fitting db window source := by
  obtain ⟨hmem, -, hsince, huntil, tree, htree, hid⟩ := mem_fitting.mp hp
  obtain ⟨htreeId, -, hstart, hend⟩ := h.child p hmem s hlink.2.1 hlink.2.2
  exact mem_fitting.mpr ⟨hlink.2.1, h.live s hlink.2.1, hsince.trans hstart, hend.trans huntil, tree,
    htree, htreeId.trans hid⟩

theorem Sealed.above_fitting (h : Sealed db) (hs : s ∈ fitting db window source)
    (habove : ReflTransGen (Lists db.summaries) s p) :
    p ∈ fitting db window source ∧ ReflTransGen (Lists (fitting db window source)) s p := by
  induction habove with
  | refl => exact ⟨hs, .refl⟩
  | tail _ hlink ih =>
      have hmem := h.fitting_child ih.1 hlink
      exact ⟨hmem, ih.2.tail ⟨ih.1, hmem, hlink.2.2⟩⟩

theorem Sealed.under_fitting (h : Sealed db) (hs : s ∈ fitting db window source) :
    Under (fitting db window source) s id ↔ Covers db s id := by
  constructor
  · rintro ⟨p, habove, hchild, hid⟩
    have hp := mem_of_above habove hs
    have hlinks : ReflTransGen (Lists db.summaries) s p := by
      refine ReflTransGen.mono ?_ _ _ habove
      exact fun a b hlink => ⟨fitting_subset hlink.1, fitting_subset hlink.2.1, hlink.2.2⟩
    refine ⟨fitting_subset hs, p, hlinks, hchild, fun hmem => hid ?_⟩
    obtain ⟨t, ht, rfl⟩ := List.mem_map.mp hmem
    exact List.mem_map_of_mem (h.fitting_child hp ⟨fitting_subset hp, ht, hchild⟩)
  · rintro ⟨-, p, habove, hchild, hid⟩
    refine ⟨p, (h.above_fitting hs habove).2, hchild, fun hmem => hid ?_⟩
    obtain ⟨t, ht, rfl⟩ := List.mem_map.mp hmem
    exact List.mem_map_of_mem (fitting_subset ht)

/-- The chunks under a row of the window are in the window, and of the scope of the tree. -/
theorem Sealed.covered (h : Sealed db) (hs : s ∈ fitting db window source) (hchunk : chunk ∈ db.chunks)
    (hcovers : Covers db s chunk.id) : window.sinceMs ≤ chunk.timestampMs ∧
      chunk.timestampMs ≤ window.untilMs ∧ chunkTreeScope chunk = source := by
  obtain ⟨-, p, habove, hchild, hid⟩ := hcovers
  obtain ⟨hmem, -, hsince, huntil, tree, htree, htreeId⟩ :=
    mem_fitting.mp (h.above_fitting hs habove).1
  obtain ⟨other, hother, heq, hstart, hend, hscope⟩ := h.leaf p hmem chunk.id hchild hid
  obtain rfl := eq_of_pk_eq h.chunks hother hchunk heq
  obtain ⟨htreeMem, hkind, hsource⟩ := getTreeByScope_some htree
  exact ⟨hsince.trans hstart, hend.trans huntil,
    (hscope tree htreeMem htreeId.symm hkind).symm.trans hsource⟩

theorem mem_listed (h : chunk ∈ listed limits db window) :
    chunk ∈ db.chunks ∧ window.query.admits chunk = true :=
  mem_allMatching.mp (scanned_sublist.subset h)

theorem Sealed.present_apart (h : Sealed db) {ids : List String}
    (hids : present limits db window source = some ids) :
    ∀ id ∈ ids, id ∉ (fitting db window source).map SummaryNode.id := by
  intro id hid hmem
  unfold present at hids
  split_ifs at hids
  obtain rfl := Option.some.inj hids
  obtain ⟨chunk, hchunk, rfl⟩ := List.mem_map.mp hid
  obtain ⟨t, ht, heq⟩ := List.mem_map.mp hmem
  refine h.apart chunk (mem_listed (List.mem_of_mem_filter hchunk)).1 ?_
  exact heq ▸ List.mem_map_of_mem (fitting_subset ht)

/-- A row is in the tree of one scope. -/
theorem Sealed.source_unique (h : Sealed db) {other : String} (hs : s ∈ fitting db window source)
    (hs' : s ∈ fitting db window other) : source = other := by
  obtain ⟨-, -, -, -, tree, htree, hid⟩ := mem_fitting.mp hs
  obtain ⟨-, -, -, -, tree', htree', hid'⟩ := mem_fitting.mp hs'
  obtain ⟨hmem, -, rfl⟩ := getTreeByScope_some htree
  obtain ⟨hmem', -, rfl⟩ := getTreeByScope_some htree'
  rw [eq_of_pk_eq h.trees hmem hmem' (hid.symm.trans hid')]

end Rows

section Hits

variable {limits : RetrievalLimits} {db : Db} {window : Window} {source : String}
  {s : SummaryNode} {chunk : Chunk} {hit : RetrievalHit}

/-- A chunk of the scope that the plan leaves raw. -/
def Raw (limits : RetrievalLimits) (db : Db) (window : Window) (source : String) (chunk : Chunk) : Prop :=
  chunk ∈ listed limits db window ∧ chunkTreeScope chunk = source ∧
    (∀ l, Loses (fitting db window source) l → ¬Under (fitting db window source) l chunk.id) ∧
    ∀ s, Stands (fitting db window source) (present limits db window source) s →
      ¬Under (fitting db window source) s chunk.id

/-- The hits of one scope, as its cover lists them. -/
def sourceHits (limits : RetrievalLimits) (db : Db) (window : Window) (source : String) :
    List RetrievalHit :=
  coverOneSource db window source
    ((listed limits db window).filter fun chunk => chunkTreeScope chunk == source)
    window.sourceId.isSome

theorem collectCover_eq (hlimits : limits.Valid) :
    collectCover limits db window =
      ((listed limits db window).map chunkTreeScope).dedup.flatMap (sourceHits limits db window) := by
  rw [collectCover, scanPages_eq hlimits.2]
  rfl

/-- The tree id in the raw hits of a scope. -/
def sourceTreeId (db : Db) (source : String) : String :=
  ((getTreeByScope db .source source).map Tree.id).getD ""

/-- The rows that stand, then the raw chunks. -/
theorem coverOneSource_eq (h : Forest (fitting db window source)) (chunks : List Chunk) (exactSource : Bool) :
    coverOneSource db window source chunks exactSource =
      (maximalRows (keptRows (fitting db window source))
          (if exactSource then some (chunks.map Chunk.id) else none)).map (fun s => hitFromSummary s source) ++
        (chunks.filter fun chunk =>
            chunk.id ∉ (planCover (keptRows (fitting db window source))
                (if exactSource then some (chunks.map Chunk.id) else none)).coveredChunkIds &&
              chunk.id ∉ (filterSupersededDocVersions (fitting db window source)).2).map
          fun chunk => hitFromChunk chunk (sourceTreeId db source) source := by
  rw [coverOneSource]
  refine congrArg₂ _ ?_ rfl
  change List.filterMap _ ((maximalRows (keptRows (fitting db window source))
    (if exactSource then some (chunks.map Chunk.id) else none)).map SummaryNode.id) = _
  rw [List.filterMap_map]
  refine List.filterMap_eq_map_iff_forall_eq_some.mpr fun s hs => ?_
  have hkept : s ∈ keptRows (fitting db window source) := List.mem_of_mem_filter hs
  change ((lookup SummaryNode.id s.id (keptRows (fitting db window source))).map fun node =>
    hitFromSummary node source) = _
  rw [lookup_of_mem (forest_keptRows h).nodup hkept]
  rfl

theorem sourceHits_eq (h : Sealed db) :
    sourceHits limits db window source =
      (maximalRows (keptRows (fitting db window source)) (present limits db window source)).map
          (fun s => hitFromSummary s source) ++
        (((listed limits db window).filter fun chunk => chunkTreeScope chunk == source).filter
          fun chunk =>
            chunk.id ∉ (planCover (keptRows (fitting db window source))
                (present limits db window source)).coveredChunkIds &&
              chunk.id ∉ (filterSupersededDocVersions (fitting db window source)).2).map
          fun chunk => hitFromChunk chunk (sourceTreeId db source) source :=
  coverOneSource_eq h.forest _ _

theorem mem_sourceHits (h : Sealed db) : hit ∈ sourceHits limits db window source ↔
    (∃ s, Stands (fitting db window source) (present limits db window source) s ∧
      hitFromSummary s source = hit) ∨
    ∃ chunk, Raw limits db window source chunk ∧
      hitFromChunk chunk (sourceTreeId db source) source = hit := by
  rw [sourceHits_eq h, List.mem_append, List.mem_map, List.mem_map]
  have hpresent : ∀ ids, present limits db window source = some ids → ∀ id ∈ ids,
      id ∉ (fitting db window source).map SummaryNode.id := fun _ hids => h.present_apart hids
  refine or_congr (exists_congr fun s => and_congr_left fun _ => mem_maximalRows h.forest hpresent) ?_
  refine exists_congr fun chunk => and_congr_left fun _ => ?_
  rw [List.mem_filter, List.mem_filter, Bool.and_eq_true, beq_iff_eq, decide_eq_true_iff,
    decide_eq_true_iff, Raw, and_assoc]
  refine and_congr_right fun hchunk => and_congr_right fun _ => raw_iff h.forest hpresent fun hmem => ?_
  obtain ⟨t, ht, heq⟩ := List.mem_map.mp hmem
  exact h.apart chunk (mem_listed hchunk).1 (heq ▸ List.mem_map_of_mem (fitting_subset ht))

theorem nodup_listed (h : Sealed db) : ((listed limits db window).map Chunk.id).Nodup := by
  have hsub : ((listed limits db window).map Chunk.id).Sublist
      ((allMatching window.query db.chunks).map Chunk.id) := scanned_sublist.map _
  refine List.Nodup.sublist hsub (((List.mergeSort_perm _ _).map _).nodup_iff.mpr ?_)
  exact h.chunks.sublist (List.filter_sublist.map _)

/-- A hit of a scope carries the id of a row of its tree, or of a chunk of the scope. -/
theorem nodeId_sourceHits (h : Sealed db) (hhit : hit ∈ sourceHits limits db window source) :
    (∃ s ∈ fitting db window source, s.id = hit.nodeId) ∨
      ∃ chunk ∈ db.chunks, chunkTreeScope chunk = source ∧ chunk.id = hit.nodeId := by
  rcases (mem_sourceHits h).mp hhit with ⟨s, hs, rfl⟩ | ⟨chunk, hraw, rfl⟩
  · exact Or.inl ⟨s, hs.1.1, rfl⟩
  · exact Or.inr ⟨chunk, (mem_listed hraw.1).1, hraw.2.1, rfl⟩

theorem nodup_sourceHits (h : Sealed db) :
    ((sourceHits limits db window source).map RetrievalHit.nodeId).Nodup := by
  rw [sourceHits_eq h, List.map_append, List.map_map, List.map_map, List.nodup_append]
  refine ⟨?_, ?_, ?_⟩
  · have hkept : Forest (keptRows (fitting db window source)) := forest_keptRows h.forest
    exact hkept.nodup.sublist (List.filter_sublist.map SummaryNode.id)
  · have hlisted : ((listed limits db window).map Chunk.id).Nodup := nodup_listed h
    exact hlisted.sublist ((List.filter_sublist.trans List.filter_sublist).map Chunk.id)
  · rintro id hid _ hc rfl
    obtain ⟨s, hs, rfl⟩ := List.mem_map.mp hid
    obtain ⟨chunk, hc, heq⟩ := List.mem_map.mp hc
    have hchunk := List.mem_of_mem_filter (List.mem_of_mem_filter hc)
    have hrow : s ∈ db.summaries :=
      fitting_subset ((keptRows_sublist _).subset (List.mem_of_mem_filter hs))
    have hid : chunk.id = s.id := heq
    exact h.apart chunk (mem_listed hchunk).1 (hid ▸ List.mem_map_of_mem hrow)

/-- The hits of all scopes have distinct ids: chunks and trees are of one scope. -/
theorem nodup_collectCover (h : Sealed db) (hlimits : limits.Valid) :
    ((collectCover limits db window).map RetrievalHit.nodeId).Nodup := by
  rw [collectCover_eq hlimits, List.map_flatMap, List.nodup_flatMap]
  refine ⟨fun source _ => nodup_sourceHits h, (List.nodup_dedup _).imp ?_⟩
  rintro source other hne id hid hid'
  obtain ⟨hit, hhit, rfl⟩ := List.mem_map.mp hid
  obtain ⟨hit', hhit', heq⟩ := List.mem_map.mp hid'
  rcases nodeId_sourceHits h hhit with ⟨s, hs, hsid⟩ | ⟨chunk, hchunk, hscope, hcid⟩
  · rcases nodeId_sourceHits h hhit' with ⟨t, ht, htid⟩ | ⟨chunk, hchunk, -, hcid⟩
    · obtain rfl := eq_of_pk_eq h.summaries (fitting_subset hs) (fitting_subset ht)
        (hsid.trans (heq.symm.trans htid.symm))
      exact hne (h.source_unique hs ht)
    · refine h.apart chunk hchunk ?_
      rw [hcid, heq, ← hsid]
      exact List.mem_map_of_mem (fitting_subset hs)
  · rcases nodeId_sourceHits h hhit' with ⟨t, ht, htid⟩ | ⟨chunk', hchunk', hscope', hcid'⟩
    · refine h.apart chunk hchunk ?_
      rw [hcid, ← heq, ← htid]
      exact List.mem_map_of_mem (fitting_subset ht)
    · obtain rfl := eq_of_pk_eq h.chunks hchunk hchunk' (hcid.trans (heq.symm.trans hcid'.symm))
      exact hne (hscope.symm.trans hscope')

/-- A chunk is left raw when it is listed, and under no row that loses or stands. -/
theorem raw_iff_lost (h : Sealed db) : (∃ source, Raw limits db window source chunk) ↔
    chunk ∈ listed limits db window ∧
      (∀ l, Lost limits db window l → ¬Covers db l chunk.id) ∧
        ∀ s, Stand limits db window s → ¬Covers db s chunk.id := by
  constructor
  · rintro ⟨source, hlisted, hscope, hlost, hstand⟩
    have hchunk := (mem_listed hlisted).1
    refine ⟨hlisted, ?_, ?_⟩
    · rintro l ⟨other, -, hl⟩ hcovers
      obtain rfl := hscope.symm.trans (h.covered hl.1 hchunk hcovers).2.2
      exact hlost l hl ((h.under_fitting hl.1).mpr hcovers)
    · rintro s ⟨other, -, hs⟩ hcovers
      obtain rfl := hscope.symm.trans (h.covered hs.1.1 hchunk hcovers).2.2
      exact hstand s hs ((h.under_fitting hs.1.1).mpr hcovers)
  · rintro ⟨hlisted, hlost, hstand⟩
    have hvisits : Visits limits db window (chunkTreeScope chunk) := ⟨chunk, hlisted, rfl⟩
    refine ⟨chunkTreeScope chunk, hlisted, rfl, fun l hl hunder => ?_, fun s hs hunder => ?_⟩
    · exact hlost l ⟨_, hvisits, hl⟩ ((h.under_fitting hl.1).mp hunder)
    · exact hstand s ⟨_, hvisits, hs⟩ ((h.under_fitting hs.1.1).mp hunder)

theorem mem_collectCover (h : Sealed db) (hlimits : limits.Valid) :
    hit ∈ collectCover limits db window ↔
      (∃ source s, Visits limits db window source ∧
        Stands (fitting db window source) (present limits db window source) s ∧
        hitFromSummary s source = hit) ∨
      ∃ source chunk, Raw limits db window source chunk ∧
        hitFromChunk chunk (sourceTreeId db source) source = hit := by
  rw [collectCover_eq hlimits, List.mem_flatMap]
  have hvisits : ∀ source, source ∈ ((listed limits db window).map chunkTreeScope).dedup ↔
      Visits limits db window source := fun source => by rw [List.mem_dedup, List.mem_map]; rfl
  constructor
  · rintro ⟨source, hsource, hhit⟩
    rcases (mem_sourceHits h).mp hhit with ⟨s, hs, heq⟩ | ⟨chunk, hraw, heq⟩
    · exact Or.inl ⟨source, s, (hvisits source).mp hsource, hs, heq⟩
    · exact Or.inr ⟨source, chunk, hraw, heq⟩
  · rintro (⟨source, s, hsource, hs, heq⟩ | ⟨source, chunk, hraw, heq⟩)
    · exact ⟨source, (hvisits source).mpr hsource, (mem_sourceHits h).mpr (Or.inl ⟨s, hs, heq⟩)⟩
    · refine ⟨source, (hvisits source).mpr ⟨chunk, hraw.1, hraw.2.1⟩, ?_⟩
      exact (mem_sourceHits h).mpr (Or.inr ⟨chunk, hraw, heq⟩)

/-- The summaries of the cover are the rows that stand. -/
theorem summary_hit_iff (h : Sealed db) (hlimits : limits.Valid) (hs : s ∈ db.summaries) :
    (∃ hit ∈ collectCover limits db window, hit.nodeKind = .summary ∧ hit.nodeId = s.id) ↔
      Stand limits db window s := by
  constructor
  · rintro ⟨hit, hhit, hkind, hid⟩
    rcases (mem_collectCover h hlimits).mp hhit with ⟨source, t, hvisits, ht, rfl⟩ | ⟨_, _, _, rfl⟩
    · obtain rfl := eq_of_pk_eq h.summaries (fitting_subset ht.1.1) hs hid
      exact ⟨source, hvisits, ht⟩
    · cases hkind
  · rintro ⟨source, hvisits, ht⟩
    exact ⟨_, (mem_collectCover h hlimits).mpr (Or.inl ⟨source, s, hvisits, ht, rfl⟩), rfl, rfl⟩

/-- The leaves of the cover are the raw chunks. -/
theorem leaf_hit_iff (h : Sealed db) (hlimits : limits.Valid) (hchunk : chunk ∈ db.chunks) :
    (∃ hit ∈ collectCover limits db window, hit.nodeKind = .leaf ∧ hit.nodeId = chunk.id) ↔
      ∃ source, Raw limits db window source chunk := by
  constructor
  · rintro ⟨hit, hhit, hkind, hid⟩
    rcases (mem_collectCover h hlimits).mp hhit with ⟨_, _, _, _, rfl⟩ | ⟨source, other, hraw, rfl⟩
    · cases hkind
    · obtain rfl := eq_of_pk_eq h.chunks (mem_listed hraw.1).1 hchunk hid
      exact ⟨source, hraw⟩
  · rintro ⟨source, hraw⟩
    exact ⟨_, (mem_collectCover h hlimits).mpr (Or.inr ⟨source, chunk, hraw, rfl⟩), rfl, rfl⟩

/-- At most one row stands above a chunk that is under no loser. -/
theorem stand_unique (h : Sealed db) (hchunk : chunk ∈ db.chunks)
    (hno : ∀ l, Lost limits db window l → ¬Covers db l chunk.id) {t : SummaryNode}
    (hs : Stand limits db window s) (ht : Stand limits db window t) (hsc : Covers db s chunk.id)
    (htc : Covers db t chunk.id) : s = t := by
  obtain ⟨source, hvisits, hs⟩ := hs
  obtain ⟨other, -, ht⟩ := ht
  obtain rfl : source = other :=
    (h.covered hs.1.1 hchunk hsc).2.2.symm.trans (h.covered ht.1.1 hchunk htc).2.2
  refine exposed_unique h.forest ?_ ?_ hs.1 ht.1 ((h.under_fitting hs.1.1).mpr hsc)
    ((h.under_fitting ht.1.1).mpr htc)
  · intro p hp q hq hpid hqid
    obtain ⟨hpmem, -, -, -, tree, htree, hptree⟩ := mem_fitting.mp hp
    obtain ⟨hqmem, -, -, -, tree', htree', hqtree⟩ := mem_fitting.mp hq
    obtain rfl := Option.some.inj (htree.symm.trans htree')
    exact h.shared p hpmem q hqmem (hptree.trans hqtree.symm) chunk.id hpid hqid
      (h.apart chunk hchunk)
  · intro l hl hunder
    exact hno l ⟨source, hvisits, hl⟩ ((h.under_fitting hl.1).mp hunder)

/-- Exactly one hit represents a chunk when it is listed and under no loser, or under exactly one row that
stands. -/
theorem once_iff (h : Sealed db) (hlimits : limits.Valid) (hchunk : chunk ∈ db.chunks) :
    (∃! hit, hit ∈ collectCover limits db window ∧ Represents db hit chunk.id) ↔
      (chunk ∈ listed limits db window ∧ ∀ l, Lost limits db window l → ¬Covers db l chunk.id) ∨
        ∃! s, Stand limits db window s ∧ Covers db s chunk.id := by
  have hnodup : ((collectCover limits db window).map RetrievalHit.nodeId).Nodup :=
    nodup_collectCover h hlimits
  have hstand : ∀ hit ∈ collectCover limits db window, Represents db hit chunk.id →
      (hit.nodeId = chunk.id ∧ ∃ source, Raw limits db window source chunk) ∨
        ∃ s, s.id = hit.nodeId ∧ Stand limits db window s ∧ Covers db s chunk.id := by
    intro hit hhit hrep
    unfold Represents at hrep
    cases hkind : hit.nodeKind with
    | leaf =>
        rw [hkind] at hrep
        exact Or.inl ⟨hrep, (leaf_hit_iff h hlimits hchunk).mp ⟨hit, hhit, hkind, hrep⟩⟩
    | summary =>
        rw [hkind] at hrep
        obtain ⟨s, hid, hcovers⟩ := hrep
        refine Or.inr ⟨s, hid, (summary_hit_iff h hlimits hcovers.1).mp ?_, hcovers⟩
        exact ⟨hit, hhit, hkind, hid.symm⟩
  have hemit : ∀ s, Stand limits db window s → Covers db s chunk.id →
      ∃ hit ∈ collectCover limits db window, hit.nodeId = s.id ∧ Represents db hit chunk.id := by
    intro s hs hcovers
    obtain ⟨hit, hhit, hkind, hid⟩ := (summary_hit_iff h hlimits hcovers.1).mpr hs
    refine ⟨hit, hhit, hid, ?_⟩
    rw [Represents, hkind]
    exact ⟨s, hid.symm, hcovers⟩
  have hraw : ∀ source, Raw limits db window source chunk →
      ∃ hit ∈ collectCover limits db window, hit.nodeId = chunk.id ∧ Represents db hit chunk.id := by
    intro source hraw
    obtain ⟨hit, hhit, hkind, hid⟩ := (leaf_hit_iff h hlimits hchunk).mpr ⟨source, hraw⟩
    refine ⟨hit, hhit, hid, ?_⟩
    rw [Represents, hkind]
    exact hid
  have hunique : (∃! s, Stand limits db window s ∧ Covers db s chunk.id) →
      ∃! hit, hit ∈ collectCover limits db window ∧ Represents db hit chunk.id := by
    rintro ⟨s, ⟨hs, hcovers⟩, honly⟩
    obtain ⟨hit, hhit, hid, hrep⟩ := hemit s hs hcovers
    refine ⟨hit, ⟨hhit, hrep⟩, ?_⟩
    rintro other ⟨hother, hrep'⟩
    rcases hstand other hother hrep' with ⟨-, source, hraw⟩ | ⟨t, htid, ht, htc⟩
    · exact absurd hcovers (((raw_iff_lost h).mp ⟨source, hraw⟩).2.2 s hs)
    · rw [honly t ⟨ht, htc⟩] at htid
      exact eq_of_pk_eq hnodup hother hhit (htid.symm.trans hid.symm)
  constructor
  · rintro ⟨hit, ⟨hhit, hrep⟩, honly⟩
    rcases hstand hit hhit hrep with ⟨-, hraw⟩ | ⟨s, hsid, hs, hcovers⟩
    · obtain ⟨hlisted, hlost, -⟩ := (raw_iff_lost h).mp hraw
      exact Or.inl ⟨hlisted, hlost⟩
    · refine Or.inr ⟨s, ⟨hs, hcovers⟩, ?_⟩
      rintro t ⟨ht, htc⟩
      obtain ⟨other, hother, hid, hrep'⟩ := hemit t ht htc
      rw [honly other ⟨hother, hrep'⟩] at hid
      exact eq_of_pk_eq h.summaries htc.1 hcovers.1 (hid.symm.trans hsid.symm)
  · rintro (⟨hlisted, hlost⟩ | hone)
    · by_cases hsome : ∃ s, Stand limits db window s ∧ Covers db s chunk.id
      · obtain ⟨s, hs, hcovers⟩ := hsome
        refine hunique ⟨s, ⟨hs, hcovers⟩, ?_⟩
        exact fun t ht => stand_unique h hchunk hlost ht.1 hs ht.2 hcovers
      · have hnone : ∀ s, Stand limits db window s → ¬Covers db s chunk.id :=
          fun s hs hcovers => hsome ⟨s, hs, hcovers⟩
        obtain ⟨source, hsource⟩ := (raw_iff_lost h).mpr ⟨hlisted, hlost, hnone⟩
        obtain ⟨hit, hhit, hid, hrep⟩ := hraw source hsource
        refine ⟨hit, ⟨hhit, hrep⟩, ?_⟩
        rintro other ⟨hother, hrep'⟩
        rcases hstand other hother hrep' with ⟨hid', -⟩ | ⟨t, -, ht, htc⟩
        · exact eq_of_pk_eq hnodup hother hhit (hid'.trans hid.symm)
        · exact absurd htc (hnone t ht)
    · exact hunique hone

end Hits

section Main

variable {limits : RetrievalLimits} {db : Db} {window : Window} {chunk : Chunk} {s : SummaryNode}

/-- The chunks under a row that stands are in the window, so that only the filters are left to match. -/
theorem matching_iff (h : Sealed db) (hs : Stand limits db window s) (hchunk : chunk ∈ db.chunks)
    (hcovers : Covers db s chunk.id) : window.matching chunk = true ↔
      ∀ kind, window.sourceKind = some kind → chunk.sourceKind = kind := by
  obtain ⟨source, -, hs⟩ := hs
  obtain ⟨hsince, huntil, hscope⟩ := h.covered hs.1.1 hchunk hcovers
  have hid : ∀ id, window.sourceId = some id → chunk.sourceId = id := by
    intro id hsome
    have hpresent : present limits db window source = some
        (((listed limits db window).filter fun chunk => chunkTreeScope chunk == source).map
          Chunk.id) := by
      rw [present, if_pos (by rw [hsome]; rfl)]
    have hmem := (hs.2.2 _ hpresent).2 chunk.id ((h.under_fitting hs.1.1).mpr hcovers)
    obtain ⟨other, hother, heq⟩ := List.mem_map.mp hmem
    obtain ⟨hotherMem, hadmits⟩ := mem_listed (List.mem_of_mem_filter hother)
    obtain rfl := eq_of_pk_eq h.chunks hotherMem hchunk heq
    simp [ListChunksQuery.admits, Window.query, hsome] at hadmits
    exact hadmits.1.1.1.2
  cases hsid : window.sourceId with
  | none =>
      cases hkind : window.sourceKind with
      | none => simp [Window.matching, Window.query, ListChunksQuery.admits, hsid, hkind, hsince, huntil]
      | some kind =>
          simp [Window.matching, Window.query, ListChunksQuery.admits, hsid, hkind, hsince, huntil]
  | some id =>
      cases hkind : window.sourceKind with
      | none =>
          simp [Window.matching, Window.query, ListChunksQuery.admits, hsid, hkind, hsince, huntil,
            hid id hsid]
      | some kind =>
          simp [Window.matching, Window.query, ListChunksQuery.admits, hsid, hkind, hsince, huntil,
            hid id hsid]

/-- The collected hits represent the window exactly when it is harmless. -/
theorem collected_iff (h : Sealed db) (hlimits : limits.Valid) :
    Represented db window (collectCover limits db window) ↔ Harmless limits db window := by
  have hsummary : ∀ s, Stand limits db window s →
      ∃ hit ∈ collectCover limits db window, hit.nodeKind = .summary ∧ hit.nodeId = s.id := by
    intro s hs
    have hmem : s ∈ db.summaries := by
      obtain ⟨source, -, hs⟩ := hs
      exact fitting_subset hs.1.1
    exact (summary_hit_iff h hlimits hmem).mpr hs
  constructor
  · intro hrep
    refine ⟨fun chunk hchunk hadmits hcurrent => ?_, fun kind hkind s hs chunk hchunk hcovers => ?_,
      fun s hs houtdated => ?_, fun chunk hlisted hstale => ?_⟩
    · exact (once_iff h hlimits hchunk).mp (hrep.once chunk hchunk hadmits hcurrent)
    · obtain ⟨hit, hhit, hsum, hid⟩ := hsummary s hs
      exact (matching_iff h hs hchunk hcovers).mp
        (hrep.matching hit hhit hsum s hid.symm chunk hchunk hcovers) kind hkind
    · obtain ⟨hit, hhit, hsum, hid⟩ := hsummary s hs
      obtain ⟨source, -, hstands⟩ := hs
      exact hrep.newest hit hhit hsum s (fitting_subset hstands.1.1) hid.symm houtdated
    · by_contra hnone
      push Not at hnone
      have hraw : ∃ source, Raw limits db window source chunk :=
        (raw_iff_lost h).mpr ⟨hlisted, fun l hl => hnone l (Or.inl hl), fun s hs => hnone s (Or.inr hs)⟩
      obtain ⟨hit, hhit, hleaf, hid⟩ :=
        (leaf_hit_iff h hlimits (mem_listed hlisted).1).mpr hraw
      exact hstale (hid ▸ hrep.current hit hhit hleaf)
  · intro hharm
    refine ⟨nodup_collectCover h hlimits, fun chunk hchunk hadmits hcurrent => ?_,
      fun hit hhit hkind s hid chunk hchunk hcovers => ?_, fun hit hhit hkind s hs hid => ?_,
      fun hit hhit hkind => ?_⟩
    · exact (once_iff h hlimits hchunk).mpr (hharm.whole chunk hchunk hadmits hcurrent)
    · have hs := (summary_hit_iff h hlimits hcovers.1).mp ⟨hit, hhit, hkind, hid.symm⟩
      exact (matching_iff h hs hchunk hcovers).mpr
        fun kind hkind => hharm.kinds kind hkind s hs chunk hchunk hcovers
    · exact hharm.newest s ((summary_hit_iff h hlimits hs).mp ⟨hit, hhit, hkind, hid.symm⟩)
    · rcases (mem_collectCover h hlimits).mp hhit with ⟨_, _, _, _, rfl⟩ | ⟨source, chunk, hraw, rfl⟩
      · cases hkind
      · obtain ⟨hlisted, hlost, hstand⟩ := (raw_iff_lost h).mp ⟨source, hraw⟩
        by_contra hstale
        obtain ⟨s, hs, hcovers⟩ := hharm.stale chunk hlisted hstale
        exact hs.elim (fun hl => hlost s hl hcovers) fun hs => hstand s hs hcovers

theorem Represented.perm {hits hits' : List RetrievalHit} (hperm : hits.Perm hits')
    (h : Represented db window hits) : Represented db window hits' where
  nodup := (hperm.map _).nodup_iff.mp h.nodup
  once := by
    intro chunk hchunk hadmits hcurrent
    obtain ⟨hit, hhit, honly⟩ := h.once chunk hchunk hadmits hcurrent
    refine ⟨hit, ⟨hperm.mem_iff.mp hhit.1, hhit.2⟩, fun other hother => honly other ?_⟩
    exact ⟨hperm.mem_iff.mpr hother.1, hother.2⟩
  matching := fun hit hhit => h.matching hit (hperm.mem_iff.mpr hhit)
  newest := fun hit hhit => h.newest hit (hperm.mem_iff.mpr hhit)
  current := fun hit hhit => h.current hit (hperm.mem_iff.mpr hhit)

/-- Before its limit, a cover represents every current chunk of the window once, and nothing else, exactly
when the window is harmless for the forest. -/
theorem cover_represents_iff (limits : RetrievalLimits) (db : Db) (window : Window)
    (hlimits : limits.Valid) (hsealed : Sealed db) :
    Represented db window (coverHits limits db window) ↔ Harmless limits db window := by
  rw [← collected_iff hsealed hlimits]
  have hperm : (coverHits limits db window).Perm (collectCover limits db window) :=
    List.mergeSort_perm _ _
  exact ⟨Represented.perm hperm, Represented.perm hperm.symm⟩

/-- Without documents nothing loses: a window without a kind filter is harmless as long as the scan can
page. -/
theorem harmless_of_noDocuments (hpages : limits.windowChunkPageSize ≤ maxListLimit)
    (hnone : ∀ s ∈ db.summaries, s.docId = none) (hkind : window.sourceKind = none) :
    Harmless limits db window where
  whole := by
    intro chunk hchunk hadmits _
    refine Or.inl ⟨?_, ?_⟩
    · rw [listed, scanned, if_pos hpages]
      exact mem_allMatching.mpr ⟨hchunk, hadmits⟩
    · rintro l ⟨source, -, hl, docId, hdoc, -⟩ -
      rw [hnone l (fitting_subset hl)] at hdoc
      cases hdoc
  kinds := by
    intro kind hsome
    rw [hkind] at hsome
    cases hsome
  newest := by
    rintro s ⟨source, -, hs⟩ ⟨hdoc, -⟩
    rw [hnone s (fitting_subset hs.1.1)] at hdoc
    cases hdoc
  stale := fun chunk _ hstale => absurd (Or.inl fun s hs _ => hnone s hs) hstale

end Main

def part (id : String) (seqInSource : Nat) : Chunk :=
  ⟨id, .document, "notion:page", some "notion:workspace", 5, 5, 5, 10, seqInSource, .sealed⟩

def revision (id : String) (level : Nat) (parentId : Option String) (childIds : List String) :
    SummaryNode :=
  ⟨id, "tree-1", level, parentId, childIds, 5, 5, 5, 5, false, some "page", some 1⟩

/-- One version of one document, sealed in two batches. -/
def splitRevision : Db :=
  ⟨[⟨"tree-1", .source, "notion:workspace", some "root", 2, .active, some 5⟩],
    [part "chunk-1" 0, part "chunk-2" 1],
    [revision "batch-1" 1 (some "root") ["chunk-1"], revision "batch-2" 1 (some "root") ["chunk-2"],
      revision "root" 2 none ["batch-1", "batch-2"]], []⟩

def wholeWindow : Window := ⟨0, 10, none, none⟩

def pagedLimits : RetrievalLimits := ⟨10, 100⟩

theorem splitRevision_sealed : Sealed splitRevision where
  summaries := by decide
  chunks := by decide
  trees := by decide
  apart := by decide
  live := by decide
  parent := by decide
  child := by decide
  leaf := by decide
  shared := by decide

theorem splitRevision_fitting :
    fitting splitRevision wholeWindow "notion:workspace" = splitRevision.summaries := by
  change listSummariesInWindow splitRevision "tree-1" 0 10 = splitRevision.summaries
  have hfilter : (splitRevision.summaries.filter fun s => s.treeId == "tree-1" && !s.deleted &&
      decide (0 ≤ s.timeRangeStartMs) && decide (s.timeRangeEndMs ≤ 10)) = splitRevision.summaries := by
    decide
  rw [listSummariesInWindow, hfilter]
  exact List.mergeSort_of_pairwise (by decide)

theorem splitRevision_listed :
    listed pagedLimits splitRevision wholeWindow = splitRevision.chunks := by
  have hfilter : splitRevision.chunks.filter wholeWindow.query.admits = splitRevision.chunks := by decide
  rw [listed, scanned, if_pos (by decide), allMatching, hfilter]
  exact List.mergeSort_of_pairwise (by decide)

theorem splitRevision_cover : collectCover pagedLimits splitRevision wholeWindow = [] := by
  have hscopes : (splitRevision.chunks.map chunkTreeScope).dedup = ["notion:workspace"] := by decide
  rw [collectCover_eq (by constructor <;> decide), splitRevision_listed, hscopes, List.flatMap_singleton,
    sourceHits_eq splitRevision_sealed, splitRevision_fitting, splitRevision_listed]
  decide

theorem cover_represents_iff_splitRevision :
    Represented splitRevision wholeWindow (coverHits pagedLimits splitRevision wholeWindow) ↔
      Harmless pagedLimits splitRevision wholeWindow :=
  cover_represents_iff pagedLimits splitRevision wholeWindow (by constructor <;> decide)
    splitRevision_sealed

/-- The second batch and the root lose against the first batch, and the subtree of the root goes with it:
the cover is empty. -/
theorem splitRevision_notRepresented :
    ¬∀ (limits : RetrievalLimits) db window, limits.Valid → Sealed db →
      Represented db window (coverHits limits db window) := by
  intro hall
  have hrep := hall pagedLimits splitRevision wholeWindow (by constructor <;> decide)
    splitRevision_sealed
  have hcurrent : Current splitRevision "chunk-1" := by
    refine Or.inr ⟨revision "batch-1" 1 (some "root") ["chunk-1"], by decide, by decide, by decide, ?_⟩
    rintro ⟨-, t, ht, -, -, hlt⟩
    have hversions : ∀ s ∈ splitRevision.summaries, version s = 1 := by decide
    rw [hversions t ht] at hlt
    exact absurd hlt (by decide)
  obtain ⟨hit, ⟨hhit, -⟩, -⟩ := hrep.once (part "chunk-1" 0) (by decide) (by decide) hcurrent
  rw [coverHits, List.mem_mergeSort, splitRevision_cover] at hhit
  exact absurd hhit List.not_mem_nil

end TinyCortex.Retrieval
