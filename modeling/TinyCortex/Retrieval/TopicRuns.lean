import TinyCortex.Retrieval.Topic

/-! Windowed topic queries over whole runs. The row of a node carries the clock of its seal or the time of its chunk,
and the window is put to it; what a run keeps is that these times lie in every window that the nodes' ranges meet. -/

namespace TinyCortex.Retrieval

open Chunks Fallible Score SummaryTree Table

/-! ### What the writers do to the index -/

section Index

variable {rows index : List IndexRow} {row : IndexRow} {store : Score.Store} {timestampMs : Int}
variable {treeId : Option String}

theorem mem_upsertRows (h : row ∈ upsertRows rows index) : row ∈ rows ∨ row ∈ index := by
  induction rows generalizing index with
  | nil => exact Or.inr h
  | cons new rows ih =>
      rcases ih h with hrow | hrow
      · exact Or.inl (List.mem_cons_of_mem _ hrow)
      · rcases mem_upsert hrow with rfl | hold
        · exact Or.inl List.mem_cons_self
        · exact Or.inr hold

theorem mem_indexSummary {entityIds : List String} {nodeId : String}
    (h : row ∈ (indexSummaryEntityIds entityIds nodeId timestampMs treeId store).1.index) :
    row ∈ store.index ∨
      row.entityId ∈ entityIds ∧ row.nodeId = nodeId ∧ row.nodeKind = "summary" ∧ row.timestampMs = timestampMs := by
  rw [indexSummaryEntityIds] at h
  split_ifs at h
  · exact Or.inl h
  · rcases mem_upsertRows h with hnew | hold
    · obtain ⟨id, hid, rfl⟩ := List.mem_map.mp hnew
      exact Or.inr ⟨hid, rfl, rfl, rfl⟩
    · exact Or.inl hold

/-- What a score puts into the index. -/
def Scores (result : ScoreResult) (entityId : String) : Prop :=
  result.kept = true ∧ entityId ∈ result.canonicalEntities.map CanonicalEntity.canonicalId

instance (result : ScoreResult) (entityId : String) : Decidable (Scores result entityId) :=
  inferInstanceAs (Decidable (_ ∧ _))

theorem mem_persistScore {result : ScoreResult} (h : row ∈ (Score.persistScore result timestampMs treeId store).index) :
    row ∈ store.index ∧ row.nodeId ≠ result.chunkId ∨
      Scores result row.entityId ∧ row.nodeId = result.chunkId ∧ row.nodeKind = "leaf" ∧
        row.timestampMs = timestampMs := by
  have hcleared : row ∈ (clearEntityIndexForNode result.chunkId store).1.index →
      row ∈ store.index ∧ row.nodeId ≠ result.chunkId := by
    intro hrow
    obtain ⟨hmem, hne⟩ := List.mem_filter.mp hrow
    exact ⟨hmem, of_decide_eq_true hne⟩
  rw [Score.persistScore] at h
  split_ifs at h with hkept
  · rw [Bool.and_eq_true] at hkept
    rw [indexEntities] at h
    split_ifs at h
    · exact Or.inl (hcleared h)
    · rcases mem_upsertRows h with hnew | hold
      · obtain ⟨entity, hentity, rfl⟩ := List.mem_map.mp hnew
        exact Or.inr ⟨⟨hkept.1, List.mem_map_of_mem hentity⟩, rfl, rfl, rfl⟩
      · exact Or.inl (hcleared hold)
  · exact Or.inl (hcleared h)

end Index

/-! ### What the writers do to time ranges -/

section Ranges

variable {db next : Db} {node : SummaryNode} {id : String}

/-- The time range of a summary. -/
def summaryRange (db : Db) (id : String) : Option (Int × Int) :=
  (db.getSummary id).map fun node => (node.timeRangeStartMs, node.timeRangeEndMs)

def chunkRange (db : Db) (id : String) : Option (Int × Int) :=
  (db.getChunk id).map fun chunk => (chunk.timeRangeStartMs, chunk.timeRangeEndMs)

def rowRange (db : Db) (row : IndexRow) : Option (Int × Int) :=
  if row.nodeKind = "summary" then summaryRange db row.nodeId else chunkRange db row.nodeId

theorem rowRange_of_resolve {droppedChunkIds : List String} {row : IndexRow} {hit : RetrievalHit}
    (h : resolveRow db droppedChunkIds row = some hit) :
    rowRange db row = some (hit.timeRangeStartMs, hit.timeRangeEndMs) := by
  rw [resolveRow] at h
  rw [rowRange]
  split_ifs at h ⊢
  · obtain ⟨node, hnode, rfl⟩ := Option.map_eq_some_iff.mp h
    rw [summaryRange, (Option.filter_eq_some_iff.mp hnode).1]
    rfl
  · obtain ⟨chunk, hchunk, rfl⟩ := Option.map_eq_some_iff.mp h
    rw [chunkRange, (Option.filter_eq_some_iff.mp hchunk).1]
    rfl

/-- A sealed node has its range unless its id is taken, and no other range moves. -/
theorem summaryRange_insertSealed (level : Nat) (hsum : next.summaries = (insertSealed level node db).summaries) :
    summaryRange next id = (summaryRange db id).or
      (if node.id = id then some (node.timeRangeStartMs, node.timeRangeEndMs) else none) := by
  have hinsert : summaryRange (db.insertSummary node) id = (summaryRange db id).or
      (if node.id = id then some (node.timeRangeStartMs, node.timeRangeEndMs) else none) := by
    rw [summaryRange, summaryRange, Db.getSummary, Db.getSummary, Db.insertSummary]
    dsimp only
    by_cases hfresh : node.id ∈ db.summaries.map SummaryNode.id
    · rw [insertOrIgnore, if_pos hfresh]
      split_ifs with hid
      · rw [hid] at hfresh
        obtain ⟨old, hold⟩ := Option.isSome_iff_exists.mp (lookup_isSome_iff.mpr hfresh)
        rw [hold]
        rfl
      · exact (Option.or_none).symm
    · rw [insertOrIgnore_of_fresh hfresh, lookup_append, Option.map_or, lookup, lookup]
      split_ifs <;> rfl
  have hnext : summaryRange next id = summaryRange (insertSealed level node db) id := by
    rw [summaryRange, summaryRange, Db.getSummary, Db.getSummary, hsum]
  rw [hnext, ← hinsert, insertSealed]
  split_ifs
  · rfl
  · rw [summaryRange, Db.getSummary, Db.backlink]
    have hid : ∀ row : SummaryNode, { row with parentId := some node.id }.id = row.id := fun _ => rfl
    dsimp only
    rw [lookup_update hid, Option.map_map]
    refine Option.map_congr fun row _ => ?_
    dsimp only [Function.comp]
    split_ifs
    · rfl
    · rfl

/-- What the range of an id is once a node has been sealed under it. -/
def rangeAfter (db : Db) (node : SummaryNode) : Int × Int :=
  (summaryRange db node.id).getD (node.timeRangeStartMs, node.timeRangeEndMs)

theorem summaryRange_sealed (level : Nat) (hsum : next.summaries = (insertSealed level node db).summaries) :
    summaryRange next node.id = some (rangeAfter db node) := by
  rw [summaryRange_insertSealed level hsum, if_pos rfl, rangeAfter]
  cases summaryRange db node.id <;> rfl

end Ranges

/-! ### Steps in time -/

section Steps

variable (config : TreeConfig) (entityId : String) (sinceMs untilMs : Option Int)

/-- If a range meets the window, then the window holds the time that is written next to it. -/
def InStep (range : Int × Int) (ms : Int) : Prop :=
  overlaps sinceMs untilMs range.1 range.2 = true → within sinceMs untilMs ms = true

/-- Every row of the entity is in step with the range of its node, and a summary row has a node. -/
def Stamped (c : Corpus) : Prop :=
  ∀ row ∈ c.store.index, row.entityId = entityId →
    (row.nodeKind = "summary" → (summaryRange c.db row.nodeId).isSome = true) ∧
      ∀ range, rowRange c.db row = some range → InStep sinceMs untilMs range row.timestampMs

/-- Whether an ingest scores the chunk. -/
def processes (prior : List Chunk) (id : String) : Bool := Ingest.needsProcessing (getChunkLifecycleStatus id prior)

/-- A staged chunk keeps the rows of its node in step: those that its score writes, or those that stay. -/
def StagesTimely (c : Corpus) (staged : Staged) : Prop :=
  let range := (staged.chunk.timeRangeStartMs, staged.chunk.timeRangeEndMs)
  if processes c.db.chunks staged.chunk.id then
    Scores staged.result entityId → InStep sinceMs untilMs range staged.chunk.timestampMs
  else
    ∀ row ∈ c.store.index, row.entityId = entityId → row.nodeId = staged.chunk.id →
      InStep sinceMs untilMs range row.timestampMs

/-- What the step writes for the entity is in step with the window. -/
def Timely (c : Corpus) : Corpus.Label → Prop
  | .ingest staged =>
      ∀ last ∈ staged, lookup (fun s => s.chunk.id) last.chunk.id staged.reverse = some last →
        StagesTimely entityId sinceMs untilMs c last
  | .score result timestampMs _ =>
      Scores result entityId → ∀ range, chunkRange c.db result.chunkId = some range →
        InStep sinceMs untilMs range timestampMs
  | .commit i summaryId tokenCount entityIds nowMs _ =>
      entityId ∈ entityIds → ∀ run, c.world.seals[i]? = some run →
        InStep sinceMs untilMs
          (rangeAfter c.db (sealedNode run.snapshot run.inputs summaryId tokenCount nowMs)) nowMs
  | .direct input summaryId entityIds nowMs =>
      entityId ∈ entityIds → InStep sinceMs untilMs (rangeAfter c.db (ingestedNode input summaryId nowMs)) nowMs
  | .sealChildren doc level childIds minted entityIds =>
      entityId ∈ entityIds → InStep sinceMs untilMs
        (rangeAfter c.db (explicitNode config doc level childIds (hydrateInputs c.db level childIds) minted))
        minted.nowMs
  | .append _ _ _ _ _ | .snapshot _ _ => True

variable {config entityId sinceMs untilMs}
variable {c next : Corpus} {node : SummaryNode} {treeId : String} {entityIds : List String} {nowMs : Int}

/-- A node that is sealed and indexed in step keeps the rows in step. -/
theorem Stamped.indexNode (h : Stamped entityId sinceMs untilMs c) {db : Db} (level : Nat)
    (hchunks : db.chunks = c.db.chunks) (hsum : db.summaries = (insertSealed level node c.db).summaries)
    (hstep : entityId ∈ entityIds → InStep sinceMs untilMs (rangeAfter c.db node) nowMs)
    (hdb : next.db = db)
    (hindex : next.store.index = (indexSummaryEntityIds entityIds node.id nowMs (some treeId) c.store).1.index) :
    Stamped entityId sinceMs untilMs next := by
  intro row hrow hentity
  rw [hindex] at hrow
  rw [hdb]
  rcases mem_indexSummary hrow with hold | ⟨hid, hnode, hkind, hts⟩
  · obtain ⟨hsome, hrange⟩ := h row hold hentity
    have hkeep : row.nodeKind = "summary" → summaryRange db row.nodeId = summaryRange c.db row.nodeId := by
      intro hkind
      obtain ⟨range, hrange⟩ := Option.isSome_iff_exists.mp (hsome hkind)
      rw [summaryRange_insertSealed level hsum, hrange]
      rfl
    refine ⟨fun hkind => hkeep hkind ▸ hsome hkind, fun range hnext => hrange range ?_⟩
    rw [← hnext, rowRange, rowRange]
    split_ifs with hkind
    · exact (hkeep hkind).symm
    · rw [chunkRange, chunkRange, Db.getChunk, Db.getChunk, hchunks]
  · have hsealed := summaryRange_sealed level hsum
    rw [hnode, rowRange, if_pos hkind, hnode, hts, hsealed]
    refine ⟨fun _ => rfl, fun range hnext => ?_⟩
    rw [← Option.some.inj hnext]
    exact hstep (hentity ▸ hid)

/-- Rows stay in step when no index row is written and no range moves. -/
theorem Stamped.frame (h : Stamped entityId sinceMs untilMs c) (hindex : next.store.index ⊆ c.store.index)
    (hchunks : next.db.chunks = c.db.chunks) (hsum : next.db.summaries = c.db.summaries) :
    Stamped entityId sinceMs untilMs next := by
  intro row hrow hentity
  have hrow := h row (hindex hrow) hentity
  rw [rowRange, summaryRange, chunkRange, Db.getSummary, Db.getChunk] at hrow ⊢
  rw [hchunks, hsum]
  exact hrow

/-- What scheduling staged chunks does: an old row stays unless its chunk is processed, and a new row is that of the
chunk that was staged last under its id. -/
structure Scheduled (prior : List Chunk) (staged : List Staged) (c next : Corpus) : Prop where
  seals : next.world.seals = c.world.seals
  summaries : next.db.summaries = c.db.summaries
  chunks : ∀ id, chunkRange next.db id = chunkRange c.db id
  rows : ∀ row ∈ next.store.index,
    (row ∈ c.store.index ∧ (row.nodeId ∈ staged.map (fun s => s.chunk.id) → processes prior row.nodeId = false)) ∨
    ∃ last, lookup (fun s => s.chunk.id) row.nodeId staged.reverse = some last ∧ processes prior row.nodeId = true ∧
      Scores last.result row.entityId ∧ row.nodeKind = "leaf" ∧ row.timestampMs = last.chunk.timestampMs

theorem chunkRange_setStatus {db : Db} {chunkId : String} {status : ChunkStatus} {chunks : List Chunk}
    (h : setChunkLifecycleStatus chunkId status db.chunks = .ok chunks) (id : String) :
    chunkRange { db with chunks := chunks } id = chunkRange db id := by
  rw [setChunkLifecycleStatus] at h
  split_ifs at h
  rw [← Except.ok.inj h, chunkRange, Db.getChunk]
  dsimp only
  rw [lookup_update (Chunk.withStatus_id status), Option.map_map]
  refine Option.map_congr fun row _ => ?_
  dsimp only [Function.comp]
  split_ifs
  · rfl
  · rfl

theorem scheduled {prior : List Chunk} {staged : List Staged}
    (h : staged.foldlM (Corpus.scheduleOne prior) c = .ok next) : Scheduled prior staged c next := by
  induction staged using List.reverseRecOn generalizing next with
  | nil =>
      rw [← Except.ok.inj h]
      exact ⟨rfl, rfl, fun _ => rfl, fun row hrow => Or.inl ⟨hrow, fun hid => absurd hid List.not_mem_nil⟩⟩
  | append_singleton staged last ih =>
      rw [List.foldlM_append, bind_ok_iff] at h
      obtain ⟨mid, hmid, hlast⟩ := h
      rw [List.foldlM_cons, bind_ok_iff] at hlast
      obtain ⟨found, hone, hnext⟩ := hlast
      obtain rfl := Except.ok.inj hnext
      have hih := ih hmid
      have hsnoc : ∀ id, lookup (fun s : Staged => s.chunk.id) id (staged ++ [last]).reverse =
          if last.chunk.id = id then some last else lookup (fun s => s.chunk.id) id staged.reverse := by
        intro id
        rw [List.reverse_append, List.reverse_singleton, List.singleton_append, lookup]
      by_cases hprocess : processes prior last.chunk.id = true
      · rw [Corpus.scheduleOne, ← processes, if_pos hprocess] at hone
        dsimp only at hone
        rw [bind_ok_iff] at hone
        obtain ⟨chunks, hchunks, hfound⟩ := hone
        rw [← Except.ok.inj hfound]
        refine ⟨hih.seals, hih.summaries, fun id => ?_, fun row hrow => ?_⟩
        · exact (chunkRange_setStatus hchunks id).trans (hih.chunks id)
        · rcases mem_persistScore hrow with ⟨hold, hne⟩ | ⟨hscores, hnode, hkind, hts⟩
          · have hother : last.chunk.id ≠ row.nodeId := fun heq => hne heq.symm
            rcases hih.rows row hold with ⟨hstart, hstay⟩ | ⟨s, hlookup, hnew⟩
            · refine Or.inl ⟨hstart, fun hid => hstay ?_⟩
              rw [List.map_append, List.mem_append] at hid
              exact hid.resolve_right fun h => hother (List.mem_singleton.mp h).symm
            · exact Or.inr ⟨s, by rw [hsnoc, if_neg hother, hlookup], hnew⟩
          · refine Or.inr ⟨last, ?_, ?_, hscores, hkind, hts⟩
            · rw [hsnoc, hnode]
              exact if_pos rfl
            · rw [hnode]
              exact hprocess
      · rw [Corpus.scheduleOne, ← processes, if_neg hprocess] at hone
        rw [← Except.ok.inj hone]
        refine ⟨hih.seals, hih.summaries, hih.chunks, fun row hrow => ?_⟩
        rcases hih.rows row hrow with ⟨hstart, hstay⟩ | ⟨s, hlookup, hprocessed, hnew⟩
        · refine Or.inl ⟨hstart, fun hid => ?_⟩
          rw [List.map_append, List.mem_append] at hid
          rcases hid with hid | hid
          · exact hstay hid
          · rw [List.mem_singleton.mp hid]
            exact Bool.not_eq_true _ ▸ hprocess
        · have hother : last.chunk.id ≠ row.nodeId := by
            intro heq
            rw [heq] at hprocess
            exact hprocess hprocessed
          exact Or.inr ⟨s, by rw [hsnoc, if_neg hother, hlookup], hprocessed, hnew⟩

theorem commit_cases (config : TreeConfig) (c : Corpus) (i : Nat) (run : SealRun) (summaryId : String)
    (tokenCount : Nat) (entityIds : List String) (nowMs : Int) (enqueueFollowUps : Bool) :
    let next := c.commit config i run summaryId tokenCount entityIds nowMs enqueueFollowUps
    let node := sealedNode run.snapshot run.inputs summaryId tokenCount nowMs
    (next.tables = c.tables ∧ ∃ phase, next.world.seals = c.world.seals.set i { run with phase := phase }) ∨
      ∃ db, db.chunks = c.db.chunks ∧ db.summaries = (insertSealed run.snapshot.level node c.db).summaries ∧
        next = { c with
          world := { c.world with
            db := db
            seals := c.world.seals.set i { run with phase := .committed c.world.steps summaryId } }
          store := (indexSummaryEntityIds entityIds summaryId nowMs (some run.snapshot.treeId) c.store).1 } := by
  dsimp only
  rw [Corpus.commit, World.commit, ← Corpus.db]
  cases hcommit : commitSeal config run.snapshot
      (sealedNode run.snapshot run.inputs summaryId tokenCount nowMs) nowMs enqueueFollowUps c.db with
  | error error => exact Or.inl ⟨rfl, .aborted, rfl⟩
  | ok result =>
      obtain ⟨db, followUp⟩ := result
      have hcommitted := commitSeal_ok hcommit rfl rfl
      exact Or.inr ⟨db, hcommitted.chunks, hcommitted.summaries, rfl⟩

theorem ingestSummary_frame {input : SummaryIngest} {summaryId : String} {db next : Db}
    (h : ingestSummary input summaryId nowMs db = .ok next) : next.chunks = db.chunks ∧
      next.summaries = (insertSealed 0 (ingestedNode input summaryId nowMs) db).summaries := by
  obtain ⟨tree, pushed, -, hpushed, rfl⟩ := ingestSummary_cases h
  have hframe : pushed.chunks = db.chunks ∧
      pushed.summaries = (insertSealed 0 (ingestedNode input summaryId nowMs) db).summaries := by
    rcases hpushed with rfl | rfl
    · exact ⟨rfl, rfl⟩
    · exact ⟨rfl, rfl⟩
  split_ifs
  · exact hframe
  · exact hframe

theorem sealExplicitChildren_ok {config : TreeConfig} {doc : DocumentSeal} {level : Nat} {childIds : List String}
    {minted : Minted} {db next : Db} {node : SummaryNode}
    (h : sealExplicitChildren config doc level childIds minted db = .ok (next, node)) :
    node = explicitNode config doc level childIds (hydrateInputs db level childIds) minted ∧
      next = insertSealed level node db := by
  rw [sealExplicitChildren] at h
  dsimp only at h
  split_ifs at h
  obtain ⟨tree, -, h⟩ := bind_ok_iff.mp h
  obtain ⟨rfl, rfl⟩ := Prod.mk.inj (Except.ok.inj h)
  exact ⟨rfl, rfl⟩

theorem Stamped.score (h : Stamped entityId sinceMs untilMs c) {result : ScoreResult} {timestampMs : Int}
    {treeId : Option String}
    (hstep : Scores result entityId → ∀ range, chunkRange c.db result.chunkId = some range →
      InStep sinceMs untilMs range timestampMs) :
    Stamped entityId sinceMs untilMs (c.persistScore result timestampMs treeId) := by
  intro row hrow hentity
  rcases mem_persistScore hrow with ⟨hold, -⟩ | ⟨hscores, hnode, hkind, hts⟩
  · exact h row hold hentity
  · have hleaf : row.nodeKind ≠ "summary" := by
      rw [hkind]
      decide
    refine ⟨fun hsummary => absurd hsummary hleaf, fun range hrange => ?_⟩
    rw [rowRange, if_neg hleaf, hnode] at hrange
    rw [hts]
    exact hstep (hentity ▸ hscores) range hrange

/-- A staged chunk has the range that it was staged with last. -/
theorem chunkRange_upsertStaged (staged : List Staged) (db : Db) (id : String) :
    chunkRange { db with chunks := (upsertStagedChunks (staged.map Staged.chunk) db.chunks).1 } id =
      match lookup (fun s => s.chunk.id) id staged.reverse with
      | some last => some (last.chunk.timeRangeStartMs, last.chunk.timeRangeEndMs)
      | none => chunkRange db id := by
  have hchunk : lookup Chunk.id id (staged.map Staged.chunk).reverse =
      (lookup (fun s => s.chunk.id) id staged.reverse).map Staged.chunk := by
    rw [← List.map_reverse]
    exact lookup_map (fun _ => rfl) _
  rw [chunkRange, Db.getChunk]
  cases hlast : lookup (fun s : Staged => s.chunk.id) id staged.reverse with
  | none =>
      rw [hlast] at hchunk
      rw [lookup_upsertStagedChunks_of_not hchunk]
      rfl
  | some last =>
      rw [hlast] at hchunk
      obtain ⟨found, hfound, status, hstatus⟩ := lookup_upsertStagedChunks db.chunks hchunk
      rw [hfound, hstatus]
      rfl

theorem Stamped.ingest (h : Stamped entityId sinceMs untilMs c) {staged : List Staged}
    (hstep : Timely config entityId sinceMs untilMs c (.ingest staged)) (hnext : c.ingest staged = .ok next) :
    Stamped entityId sinceMs untilMs next := by
  have hdone := scheduled hnext
  have hsummary : ∀ id, summaryRange next.db id = summaryRange c.db id := fun id => by
    rw [summaryRange, summaryRange, Db.getSummary, Db.getSummary, hdone.summaries]
    rfl
  have hchunk : ∀ id, chunkRange next.db id = _ := fun id =>
    (hdone.chunks id).trans (chunkRange_upsertStaged staged c.db id)
  have htimely : ∀ {id last}, lookup (fun s : Staged => s.chunk.id) id staged.reverse = some last →
      last.chunk.id = id ∧ StagesTimely entityId sinceMs untilMs c last := by
    intro id last hlast
    obtain ⟨hmem, rfl⟩ := lookup_mem hlast
    exact ⟨rfl, hstep last (List.mem_reverse.mp hmem) hlast⟩
  intro row hrow hentity
  rcases hdone.rows row hrow with ⟨hold, hstay⟩ | ⟨last, hlast, hprocess, hscores, hkind, hts⟩
  · obtain ⟨hsome, hrange⟩ := h row hold hentity
    refine ⟨fun hkind => hsummary _ ▸ hsome hkind, fun range hnow => ?_⟩
    rw [rowRange] at hnow hrange
    split_ifs at hnow hrange
    · exact hrange range (hsummary _ ▸ hnow)
    · rw [hchunk] at hnow
      cases hlast : lookup (fun s : Staged => s.chunk.id) row.nodeId staged.reverse with
      | none =>
          rw [hlast] at hnow
          exact hrange range hnow
      | some last =>
          rw [hlast] at hnow
          obtain ⟨hid, hstages⟩ := htimely hlast
          have hstaged : row.nodeId ∈ staged.map fun s => s.chunk.id :=
            List.mem_map.mpr ⟨last, List.mem_reverse.mp (lookup_mem hlast).1, hid⟩
          rw [StagesTimely, hid, hstay hstaged] at hstages
          rw [← Option.some.inj hnow]
          exact hstages row hold hentity rfl
  · obtain ⟨hid, hstages⟩ := htimely hlast
    have hleaf : row.nodeKind ≠ "summary" := by
      rw [hkind]
      decide
    refine ⟨fun hsummary => absurd hsummary hleaf, fun range hnow => ?_⟩
    rw [rowRange, if_neg hleaf, hchunk, hlast] at hnow
    rw [StagesTimely, hid, hprocess] at hstages
    rw [← Option.some.inj hnow, hts]
    exact hstages (hentity ▸ hscores)

theorem append_frame (w : World) (treeId : String) (level : Nat) (itemId : String) (tokenDelta itemTs : Int) :
    let next := w.append treeId level itemId tokenDelta itemTs
    next.db.chunks = w.db.chunks ∧ next.db.summaries = w.db.summaries ∧ next.seals = w.seals := by
  dsimp only
  rw [World.append]
  cases happend : appendToBuffer treeId level itemId tokenDelta itemTs w.db with
  | error error => exact ⟨rfl, rfl, rfl⟩
  | ok db =>
      obtain ⟨-, hchunks, hsum⟩ := appendToBuffer_frame happend
      exact ⟨hchunks, hsum, rfl⟩

theorem snapshot_db (w : World) (treeId : String) (level : Nat) : (w.snapshot treeId level).db = w.db := by
  rw [World.snapshot]
  cases sealInputs w.db (w.db.getBuffer treeId level) with
  | error error => rfl
  | ok inputs => rfl

/-- A timely step keeps the rows in step. -/
theorem Stamped.advance (h : Stamped entityId sinceMs untilMs c) (label : Corpus.Label)
    (hstep : Timely config entityId sinceMs untilMs c label) :
    Stamped entityId sinceMs untilMs (c.advance config label) := by
  cases label with
  | ingest staged =>
      cases hnext : c.ingest staged with
      | error error => rw [Corpus.advance, hnext]; exact h
      | ok next => rw [Corpus.advance, hnext]; exact h.ingest hstep hnext
  | score result timestampMs treeId => exact h.score hstep
  | append treeId level itemId tokenDelta itemTs =>
      obtain ⟨hchunks, hsum, -⟩ := append_frame c.world treeId level itemId tokenDelta itemTs
      exact h.frame (fun _ hrow => hrow) hchunks hsum
  | snapshot treeId level =>
      have hdb := snapshot_db c.world treeId level
      exact h.frame (fun _ hrow => hrow) (congrArg Db.chunks hdb) (congrArg Db.summaries hdb)
  | commit i summaryId tokenCount entityIds nowMs enqueueFollowUps =>
      rw [Corpus.advance]
      cases hrun : c.world.seals[i]? with
      | none => exact h
      | some run =>
          dsimp only
          by_cases hphase : run.phase = SealPhase.summarising
          · rw [if_pos hphase]
            rcases commit_cases config c i run summaryId tokenCount entityIds nowMs enqueueFollowUps with
              ⟨htables, -⟩ | ⟨db, hchunks, hsum, hnext⟩
            · have hdb := congrArg TopicTables.db htables
              have hindex : (c.commit config i run summaryId tokenCount entityIds nowMs enqueueFollowUps).store.index =
                c.store.index := congrArg TopicTables.index htables
              refine h.frame (fun _ hrow => hindex ▸ hrow) ?_ ?_
              · exact congrArg Db.chunks hdb
              · exact congrArg Db.summaries hdb
            · rw [hnext]
              exact h.indexNode run.snapshot.level hchunks hsum (fun hid => hstep hid run hrun) rfl rfl
          · rw [if_neg hphase]
            exact h
  | direct input summaryId entityIds nowMs =>
      cases hnext : ingestSummary input summaryId nowMs c.db with
      | error error => rw [Corpus.advance, hnext]; exact h
      | ok db =>
          rw [Corpus.advance, hnext]
          obtain ⟨hchunks, hsum⟩ := ingestSummary_frame hnext
          exact h.indexNode 0 hchunks hsum hstep rfl rfl
  | sealChildren doc level childIds minted entityIds =>
      cases hnext : sealExplicitChildren config doc level childIds minted c.db with
      | error error => rw [Corpus.advance, hnext]; exact h
      | ok result =>
          obtain ⟨db, node⟩ := result
          rw [Corpus.advance, hnext]
          obtain ⟨rfl, rfl⟩ := sealExplicitChildren_ok hnext
          exact h.indexNode level (insertSealed_frame level _ c.db).2.2 rfl hstep rfl rfl

end Steps

/-! ### Times in range -/

section Sound

/-- Both ends of a time range can be held. -/
def IsUtcRange (range : Int × Int) : Prop := IsUtc range.1 ∧ IsUtc range.2

instance (range : Int × Int) : Decidable (IsUtcRange range) := inferInstanceAs (Decidable (_ ∧ _))

/-- The times that a step brings in are those of `DateTime<Utc>` values. -/
def Dated : Corpus.Label → Prop
  | .ingest staged => ∀ s ∈ staged,
      IsUtc s.chunk.timestampMs ∧ IsUtcRange (s.chunk.timeRangeStartMs, s.chunk.timeRangeEndMs)
  | .score _ timestampMs _ => IsUtc timestampMs
  | .commit _ _ _ _ nowMs _ => IsUtc nowMs
  | .direct input _ _ nowMs => IsUtcRange (input.timeRangeStartMs, input.timeRangeEndMs) ∧ IsUtc nowMs
  | .sealChildren _ _ _ minted _ => IsUtc minted.nowMs
  | .append _ _ _ _ _ | .snapshot _ _ => True

instance : ∀ label, Decidable (Dated label)
  | .ingest _ => inferInstanceAs (Decidable (∀ s ∈ _, _))
  | .score _ _ _ => inferInstanceAs (Decidable (IsUtc _))
  | .commit _ _ _ _ _ _ => inferInstanceAs (Decidable (IsUtc _))
  | .direct _ _ _ _ => inferInstanceAs (Decidable (_ ∧ _))
  | .sealChildren _ _ _ _ _ => inferInstanceAs (Decidable (IsUtc _))
  | .append _ _ _ _ _ | .snapshot _ _ => isTrue trivial

/-- Index rows have distinct keys, and all times are in range. -/
structure Sound (c : Corpus) : Prop where
  keyed : (c.store.index.map IndexRow.key).Nodup
  timed : Timed c.tables
  inputs : ∀ run ∈ c.world.seals, ∀ input ∈ run.inputs, IsUtcRange (input.timeRangeStartMs, input.timeRangeEndMs)

variable {config : TreeConfig} {c next : Corpus} {node : SummaryNode} {nowMs : Int}

theorem isUtc_getD {times : List Int} {least : Option Int} (hleast : ∀ ms, least = some ms → ms ∈ times)
    (htimes : ∀ ms ∈ times, IsUtc ms) (hnow : IsUtc nowMs) : IsUtc (least.getD nowMs) := by
  cases least with
  | none => exact hnow
  | some ms => exact htimes ms (hleast ms rfl)

/-- The envelope of inputs that are in range is in range. -/
theorem isUtc_envelope {inputs : List SummaryInput}
    (h : ∀ input ∈ inputs, IsUtcRange (input.timeRangeStartMs, input.timeRangeEndMs)) (hnow : IsUtc nowMs) :
    IsUtcRange (((inputs.map SummaryInput.timeRangeStartMs).min?).getD nowMs,
      ((inputs.map SummaryInput.timeRangeEndMs).max?).getD nowMs) := by
  constructor
  · refine isUtc_getD (fun ms hms => List.min?_mem hms) (fun ms hms => ?_) hnow
    obtain ⟨input, hinput, rfl⟩ := List.mem_map.mp hms
    exact (h input hinput).1
  · refine isUtc_getD (fun ms hms => List.max?_mem hms) (fun ms hms => ?_) hnow
    obtain ⟨input, hinput, rfl⟩ := List.mem_map.mp hms
    exact (h input hinput).2

theorem isUtc_hydrate (h : Timed c.tables) (level : Nat) (ids : List String) : ∀ input ∈ hydrateInputs c.db level ids,
    IsUtcRange (input.timeRangeStartMs, input.timeRangeEndMs) := by
  intro input hinput
  rw [hydrateInputs] at hinput
  split_ifs at hinput
  · obtain ⟨id, -, hid⟩ := List.mem_filterMap.mp hinput
    obtain ⟨chunk, hchunk, rfl⟩ := Option.map_eq_some_iff.mp hid
    exact h.chunks chunk (lookup_mem hchunk).1
  · obtain ⟨id, -, hid⟩ := List.mem_filterMap.mp hinput
    obtain ⟨node, hnode, rfl⟩ := Option.map_eq_some_iff.mp hid
    exact h.summaries node (lookup_mem hnode).1

/-- A node in range that is sealed and indexed in time leaves everything in range. -/
theorem Sound.indexNode (h : Sound c) {db : Db} {entityIds : List String} {treeId : String} (level : Nat)
    (hchunks : db.chunks = c.db.chunks) (hsum : db.summaries = (insertSealed level node c.db).summaries)
    (hnode : IsUtcRange (node.timeRangeStartMs, node.timeRangeEndMs)) (hnow : IsUtc nowMs)
    (hdb : next.db = db)
    (hindex : next.store.index = (indexSummaryEntityIds entityIds node.id nowMs (some treeId) c.store).1.index)
    (hinputs : ∀ run ∈ next.world.seals, ∃ old ∈ c.world.seals, run.inputs = old.inputs) : Sound next where
  keyed := by
    rw [hindex]
    exact keyed_call h.keyed (.indexSummaryEntityIds entityIds node.id nowMs (some treeId))
  timed := by
    refine ⟨fun row hrow => ?_, fun chunk hchunk => ?_, fun row hrow => ?_⟩
    · have hwritten : row ∈ next.store.index := hrow
      rw [hindex] at hwritten
      rcases mem_indexSummary hwritten with hold | ⟨-, -, -, hts⟩
      · exact h.timed.rows row hold
      · exact hts ▸ hnow
    · exact h.timed.chunks chunk (hchunks ▸ (hdb ▸ hchunk : chunk ∈ db.chunks))
    · obtain ⟨old, hold, hsealed⟩ := mem_insertSealed (hsum ▸ (hdb ▸ hrow : row ∈ db.summaries))
      rw [SummaryNode.SealedAs] at hsealed
      rw [hsealed]
      rcases hold with hold | rfl
      · exact h.timed.summaries old hold
      · exact hnode
  inputs := by
    intro run hrun
    obtain ⟨old, hold, heq⟩ := hinputs run hrun
    rw [heq]
    exact h.inputs old hold

theorem Sound.score (h : Sound c) (result : ScoreResult) {timestampMs : Int} (hts : IsUtc timestampMs)
    (treeId : Option String) : Sound (c.persistScore result timestampMs treeId) where
  keyed := keyed_call h.keyed (.persistScore result timestampMs treeId)
  timed := by
    refine ⟨fun row hrow => ?_, h.timed.chunks, h.timed.summaries⟩
    rcases mem_persistScore hrow with ⟨hold, -⟩ | ⟨-, -, -, hrowTs⟩
    · exact h.timed.rows row hold
    · exact hrowTs ▸ hts
  inputs := h.inputs

theorem Sound.withChunks (h : Sound c) {chunks : List Chunk}
    (hchunks : ∀ chunk ∈ chunks, IsUtcRange (chunk.timeRangeStartMs, chunk.timeRangeEndMs)) :
    Sound (c.withChunks chunks) := ⟨h.keyed, ⟨h.timed.rows, hchunks, h.timed.summaries⟩, h.inputs⟩

theorem Sound.scheduleOne (h : Sound c) {prior : List Chunk} {staged : Staged} (hts : IsUtc staged.chunk.timestampMs)
    (hnext : c.scheduleOne prior staged = .ok next) : Sound next := by
  rw [Corpus.scheduleOne] at hnext
  split_ifs at hnext
  · dsimp only at hnext
    obtain ⟨chunks, hchunks, hfound⟩ := bind_ok_iff.mp hnext
    rw [← Except.ok.inj hfound]
    have hscored := h.score staged.result hts none
    refine hscored.withChunks fun chunk hchunk => ?_
    obtain ⟨old, hold, rfl | ⟨status, rfl⟩⟩ := mem_setChunkLifecycleStatus hchunks hchunk
    · exact hscored.timed.chunks _ hold
    · exact hscored.timed.chunks old hold
  · rw [← Except.ok.inj hnext]
    exact h

theorem Sound.ingest (h : Sound c) {staged : List Staged} (hdated : Dated (.ingest staged))
    (hnext : c.ingest staged = .ok next) : Sound next := by
  have hstart : Sound (c.withChunks (upsertStagedChunks (staged.map Staged.chunk) c.db.chunks).1) := by
    refine h.withChunks fun chunk hchunk => ?_
    rcases mem_upsertStagedChunks hchunk with hold | ⟨row, hrow, status, rfl⟩
    · exact h.timed.chunks chunk hold
    · obtain ⟨s, hs, rfl⟩ := List.mem_map.mp hrow
      exact (hdated s hs).2
  rw [Corpus.ingest] at hnext
  generalize c.withChunks (upsertStagedChunks (staged.map Staged.chunk) c.db.chunks).1 = start at hstart hnext
  generalize c.db.chunks = prior at hnext
  induction staged generalizing start with
  | nil =>
      rw [← Except.ok.inj hnext]
      exact hstart
  | cons s staged ih =>
      rw [List.foldlM_cons, bind_ok_iff] at hnext
      obtain ⟨mid, hmid, hrest⟩ := hnext
      have hs := hdated s List.mem_cons_self
      exact ih (fun s hs => hdated s (List.mem_cons_of_mem _ hs)) mid (hstart.scheduleOne hs.1 hmid) hrest

/-- A dated step leaves everything in range. -/
theorem Sound.advance (h : Sound c) (label : Corpus.Label) (hdated : Dated label) : Sound (c.advance config label) := by
  cases label with
  | ingest staged =>
      cases hnext : c.ingest staged with
      | error error => rw [Corpus.advance, hnext]; exact h
      | ok next => rw [Corpus.advance, hnext]; exact h.ingest hdated hnext
  | score result timestampMs treeId => exact h.score result hdated treeId
  | append treeId level itemId tokenDelta itemTs =>
      obtain ⟨hchunks, hsum, hseals⟩ := append_frame c.world treeId level itemId tokenDelta itemTs
      refine ⟨h.keyed, ⟨h.timed.rows, ?_, ?_⟩, ?_⟩
      · exact fun chunk hchunk => h.timed.chunks chunk (hchunks ▸ hchunk)
      · exact fun node hnode => h.timed.summaries node (hsum ▸ hnode)
      · exact fun run hrun => h.inputs run (hseals ▸ hrun)
  | snapshot treeId level =>
      rw [Corpus.advance, World.snapshot]
      cases hinputs : sealInputs c.world.db (c.world.db.getBuffer treeId level) with
      | error error => exact h
      | ok inputs =>
          refine ⟨h.keyed, ⟨h.timed.rows, h.timed.chunks, h.timed.summaries⟩, fun run hrun => ?_⟩
          rcases List.mem_append.mp hrun with hold | hnew
          · exact h.inputs run hold
          · rw [List.mem_singleton.mp hnew]
            rw [sealInputs] at hinputs
            split_ifs at hinputs
            rw [← Except.ok.inj hinputs]
            exact isUtc_hydrate h.timed _ _
  | commit i summaryId tokenCount entityIds nowMs enqueueFollowUps =>
      rw [Corpus.advance]
      cases hrun : c.world.seals[i]? with
      | none => exact h
      | some run =>
          have hsame : ∀ phase, ∀ other ∈ c.world.seals.set i { run with phase := phase },
              ∃ old ∈ c.world.seals, other.inputs = old.inputs := by
            intro phase other hother
            rcases List.mem_or_eq_of_mem_set hother with hold | rfl
            · exact ⟨other, hold, rfl⟩
            · exact ⟨run, List.mem_of_getElem? hrun, rfl⟩
          dsimp only
          by_cases hphase : run.phase = SealPhase.summarising
          · rw [if_pos hphase]
            rcases commit_cases config c i run summaryId tokenCount entityIds nowMs enqueueFollowUps with
              ⟨htables, phase, hseals⟩ | ⟨db, hchunks, hsum, hnext⟩
            · have hindex : (c.commit config i run summaryId tokenCount entityIds nowMs enqueueFollowUps).store.index =
                c.store.index := congrArg TopicTables.index htables
              refine ⟨hindex ▸ h.keyed, htables ▸ h.timed, fun other hother => ?_⟩
              obtain ⟨old, hold, heq⟩ := hsame phase other (hseals ▸ hother)
              rw [heq]
              exact h.inputs old hold
            · rw [hnext]
              have hnode := isUtc_envelope (h.inputs run (List.mem_of_getElem? hrun)) hdated
              exact h.indexNode run.snapshot.level hchunks hsum hnode hdated rfl rfl (hsame _)
          · rw [if_neg hphase]
            exact h
  | direct input summaryId entityIds nowMs =>
      cases hnext : ingestSummary input summaryId nowMs c.db with
      | error error => rw [Corpus.advance, hnext]; exact h
      | ok db =>
          rw [Corpus.advance, hnext]
          obtain ⟨hchunks, hsum⟩ := ingestSummary_frame hnext
          exact h.indexNode 0 hchunks hsum hdated.1 hdated.2 rfl rfl fun run hrun => ⟨run, hrun, rfl⟩
  | sealChildren doc level childIds minted entityIds =>
      cases hnext : sealExplicitChildren config doc level childIds minted c.db with
      | error error => rw [Corpus.advance, hnext]; exact h
      | ok result =>
          obtain ⟨db, node⟩ := result
          rw [Corpus.advance, hnext]
          obtain ⟨rfl, rfl⟩ := sealExplicitChildren_ok hnext
          have hnode := isUtc_envelope (isUtc_hydrate h.timed level childIds) hdated
          exact h.indexNode level (insertSealed_frame level _ c.db).2.2 rfl hnode hdated rfl rfl
            fun run hrun => ⟨run, hrun, rfl⟩

end Sound

/-! ### Runs -/

section Runs

variable {config : TreeConfig} {trees : List (String × TreeKind × String)} {labels : List Corpus.Label}
variable {entityId : String} {sinceMs untilMs : Option Int}

theorem sound_empty (trees : List (String × TreeKind × String)) : Sound (Corpus.empty trees) where
  keyed := List.nodup_nil
  timed := by
    refine ⟨fun _ h => ?_, fun _ h => ?_, fun _ h => ?_⟩
    all_goals exact absurd h List.not_mem_nil
  inputs _ h := absurd h List.not_mem_nil

theorem sound_run (hdated : (indexing config trees).AllSteps (fun _ => Dated) labels) :
    Sound ((indexing config trees).run labels) :=
  (indexing config trees).invariant_of_steps (sound_empty trees) (fun _ label h hd => h.advance label hd) hdated

theorem stamped_run (htimely : (indexing config trees).AllSteps (Timely config entityId sinceMs untilMs) labels) :
    Stamped entityId sinceMs untilMs ((indexing config trees).run labels) := by
  apply (indexing config trees).invariant_of_steps _ _ htimely
  · exact fun _ h => absurd h List.not_mem_nil
  · exact fun _ label h ht => h.advance label ht

theorem Stamped.rowsInStep {c : Corpus} (h : Stamped (Text.trim entityId) sinceMs untilMs c) :
    RowsInStep c.tables entityId sinceMs untilMs := by
  intro row hrow hit hhit hoverlaps
  obtain ⟨-, hindex, hentity⟩ := mem_topicRows.mp hrow
  exact (h row hindex hentity).2 _ (rowRange_of_resolve hhit) hoverlaps

/-- Where no limit cuts a query short, the query with a window returns the hits of the query without one that meet the
window: in every state of a run whose steps are timely, and elsewhere exactly when the rows are in step. -/
theorem queryTopic_narrows {ρ σ : Type*} (embedder : Embedder ρ σ) (policy : RetrievalPolicy) (config : TreeConfig)
    (trees : List (String × TreeKind × String)) (labels : List Corpus.Label)
    (hdated : (indexing config trees).AllSteps (fun _ => Dated) labels) (entityId : String)
    (sinceMs untilMs : Option Int) :
    ((indexing config trees).AllSteps (Timely config (Text.trim entityId) sinceMs untilMs) labels →
      (indexing config trees).Throughout (fun c => ∀ query limit all,
        TopicComplete embedder policy c.tables entityId query limit all →
          Narrows embedder policy c.tables entityId sinceMs untilMs query limit all) labels) ∧
    (indexing config trees).Throughout (fun c => ∀ query limit all,
      TopicComplete embedder policy c.tables entityId query limit all →
        (Narrows embedder policy c.tables entityId sinceMs untilMs query limit all ↔
          RowsInStep c.tables entityId sinceMs untilMs)) labels := by
  have hexact : (indexing config trees).Throughout (fun c => ∀ query limit all,
      TopicComplete embedder policy c.tables entityId query limit all →
        (Narrows embedder policy c.tables entityId sinceMs untilMs query limit all ↔
          RowsInStep c.tables entityId sinceMs untilMs)) labels := by
    intro done hdone query limit all hcomplete
    have hsound := sound_run (Machine.AllSteps.of_prefix _ hdated hdone)
    exact narrows_iff hsound.keyed hsound.timed hcomplete
  refine ⟨fun htimely done hdone query limit all hcomplete => ?_, hexact⟩
  apply (hexact done hdone query limit all hcomplete).mpr
  exact (stamped_run (Machine.AllSteps.of_prefix _ htimely hdone)).rowsInStep

/-- A message that mentions a topic, sealed a month later. -/
def launchSteps : List Corpus.Label :=
  [.ingest [⟨⟨"leaf-1", .chat, "slack:#eng", none, 1000, 1000, 1000, 50000, 0, .pendingExtraction⟩, true,
      [⟨"topic:launch", "topic", "launch"⟩]⟩],
    .append "tree-1" 0 "leaf-1" 50000 1000,
    .snapshot "tree-1" 0,
    .commit 0 "summary-1" 100 ["topic:launch"] (30 * dayMs) true]

def launchMachine : Machine Corpus Corpus.Label := indexing ⟨50000, 5000, 10⟩ [("tree-1", .source, "slack:#eng")]

def launchRow : IndexRow :=
  ⟨"topic:launch", "summary-1", "summary", "topic", "topic:launch", 30 * dayMs, some "tree-1"⟩

def launchSummary : RetrievalHit := ⟨"summary-1", .summary, "tree-1", "slack:#eng", 1, 1000, 1000, ["leaf-1"]⟩

theorem dated_launch : launchMachine.AllSteps (fun _ => Dated) launchSteps :=
  launchMachine.allSteps_iff_stepsFrom.mpr (by decide)

theorem timely_launch : launchMachine.AllSteps
    (Timely ⟨50000, 5000, 10⟩ (Text.trim "topic:launch") (some 0) (some (31 * dayMs))) launchSteps := by
  refine launchMachine.allSteps_iff_stepsFrom.mpr ⟨?_, trivial, trivial, fun _ _ _ _ => ?_, trivial⟩
  · intro last hlast _
    rw [List.mem_singleton.mp hlast, StagesTimely, if_pos (by decide)]
    intro _ _
    decide
  · decide

/-- A window as long as the run narrows the query in every state of it. -/
theorem queryTopic_narrows_launch : launchMachine.Throughout (fun c => ∀ query limit all,
    TopicComplete inert .default c.tables "topic:launch" query limit all →
      Narrows inert .default c.tables "topic:launch" (some 0) (some (31 * dayMs)) query limit all) launchSteps :=
  (queryTopic_narrows inert .default _ _ launchSteps dated_launch "topic:launch" (some 0) (some (31 * dayMs))).1
    timely_launch

/-- The summary of the message has its range in the first day and its row a month later, so the query for the first day
does not return it. -/
theorem launch_sealed_late : launchMachine.AllSteps (fun _ => Dated) launchSteps ∧
    ∃ all, TopicComplete inert .default (launchMachine.run launchSteps).tables "topic:launch" none 10 all ∧
      ¬Narrows inert .default (launchMachine.run launchSteps).tables "topic:launch" (some 0) (some dayMs) none 10
        all := by
  have hsound : Sound (launchMachine.run launchSteps) := sound_run dated_launch
  have hrows : (topicRows (launchMachine.run launchSteps).tables.index "topic:launch").length ≤
      RetrievalPolicy.default.topicLookupCap := by decide
  refine ⟨dated_launch, ?_⟩
  obtain ⟨-, hits, hperm, hanswer⟩ | ⟨⟨row, hrow, hbad⟩, -⟩ :=
    queryTopic_cases inert none none none 10 hsound.keyed hrows
  · have htotal : hits.length ≤ RetrievalPolicy.default.resultLimit 10 := by
      rw [hperm.length_eq]
      decide
    have hcomplete : TopicComplete inert .default (launchMachine.run launchSteps).tables "topic:launch" none 10 _ :=
      ⟨hanswer, hrows, htotal⟩
    refine ⟨_, hcomplete, fun h => ?_⟩
    have hstep := (narrows_iff hsound.keyed hsound.timed hcomplete).mp h launchRow (by decide) launchSummary (by decide)
    revert hstep
    decide
  · have hkinds : ∀ row ∈ windowRows (launchMachine.run launchSteps).tables.index "topic:launch" none none,
        row.entityKind ∈ entityKinds := by decide
    exact absurd (hkinds row hrow) hbad

end Runs

end TinyCortex.Retrieval
