import TinyCortex.Chunks.Store
import TinyCortex.Tree.Store

/-! Chunk deletion (`chunks/store_delete.rs`): by source, source-id prefix, owner or id, with the ingest
gates, raw archive files and source trees that it takes along; the sweep of an orphaned source tree; and
the purge of the whole tier. The transaction and the file removal after it are one step. Score, entity and
embedding rows, which nothing here reads, are left out. -/

namespace TinyCortex.Chunks

open Table SummaryTree

/-- The `raw_refs_json` column: empty, or the paths of its references, or a value that does not parse. -/
inductive RawRefs
  | empty
  | paths (list : List String)
  | corrupt
  deriving DecidableEq, Repr

def RawRefs.toPaths : RawRefs → List String
  | .paths list => list
  | .empty | .corrupt => []

/-- The columns of a chunk row that listing and sealing do not read. -/
structure ChunkColumns where
  owner : String
  contentPath : Option String
  rawRefs : RawRefs
  deriving DecidableEq, Repr

/-- The tables and files that a deletion touches. The further columns of chunk and summary rows are kept
by id; raw-file gates are the ingest gates of kind `raw_file`. A file is known by the components of its
place under the content root. -/
structure Store where
  db : SummaryTree.Db
  columns : String → ChunkColumns
  summaryPath : String → Option String
  ingested : List IngestedSource
  rawGates : List String
  files : List (List String)

inductive DeleteFilter
  | exactSource (sourceId : String)
  | sourcePrefix (start : String)
  | owner (name : String)
  | chunk (chunkId : String)
  deriving DecidableEq, Repr

/-- `substr(source_id, 1, length(?2)) = ?2`. -/
def startsWith (start sourceId : String) : Bool := start.toList.isPrefixOf sourceId.toList

/-- The rows a filter selects; the id filter alone ignores the kind. -/
def DeleteFilter.selects (filter : DeleteFilter) (sourceKind : SourceKind)
    (columns : String → ChunkColumns) (chunk : Chunk) : Bool :=
  match filter with
  | .exactSource sourceId => chunk.sourceKind == sourceKind && chunk.sourceId == sourceId
  | .sourcePrefix start => chunk.sourceKind == sourceKind && startsWith start chunk.sourceId
  | .owner name => chunk.sourceKind == sourceKind && (columns chunk.id).owner == name
  | .chunk chunkId => chunk.id == chunkId

/-- `COALESCE(path_scope, source_id)`. -/
def effectiveScope (chunk : Chunk) : String := chunk.pathScope.getD chunk.sourceId

/-- The components of a relative path: empty and `.` ones are skipped. -/
def fileAt (path : String) : List String :=
  ((path.toList.splitOn '/').map String.ofList).filter fun part => part != "" && part != "."

/-- A path with a `..` component or an absolute one is refused. -/
def escapes (path : String) : Bool := path.toList.head? == some '/' || (fileAt path).contains ".."

def removeChunkContentFiles (contentPaths : List String) (files : List (List String)) :
    List (List String) :=
  files.filter fun file => !contentPaths.any fun path => !escapes path && fileAt path == file

/-- The content paths of the rows, as far as they have one. -/
def chunkPaths (columns : String → ChunkColumns) (chunks : List Chunk) : List String :=
  (chunks.filterMap fun chunk => (columns chunk.id).contentPath).filter fun path => path ≠ ""

def rawPaths (columns : String → ChunkColumns) (chunks : List Chunk) : List String :=
  chunks.flatMap fun chunk => (columns chunk.id).rawRefs.toPaths

/-- The raw files that go with the deleted rows: those that no survivor references, and none at all when
the references of a survivor cannot be read. -/
def orphanedRawPaths (columns : String → ChunkColumns) (deleted survivors : List Chunk) : List String :=
  if survivors.any fun chunk => (columns chunk.id).rawRefs == .corrupt then []
  else (rawPaths columns deleted).filter (· ∉ rawPaths columns survivors)

/-- Delete the gates of sources without chunks, then those that the filter names itself. -/
def clearGates (sourceKind : SourceKind) (filter : DeleteFilter) (deleted survivors : List Chunk)
    (ingested : List IngestedSource) : List IngestedSource :=
  let kept := ingested.filter fun gate => !(gate.sourceKind == sourceKind &&
    decide (gate.sourceId ∈ deleted.map Chunk.sourceId) && !survivors.any fun chunk =>
      chunk.sourceKind == gate.sourceKind && chunk.sourceId == gate.sourceId)
  match filter with
  | .exactSource sourceId =>
      kept.filter fun gate => !(gate.sourceKind == sourceKind && gate.sourceId == sourceId)
  | .sourcePrefix start =>
      kept.filter fun gate => !(gate.sourceKind == sourceKind && startsWith start gate.sourceId)
  | .owner _ | .chunk _ => kept

/-- Delete a tree and its dependent rows; the content paths of its summaries. -/
def deleteTreeCascade (summaryPath : String → Option String) (treeId : String) (db : SummaryTree.Db) :
    SummaryTree.Db × List String :=
  ({ db with
      summaries := db.summaries.filter fun s => s.treeId ≠ treeId
      buffers := db.buffers.filter fun buf => buf.treeId ≠ treeId
      trees := db.trees.filter fun tree => tree.id ≠ treeId },
    (((db.summaries.filter fun s => s.treeId == treeId).filterMap fun s => summaryPath s.id).filter
      fun path => path ≠ ""))

/-- The source tree of a scope goes when no chunk of the kind has the scope any more. -/
def sweepScope (summaryPath : String → Option String) (sourceKind : SourceKind)
    (swept : SummaryTree.Db × List String) (scope : String) : SummaryTree.Db × List String :=
  if swept.1.chunks.any fun chunk => chunk.sourceKind == sourceKind && effectiveScope chunk == scope then
    swept
  else
    match getTreeByScope swept.1 .source scope with
    | none => swept
    | some tree =>
        let cascade := deleteTreeCascade summaryPath tree.id swept.1
        (cascade.1, swept.2 ++ cascade.2)

/-- Delete the rows that the filter selects; the number of rows deleted. -/
def deleteChunksBySourceFilter (sourceKind : SourceKind) (filter : DeleteFilter) (store : Store) :
    Store × Nat :=
  let deleted := store.db.chunks.filter (filter.selects sourceKind store.columns)
  let survivors := store.db.chunks.filter fun chunk => !filter.selects sourceKind store.columns chunk
  let orphanedRaw := orphanedRawPaths store.columns deleted survivors
  let swept := (deleted.map effectiveScope).dedup.foldl (sweepScope store.summaryPath sourceKind)
    ({ store.db with chunks := survivors }, [])
  ({ store with
      db := swept.1
      ingested := clearGates sourceKind filter deleted survivors store.ingested
      rawGates := store.rawGates.filter (· ∉ orphanedRaw)
      files := removeChunkContentFiles (chunkPaths store.columns deleted ++ orphanedRaw ++ swept.2)
        store.files },
    deleted.length)

/-- Delete one chunk, under the kind its row has. -/
def deleteChunkById (chunkId : String) (store : Store) : Store × Nat :=
  match store.db.getChunk chunkId with
  | none => (store, 0)
  | some chunk => deleteChunksBySourceFilter chunk.sourceKind (.chunk chunkId) store

/-- Remove stale gates and a source-scoped tree once no chunks remain. -/
def deleteOrphanedSourceTree (sourceKind : SourceKind) (sourceId : String) (store : Store) :
    Store × Bool :=
  if store.db.chunks.any fun chunk => chunk.sourceKind == sourceKind && chunk.sourceId == sourceId then
    (store, false)
  else
    let ingested := store.ingested.filter fun gate => !(gate.sourceKind == sourceKind &&
      (gate.sourceId == sourceId || startsWith (sourceId ++ "@") gate.sourceId))
    match getTreeByScope store.db .source sourceId with
    | none => ({ store with ingested := ingested }, false)
    | some tree =>
        let cascade := deleteTreeCascade store.summaryPath tree.id store.db
        ({ store with
            db := cascade.1
            ingested := ingested
            files := removeChunkContentFiles cascade.2 store.files }, true)

/-- Empty the chunk tier. -/
def purgeAll (store : Store) : Store :=
  { store with
    db := ⟨[], [], [], []⟩
    ingested := []
    rawGates := []
    files := removeChunkContentFiles
      (chunkPaths store.columns store.db.chunks ++
        (store.db.summaries.filterMap fun s => store.summaryPath s.id).filter (· ≠ "") ++
        rawPaths store.columns store.db.chunks) store.files }

/-- A call on the deletion API. -/
inductive DeleteRequest
  | bySource (sourceKind : SourceKind) (sourceId : String)
  | bySourcePrefix (sourceKind : SourceKind) (start : String)
  | byOwner (sourceKind : SourceKind) (owner : String)
  | byId (chunkId : String)
  | orphanedTree (sourceKind : SourceKind) (sourceId : String)
  | purge
  deriving DecidableEq, Repr

def DeleteRequest.run (request : DeleteRequest) (store : Store) : Store :=
  match request with
  | .bySource kind sourceId => (deleteChunksBySourceFilter kind (.exactSource sourceId) store).1
  | .bySourcePrefix kind start => (deleteChunksBySourceFilter kind (.sourcePrefix start) store).1
  | .byOwner kind owner => (deleteChunksBySourceFilter kind (.owner owner) store).1
  | .byId chunkId => (deleteChunkById chunkId store).1
  | .orphanedTree kind sourceId => (deleteOrphanedSourceTree kind sourceId store).1
  | .purge => purgeAll store

/-- The rows that a request deletes. -/
def DeleteRequest.selects (request : DeleteRequest) (store : Store) (chunk : Chunk) : Bool :=
  match request with
  | .bySource kind sourceId => (DeleteFilter.exactSource sourceId).selects kind store.columns chunk
  | .bySourcePrefix kind start => (DeleteFilter.sourcePrefix start).selects kind store.columns chunk
  | .byOwner kind owner => (DeleteFilter.owner owner).selects kind store.columns chunk
  | .byId chunkId => chunk.id == chunkId
  | .orphanedTree _ _ => false
  | .purge => true

/-! ### What a sweep takes -/

/-- The primary key and the unique columns of the tree table. -/
structure TreesKeyed (db : SummaryTree.Db) : Prop where
  ids : (db.trees.map Tree.id).Nodup
  scopes : (db.trees.map Tree.scoped).Nodup

/-- A sweep deletes the doomed trees with their summaries and buffers, and nothing else; `paths` are the
bodies of the summaries it deleted. -/
structure Takes (summaryPath : String → Option String) (doomed : Tree → Prop)
    (db next : SummaryTree.Db) (paths : List String) : Prop where
  chunks : next.chunks = db.chunks
  sublist : next.trees.Sublist db.trees
  trees : ∀ tree, tree ∈ next.trees ↔ tree ∈ db.trees ∧ ¬doomed tree
  summaries : ∀ s, s ∈ next.summaries ↔ s ∈ db.summaries ∧
    ∀ tree ∈ db.trees, doomed tree → s.treeId ≠ tree.id
  buffers : ∀ buf, buf ∈ next.buffers ↔ buf ∈ db.buffers ∧
    ∀ tree ∈ db.trees, doomed tree → buf.treeId ≠ tree.id
  kept : ∀ treeId, (∀ tree ∈ db.trees, doomed tree → treeId ≠ tree.id) → ∀ level,
    next.getBuffer treeId level = db.getBuffer treeId level
  paths : ∀ path, path ∈ paths ↔ ∃ tree ∈ db.trees, doomed tree ∧ ∃ s ∈ db.summaries,
    s.treeId = tree.id ∧ summaryPath s.id = some path ∧ path ≠ ""

section Sweep

variable {summaryPath : String → Option String} {doomed doomed' : Tree → Prop}
  {db mid next : SummaryTree.Db} {paths paths' : List String}

theorem TreesKeyed.of_sublist (h : TreesKeyed db) (hsub : next.trees.Sublist db.trees) :
    TreesKeyed next :=
  ⟨h.ids.sublist (hsub.map _), h.scopes.sublist (hsub.map _)⟩

theorem Takes.refl (hdoomed : ∀ tree ∈ db.trees, ¬doomed tree) :
    Takes summaryPath doomed db db [] where
  chunks := rfl
  sublist := List.Sublist.refl _
  trees := fun tree => ⟨fun h => ⟨h, hdoomed tree h⟩, And.left⟩
  summaries := fun _ => ⟨fun h => ⟨h, fun tree htree hd => absurd hd (hdoomed tree htree)⟩, And.left⟩
  buffers := fun _ => ⟨fun h => ⟨h, fun tree htree hd => absurd hd (hdoomed tree htree)⟩, And.left⟩
  kept := fun _ _ _ => rfl
  paths := fun _ => ⟨fun h => absurd h List.not_mem_nil,
    fun ⟨tree, htree, hd, _⟩ => absurd hd (hdoomed tree htree)⟩

theorem takes_cascade (hkeyed : TreesKeyed db) {tree : Tree} (htree : tree ∈ db.trees) :
    Takes summaryPath (· = tree) db (deleteTreeCascade summaryPath tree.id db).1
      (deleteTreeCascade summaryPath tree.id db).2 where
  chunks := rfl
  sublist := List.filter_sublist
  trees := by
    intro other
    rw [deleteTreeCascade, List.mem_filter, decide_eq_true_iff]
    refine and_congr_right fun hother => not_congr ⟨fun hid => ?_, congrArg Tree.id⟩
    exact eq_of_pk_eq hkeyed.ids hother htree hid
  summaries := by
    intro s
    rw [deleteTreeCascade, List.mem_filter, decide_eq_true_iff]
    exact and_congr_right fun _ => ⟨fun h other _ heq => heq ▸ h, fun h => h tree htree rfl⟩
  buffers := by
    intro buf
    rw [deleteTreeCascade, List.mem_filter, decide_eq_true_iff]
    exact and_congr_right fun _ => ⟨fun h other _ heq => heq ▸ h, fun h => h tree htree rfl⟩
  kept := by
    intro treeId hother level
    rw [Db.getBuffer, deleteTreeCascade, lookup_filter_of_keep, ← Db.getBuffer]
    intro buf _ hkey
    exact decide_eq_true fun heq => hother tree htree rfl ((congrArg Prod.fst hkey).symm.trans heq)
  paths := by
    intro path
    rw [deleteTreeCascade, List.mem_filter, List.mem_filterMap, decide_eq_true_iff]
    constructor
    · rintro ⟨⟨s, hs, hpath⟩, hne⟩
      obtain ⟨hs, hid⟩ := List.mem_filter.mp hs
      exact ⟨tree, htree, rfl, s, hs, beq_iff_eq.mp hid, hpath, hne⟩
    · rintro ⟨other, -, rfl, s, hs, hid, hpath, hne⟩
      exact ⟨⟨s, List.mem_filter.mpr ⟨hs, beq_iff_eq.mpr hid⟩, hpath⟩, hne⟩

theorem Takes.congr (h : Takes summaryPath doomed db next paths)
    (heq : ∀ tree ∈ db.trees, doomed tree ↔ doomed' tree) :
    Takes summaryPath doomed' db next paths where
  chunks := h.chunks
  sublist := h.sublist
  trees := fun tree => (h.trees tree).trans (and_congr_right fun hmem => not_congr (heq tree hmem))
  summaries := fun s => (h.summaries s).trans (and_congr_right fun _ =>
    forall₂_congr fun tree hmem => imp_congr_left (heq tree hmem))
  buffers := fun buf => (h.buffers buf).trans (and_congr_right fun _ =>
    forall₂_congr fun tree hmem => imp_congr_left (heq tree hmem))
  kept := fun treeId hother => h.kept treeId fun tree hmem hd =>
    hother tree hmem ((heq tree hmem).mp hd)
  paths := fun path => (h.paths path).trans (exists_congr fun tree =>
    and_congr_right fun hmem => and_congr_left fun _ => heq tree hmem)

/-- Rows of a tree that an earlier sweep left are rows it found. -/
theorem Takes.row_left {Row : Type} {treeId : Row → String} {row : Row} {rows left : List Row}
    (hkeyed : TreesKeyed db) (h : Takes summaryPath doomed db mid paths)
    (hrows : row ∈ left ↔ row ∈ rows ∧ ∀ tree ∈ db.trees, doomed tree → treeId row ≠ tree.id)
    {tree : Tree} (htree : tree ∈ mid.trees) (hid : treeId row = tree.id) :
    row ∈ left ↔ row ∈ rows := by
  obtain ⟨hmem, hdoomed⟩ := (h.trees tree).mp htree
  refine hrows.trans (and_iff_left fun other hother hd heq => ?_)
  exact hdoomed (eq_of_pk_eq hkeyed.ids hother hmem (heq.symm.trans hid) ▸ hd)

theorem Takes.trans (hkeyed : TreesKeyed db) (h : Takes summaryPath doomed db mid paths)
    (h' : Takes summaryPath doomed' mid next paths') :
    Takes summaryPath (fun tree => doomed tree ∨ doomed' tree) db next (paths ++ paths') := by
  have hdoomed : ∀ tree ∈ db.trees, (doomed tree ∨ doomed' tree) →
      doomed tree ∨ (tree ∈ mid.trees ∧ doomed' tree) := by
    intro tree htree hd
    by_cases hfirst : doomed tree
    · exact Or.inl hfirst
    · exact Or.inr ⟨(h.trees tree).mpr ⟨htree, hfirst⟩, hd.resolve_left hfirst⟩
  have hrows : ∀ id : String, (∀ tree ∈ db.trees, doomed tree ∨ doomed' tree → id ≠ tree.id) ↔
      (∀ tree ∈ db.trees, doomed tree → id ≠ tree.id) ∧
        ∀ tree ∈ mid.trees, doomed' tree → id ≠ tree.id := by
    intro id
    constructor
    · intro hall
      exact ⟨fun tree htree hd => hall tree htree (Or.inl hd),
        fun tree htree hd => hall tree (h.sublist.subset htree) (Or.inr hd)⟩
    · rintro ⟨hfirst, hsecond⟩ tree htree hd
      rcases hdoomed tree htree hd with hd | ⟨hmid, hd⟩
      · exact hfirst tree htree hd
      · exact hsecond tree hmid hd
  refine ⟨h'.chunks.trans h.chunks, h'.sublist.trans h.sublist, fun tree => ?_, fun s => ?_,
    fun buf => ?_, fun treeId hother level => ?_, fun path => ?_⟩
  · rw [h'.trees, h.trees, not_or, and_assoc]
  · rw [h'.summaries, h.summaries, hrows, and_assoc]
  · rw [h'.buffers, h.buffers, hrows, and_assoc]
  · obtain ⟨hfirst, hsecond⟩ := (hrows treeId).mp hother
    rw [h'.kept treeId hsecond, h.kept treeId hfirst]
  · rw [List.mem_append, h.paths, h'.paths]
    constructor
    · rintro (⟨tree, htree, hd, hpath⟩ | ⟨tree, htree, hd, s, hs, hpath⟩)
      · exact ⟨tree, htree, Or.inl hd, hpath⟩
      · exact ⟨tree, h.sublist.subset htree, Or.inr hd, s, ((h.summaries s).mp hs).1, hpath⟩
    · rintro ⟨tree, htree, hd, s, hs, hid, hpath⟩
      rcases hdoomed tree htree hd with hd | ⟨hmid, hd⟩
      · exact Or.inl ⟨tree, htree, hd, s, hs, hid, hpath⟩
      · exact Or.inr ⟨tree, hmid, hd, s, (h.row_left hkeyed (h.summaries s) hmid hid).mpr hs, hid,
          hpath⟩

/-- The sweep takes the source tree of a scope that no chunk of the kind has. -/
def Swept (sourceKind : SourceKind) (chunks : List Chunk) (scopes : List String) (tree : Tree) : Prop :=
  tree.kind = .source ∧ tree.scope ∈ scopes ∧
    ∀ chunk ∈ chunks, chunk.sourceKind = sourceKind → effectiveScope chunk ≠ tree.scope

theorem sweepScope_takes (summaryPath : String → Option String) (sourceKind : SourceKind)
    (paths : List String) (hkeyed : TreesKeyed db) (scope : String) :
    ∃ found, (sweepScope summaryPath sourceKind (db, paths) scope).2 = paths ++ found ∧
      Takes summaryPath (Swept sourceKind db.chunks [scope]) db
        (sweepScope summaryPath sourceKind (db, paths) scope).1 found := by
  have hany : (db.chunks.any fun chunk => chunk.sourceKind == sourceKind &&
      effectiveScope chunk == scope) = true ↔
      ∃ chunk ∈ db.chunks, chunk.sourceKind = sourceKind ∧ effectiveScope chunk = scope := by
    simp
  unfold sweepScope
  dsimp only
  split_ifs with hleft
  · obtain ⟨chunk, hchunk, hkind, hscope⟩ := hany.mp hleft
    refine ⟨[], (List.append_nil _).symm, Takes.refl fun tree _ hswept => ?_⟩
    exact hswept.2.2 chunk hchunk hkind (hscope.trans (List.mem_singleton.mp hswept.2.1).symm)
  · have hnone := fun hex => hleft (hany.mpr hex)
    cases htree : getTreeByScope db .source scope with
    | none =>
        refine ⟨[], (List.append_nil _).symm, Takes.refl fun tree hmem hswept => ?_⟩
        have hfound := getTreeByScope_of_mem hkeyed.scopes hmem
        rw [hswept.1, List.mem_singleton.mp hswept.2.1, htree] at hfound
        cases hfound
    | some tree =>
        obtain ⟨hmem, hkind, hscope⟩ := getTreeByScope_some htree
        refine ⟨_, rfl, (takes_cascade hkeyed hmem).congr fun other hother => ?_⟩
        constructor
        · rintro rfl
          refine ⟨hkind, List.mem_singleton.mpr hscope, fun chunk hchunk hk heq => ?_⟩
          exact hnone ⟨chunk, hchunk, hk, heq.trans hscope⟩
        · intro hswept
          have hscope' := List.mem_singleton.mp hswept.2.1
          exact eq_of_pk_eq hkeyed.scopes hother hmem
            (Prod.ext (hswept.1.trans hkind.symm) (hscope'.trans hscope.symm))

theorem foldl_sweepScope_takes (summaryPath : String → Option String) (sourceKind : SourceKind)
    (paths : List String) (hkeyed : TreesKeyed db) (scopes : List String) :
    ∃ found, (scopes.foldl (sweepScope summaryPath sourceKind) (db, paths)).2 = paths ++ found ∧
      Takes summaryPath (Swept sourceKind db.chunks scopes) db
        (scopes.foldl (sweepScope summaryPath sourceKind) (db, paths)).1 found := by
  induction scopes generalizing db paths with
  | nil =>
      refine ⟨[], (List.append_nil _).symm, Takes.refl fun tree _ hswept => ?_⟩
      exact absurd hswept.2.1 List.not_mem_nil
  | cons scope scopes ih =>
      obtain ⟨found, hfound, htakes⟩ := sweepScope_takes summaryPath sourceKind paths hkeyed scope
      obtain ⟨rest, hrest, htakes'⟩ := ih (paths ++ found) (hkeyed.of_sublist htakes.sublist)
      rw [List.foldl_cons]
      have hpair : sweepScope summaryPath sourceKind (db, paths) scope =
          ((sweepScope summaryPath sourceKind (db, paths) scope).1, paths ++ found) :=
        Prod.ext rfl hfound
      rw [hpair]
      refine ⟨found ++ rest, by rw [hrest, List.append_assoc],
        (htakes.trans hkeyed htakes').congr fun tree _ => ?_⟩
      rw [htakes.chunks, Swept, Swept, Swept, List.mem_singleton, List.mem_cons]
      tauto

end Sweep

end TinyCortex.Chunks
