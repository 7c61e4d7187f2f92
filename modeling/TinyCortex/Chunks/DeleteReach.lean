import TinyCortex.Chunks.Delete

/-! What a deletion may take along. A source tree belongs to its scope and a raw file to every row that
references it, whatever kind the chunks have; a request counts the survivors of one kind. -/

namespace TinyCortex.Chunks

open Table SummaryTree

/-- A deletion took nothing that the surviving chunks use: the source tree of the scope of a survivor is
whole, and the raw files that a survivor references are there if they were. -/
structure SparesNeeded (store next : Store) : Prop where
  trees : ∀ tree ∈ store.db.trees, tree.kind = .source →
    (∃ chunk ∈ next.db.chunks, effectiveScope chunk = tree.scope) →
    tree ∈ next.db.trees ∧
      (∀ s ∈ store.db.summaries, s.treeId = tree.id → s ∈ next.db.summaries) ∧
      ∀ buf ∈ store.db.buffers, buf.treeId = tree.id → buf ∈ next.db.buffers
  files : ∀ path ∈ rawPaths next.columns next.db.chunks, ¬escapes path →
    fileAt path ∈ store.files → fileAt path ∈ next.files

/-- No source tree among the doomed ones has the scope of a survivor. -/
def ScopesApart (store : Store) (survivors : List Chunk) (doomed : Tree → Prop) : Prop :=
  ∀ tree ∈ store.db.trees, tree.kind = .source → doomed tree →
    ∀ chunk ∈ survivors, effectiveScope chunk ≠ tree.scope

/-- No file that a survivor references is at a path to remove. -/
def FilesApart (store : Store) (survivors : List Chunk) (removed : String → Prop) : Prop :=
  ∀ raw ∈ rawPaths store.columns survivors, ¬escapes raw → fileAt raw ∈ store.files →
    ∀ path, removed path → ¬escapes path → fileAt path ≠ fileAt raw

/-- The body of a summary of a doomed tree. -/
def TreeBody (store : Store) (doomed : Tree → Prop) (path : String) : Prop :=
  ∃ tree ∈ store.db.trees, doomed tree ∧ ∃ s ∈ store.db.summaries, s.treeId = tree.id ∧
    store.summaryPath s.id = some path ∧ path ≠ ""

section Removal

variable {store next : Store} {survivors : List Chunk} {doomed : Tree → Prop}
  {others paths : List String}

theorem mem_removeChunkContentFiles {file : List String} {files : List (List String)} :
    file ∈ removeChunkContentFiles paths files ↔
      file ∈ files ∧ ∀ path ∈ paths, ¬escapes path → fileAt path ≠ file := by
  simp [removeChunkContentFiles]

/-- A deletion that takes the doomed trees and removes some paths with their bodies. -/
structure Deletes (store next : Store) (survivors : List Chunk) (doomed : Tree → Prop)
    (others : List String) : Prop where
  takes : ∃ paths, Takes store.summaryPath doomed { store.db with chunks := survivors } next.db paths ∧
    next.files = removeChunkContentFiles (others ++ paths) store.files
  columns : next.columns = store.columns

theorem Deletes.chunks (h : Deletes store next survivors doomed others) :
    next.db.chunks = survivors := by
  obtain ⟨paths, htakes, -⟩ := h.takes
  exact htakes.chunks

/-- Such a deletion spares what is needed exactly when neither its trees nor its paths are. -/
theorem Deletes.sparesNeeded_iff (hkeyed : TreesKeyed store.db)
    (h : Deletes store next survivors doomed others) :
    SparesNeeded store next ↔ ScopesApart store survivors doomed ∧
      FilesApart store survivors fun path => path ∈ others ∨ TreeBody store doomed path := by
  obtain ⟨paths, htakes, hfiles⟩ := h.takes
  have hremoved : ∀ path, path ∈ others ++ paths ↔ path ∈ others ∨ TreeBody store doomed path :=
    fun path => List.mem_append.trans (or_congr_right (htakes.paths path))
  constructor
  · intro hspares
    constructor
    · intro tree htree hkind hdoomed chunk hchunk hscope
      have hleft := (hspares.trees tree htree hkind ⟨chunk, h.chunks ▸ hchunk, hscope⟩).1
      exact ((htakes.trees tree).mp hleft).2 hdoomed
    · intro raw hraw hescapes hfile path hpath hescapes' heq
      rw [← h.chunks, ← h.columns] at hraw
      have hleft := hspares.files raw hraw hescapes hfile
      rw [hfiles, mem_removeChunkContentFiles] at hleft
      exact hleft.2 path ((hremoved path).mpr hpath) hescapes' heq
  · rintro ⟨hscopes, hapart⟩
    constructor
    · rintro tree htree hkind ⟨chunk, hchunk, hscope⟩
      rw [h.chunks] at hchunk
      have hstays : ¬doomed tree := fun hdoomed =>
        hscopes tree htree hkind hdoomed chunk hchunk hscope
      have hleft := (htakes.trees tree).mpr ⟨htree, hstays⟩
      have hbase : TreesKeyed { store.db with chunks := survivors } := ⟨hkeyed.ids, hkeyed.scopes⟩
      exact ⟨hleft, fun s hs hid => (htakes.row_left hbase (htakes.summaries s) hleft hid).mpr hs,
        fun buf hbuf hid => (htakes.row_left hbase (htakes.buffers buf) hleft hid).mpr hbuf⟩
    · intro raw hraw hescapes hfile
      rw [h.chunks, h.columns] at hraw
      rw [hfiles, mem_removeChunkContentFiles]
      exact ⟨hfile, fun path hpath hescapes' =>
        hapart raw hraw hescapes hfile path ((hremoved path).mp hpath) hescapes'⟩

end Removal

/-! ### The requests -/

section Requests

variable {store : Store}

/-- The rows a filter deletes, and those it leaves. -/
def DeleteFilter.deleted (filter : DeleteFilter) (sourceKind : SourceKind) (store : Store) : List Chunk :=
  store.db.chunks.filter (filter.selects sourceKind store.columns)

def DeleteFilter.survivors (filter : DeleteFilter) (sourceKind : SourceKind) (store : Store) :
    List Chunk :=
  store.db.chunks.filter fun chunk => !filter.selects sourceKind store.columns chunk

/-- The trees of the scopes that a filter empties, counting one kind. -/
def DeleteFilter.Empties (filter : DeleteFilter) (sourceKind : SourceKind) (store : Store) :
    Tree → Prop :=
  Swept sourceKind (filter.survivors sourceKind store)
    ((filter.deleted sourceKind store).map effectiveScope)

/-- The body of a deleted chunk, or a raw file that only deleted chunks reference. -/
def DeleteFilter.drops (filter : DeleteFilter) (sourceKind : SourceKind) (store : Store) :
    List String :=
  chunkPaths store.columns (filter.deleted sourceKind store) ++
    orphanedRawPaths store.columns (filter.deleted sourceKind store)
      (filter.survivors sourceKind store)

theorem deleteChunksBySourceFilter_deletes (hkeyed : TreesKeyed store.db) (sourceKind : SourceKind)
    (filter : DeleteFilter) :
    Deletes store (deleteChunksBySourceFilter sourceKind filter store).1
      (filter.survivors sourceKind store) (filter.Empties sourceKind store)
      (filter.drops sourceKind store) := by
  have hbase : TreesKeyed { store.db with chunks := filter.survivors sourceKind store } :=
    ⟨hkeyed.ids, hkeyed.scopes⟩
  obtain ⟨paths, hpaths, htakes⟩ := foldl_sweepScope_takes store.summaryPath sourceKind [] hbase
    ((filter.deleted sourceKind store).map effectiveScope).dedup
  refine ⟨⟨paths, htakes.congr fun tree _ => ?_, ?_⟩, rfl⟩
  · rw [Swept, List.mem_dedup]
    rfl
  · rw [List.nil_append] at hpaths
    rw [← hpaths]
    rfl

/-- A filter is harmless when a scope that has a source tree, and that it empties of the kind it counts,
is empty, and when no file that a survivor references is a body that goes, or a raw file that goes under
another spelling of its path. -/
structure DeleteFilter.Harmless (filter : DeleteFilter) (sourceKind : SourceKind) (store : Store) :
    Prop where
  scopes : ∀ tree ∈ store.db.trees, tree.kind = .source →
    tree.scope ∈ (filter.deleted sourceKind store).map effectiveScope →
    ∀ chunk ∈ filter.survivors sourceKind store, effectiveScope chunk = tree.scope →
      ∃ other ∈ filter.survivors sourceKind store,
        other.sourceKind = sourceKind ∧ effectiveScope other = tree.scope
  files : FilesApart store (filter.survivors sourceKind store) fun path =>
    path ∈ filter.drops sourceKind store ∨ TreeBody store (filter.Empties sourceKind store) path

theorem sparesNeeded_refl : SparesNeeded store store :=
  ⟨fun _ htree _ _ => ⟨htree, fun _ hs _ => hs, fun _ hbuf _ => hbuf⟩, fun _ _ _ hfile => hfile⟩

theorem filter_sparesNeeded_iff (hkeyed : TreesKeyed store.db) (sourceKind : SourceKind)
    (filter : DeleteFilter) :
    SparesNeeded store (deleteChunksBySourceFilter sourceKind filter store).1 ↔
      filter.Harmless sourceKind store := by
  rw [(deleteChunksBySourceFilter_deletes hkeyed sourceKind filter).sparesNeeded_iff hkeyed]
  constructor
  · rintro ⟨hscopes, hfiles⟩
    refine ⟨fun tree htree hkind hscope chunk hchunk heq => ?_, hfiles⟩
    by_contra hnone
    refine hscopes tree htree hkind ⟨hkind, hscope, fun other hother hk heq' => ?_⟩ chunk hchunk heq
    exact hnone ⟨other, hother, hk, heq'⟩
  · rintro ⟨hscopes, hfiles⟩
    refine ⟨fun tree htree hkind hempties chunk hchunk heq => ?_, hfiles⟩
    obtain ⟨other, hother, hk, heq'⟩ := hscopes tree htree hkind hempties.2.1 chunk hchunk heq
    exact hempties.2.2 other hother hk heq'

/-- The source tree that is registered for a source id. -/
def Registered (sourceId : String) (tree : Tree) : Prop := tree.kind = .source ∧ tree.scope = sourceId

/-- The orphan sweep counts the chunks that have the source id, and takes the tree that has it as its
scope: harmless when no chunk at all has that scope. -/
structure OrphanHarmless (sourceKind : SourceKind) (sourceId : String) (store : Store) : Prop where
  scopes : ∀ tree ∈ store.db.trees, Registered sourceId tree →
    ∀ chunk ∈ store.db.chunks, effectiveScope chunk = sourceId →
      ∃ other ∈ store.db.chunks, other.sourceKind = sourceKind ∧ other.sourceId = sourceId
  files : (∀ chunk ∈ store.db.chunks, chunk.sourceKind = sourceKind → chunk.sourceId ≠ sourceId) →
    FilesApart store store.db.chunks (TreeBody store (Registered sourceId))

theorem deleteOrphanedSourceTree_deletes (hkeyed : TreesKeyed store.db) {sourceKind : SourceKind}
    {sourceId : String}
    (hnone : ∀ chunk ∈ store.db.chunks, chunk.sourceKind = sourceKind → chunk.sourceId ≠ sourceId) :
    Deletes store (deleteOrphanedSourceTree sourceKind sourceId store).1 store.db.chunks
      (Registered sourceId) [] := by
  have hany : ¬(store.db.chunks.any fun chunk =>
      chunk.sourceKind == sourceKind && chunk.sourceId == sourceId) = true := by
    simpa using hnone
  rw [deleteOrphanedSourceTree, if_neg hany]
  cases htree : getTreeByScope store.db .source sourceId with
  | none =>
      refine ⟨⟨[], Takes.refl fun tree hmem hregistered => ?_, ?_⟩, rfl⟩
      · have hfound := getTreeByScope_of_mem hkeyed.scopes hmem
        rw [hregistered.1, hregistered.2, htree] at hfound
        cases hfound
      · simp [removeChunkContentFiles]
  | some tree =>
      obtain ⟨hmem, hkind, hscope⟩ := getTreeByScope_some htree
      refine ⟨⟨_, (takes_cascade hkeyed hmem).congr fun other hother => ?_, rfl⟩, rfl⟩
      constructor
      · rintro rfl
        exact ⟨hkind, hscope⟩
      · intro hregistered
        exact eq_of_pk_eq hkeyed.scopes hother hmem
          (Prod.ext (hregistered.1.trans hkind.symm) (hregistered.2.trans hscope.symm))

theorem orphan_sparesNeeded_iff (hkeyed : TreesKeyed store.db) (sourceKind : SourceKind)
    (sourceId : String) :
    SparesNeeded store (deleteOrphanedSourceTree sourceKind sourceId store).1 ↔
      OrphanHarmless sourceKind sourceId store := by
  by_cases hleft : ∃ chunk ∈ store.db.chunks, chunk.sourceKind = sourceKind ∧ chunk.sourceId = sourceId
  · have hany : (store.db.chunks.any fun chunk =>
        chunk.sourceKind == sourceKind && chunk.sourceId == sourceId) = true := by
      simpa using hleft
    rw [deleteOrphanedSourceTree, if_pos hany]
    refine iff_of_true sparesNeeded_refl ⟨fun _ _ _ _ _ _ => hleft, fun hnone => ?_⟩
    obtain ⟨chunk, hchunk, hkind, hid⟩ := hleft
    exact absurd hid (hnone chunk hchunk hkind)
  · have hnone : ∀ chunk ∈ store.db.chunks, chunk.sourceKind = sourceKind →
        chunk.sourceId ≠ sourceId :=
      fun chunk hchunk hkind hid => hleft ⟨chunk, hchunk, hkind, hid⟩
    rw [(deleteOrphanedSourceTree_deletes hkeyed hnone).sparesNeeded_iff hkeyed]
    simp only [List.not_mem_nil, false_or]
    constructor
    · rintro ⟨hscopes, hfiles⟩
      refine ⟨fun tree htree hregistered chunk hchunk heq => ?_, fun _ => hfiles⟩
      exact absurd (heq.trans hregistered.2.symm)
        (hscopes tree htree hregistered.1 hregistered chunk hchunk)
    · rintro ⟨hscopes, hfiles⟩
      refine ⟨fun tree htree hkind hregistered chunk hchunk heq => ?_, hfiles hnone⟩
      exact hleft (hscopes tree htree hregistered chunk hchunk (heq.trans hregistered.2))

/-- The trees that a request takes. -/
def DeleteRequest.dooms (request : DeleteRequest) (store : Store) (tree : Tree) : Prop :=
  match request with
  | .bySource kind sourceId => (DeleteFilter.exactSource sourceId).Empties kind store tree
  | .bySourcePrefix kind start => (DeleteFilter.sourcePrefix start).Empties kind store tree
  | .byOwner kind owner => (DeleteFilter.owner owner).Empties kind store tree
  | .byId chunkId => ∃ chunk, store.db.getChunk chunkId = some chunk ∧
      (DeleteFilter.chunk chunkId).Empties chunk.sourceKind store tree
  | .orphanedTree kind sourceId => Registered sourceId tree ∧
      ∀ chunk ∈ store.db.chunks, chunk.sourceKind = kind → chunk.sourceId ≠ sourceId
  | .purge => True

/-- What a request leaves: the rows it does not select, and every tree that it does not take, with its
summaries and buffers. -/
structure Leaves (request : DeleteRequest) (store next : Store) : Prop where
  chunks : next.db.chunks = store.db.chunks.filter fun chunk => !request.selects store chunk
  sublist : next.db.trees.Sublist store.db.trees
  trees : ∀ tree, tree ∈ next.db.trees ↔ tree ∈ store.db.trees ∧ ¬request.dooms store tree
  taken : ∀ tree ∈ store.db.trees, request.dooms store tree → ∀ level,
    next.db.getBuffer tree.id level = Buffer.empty tree.id level
  buffers : ∀ treeId level, next.db.getBuffer treeId level = store.db.getBuffer treeId level ∨
    next.db.getBuffer treeId level = Buffer.empty treeId level
  summaries : ∀ tree ∈ next.db.trees, ∀ s ∈ store.db.summaries, s.treeId = tree.id →
    s ∈ next.db.summaries

theorem getBuffer_of_none {db : SummaryTree.Db} {treeId : String} (level : Nat)
    (h : ∀ buf ∈ db.buffers, buf.treeId ≠ treeId) :
    db.getBuffer treeId level = Buffer.empty treeId level := by
  rw [Db.getBuffer]
  cases hbuf : lookup Buffer.key (treeId, level) db.buffers with
  | none => rfl
  | some buf =>
      obtain ⟨hmem, hkey⟩ := lookup_mem hbuf
      exact absurd (congrArg Prod.fst hkey) (h buf hmem)

theorem Deletes.leaves (hkeyed : TreesKeyed store.db) {next : Store} {survivors : List Chunk}
    {others : List String} {request : DeleteRequest}
    (h : Deletes store next survivors (request.dooms store) others)
    (hsurvivors : survivors = store.db.chunks.filter fun chunk => !request.selects store chunk) :
    Leaves request store next := by
  obtain ⟨paths, htakes, -⟩ := h.takes
  have htaken : ∀ tree ∈ store.db.trees, request.dooms store tree → ∀ level,
      next.db.getBuffer tree.id level = Buffer.empty tree.id level := by
    intro tree htree hdoomed level
    refine getBuffer_of_none level fun buf hbuf heq => ?_
    exact ((htakes.buffers buf).mp hbuf).2 tree htree hdoomed heq
  refine ⟨htakes.chunks.trans hsurvivors, htakes.sublist, htakes.trees, htaken, fun treeId level => ?_,
    fun tree htree s hs hid => ?_⟩
  · by_cases hother : ∀ tree ∈ store.db.trees, request.dooms store tree → treeId ≠ tree.id
    · exact Or.inl (htakes.kept treeId hother level)
    · push Not at hother
      obtain ⟨tree, htree, hdoomed, rfl⟩ := hother
      exact Or.inr (htaken tree htree hdoomed level)
  · have hbase : TreesKeyed { store.db with chunks := survivors } := ⟨hkeyed.ids, hkeyed.scopes⟩
    exact (htakes.row_left hbase (htakes.summaries s) htree hid).mpr hs

theorem leaves_refl {request : DeleteRequest} (hselects : ∀ chunk ∈ store.db.chunks,
    request.selects store chunk = false) (hdooms : ∀ tree ∈ store.db.trees, ¬request.dooms store tree) :
    Leaves request store store where
  chunks := (List.filter_eq_self.mpr fun chunk hchunk => by simp [hselects chunk hchunk]).symm
  sublist := List.Sublist.refl _
  trees := fun tree => ⟨fun h => ⟨h, hdooms tree h⟩, And.left⟩
  taken := fun tree htree hd => absurd hd (hdooms tree htree)
  buffers := fun _ _ => Or.inl rfl
  summaries := fun _ _ _ hs _ => hs

theorem delete_leaves (hkeyed : TreesKeyed store.db) (request : DeleteRequest) :
    Leaves request store (request.run store) := by
  cases request with
  | bySource kind sourceId =>
      exact (deleteChunksBySourceFilter_deletes hkeyed kind _).leaves hkeyed rfl
  | bySourcePrefix kind start =>
      exact (deleteChunksBySourceFilter_deletes hkeyed kind _).leaves hkeyed rfl
  | byOwner kind owner =>
      exact (deleteChunksBySourceFilter_deletes hkeyed kind _).leaves hkeyed rfl
  | byId chunkId =>
      rw [DeleteRequest.run, deleteChunkById]
      cases hchunk : store.db.getChunk chunkId with
      | none =>
          refine leaves_refl (fun chunk hmem => ?_) fun tree _ => ?_
          · rw [DeleteRequest.selects, beq_eq_false_iff_ne]
            exact fun heq => lookup_eq_none_iff.mp hchunk (heq ▸ List.mem_map_of_mem hmem)
          · rintro ⟨chunk, hsome, -⟩
            cases hchunk.symm.trans hsome
      | some chunk =>
          have hdooms : (DeleteFilter.chunk chunkId).Empties chunk.sourceKind store =
              (DeleteRequest.byId chunkId).dooms store := by
            funext tree
            apply propext
            constructor
            · exact fun h => ⟨chunk, hchunk, h⟩
            · rintro ⟨other, hother, h⟩
              obtain rfl := Option.some.inj (hchunk.symm.trans hother)
              exact h
          have h := deleteChunksBySourceFilter_deletes hkeyed chunk.sourceKind (.chunk chunkId)
          rw [hdooms] at h
          exact h.leaves hkeyed rfl
  | orphanedTree kind sourceId =>
      by_cases hnone : ∀ chunk ∈ store.db.chunks, chunk.sourceKind = kind → chunk.sourceId ≠ sourceId
      · have hdooms : Registered sourceId = (DeleteRequest.orphanedTree kind sourceId).dooms store := by
          funext tree
          exact propext (and_iff_left hnone).symm
        have h := deleteOrphanedSourceTree_deletes hkeyed hnone
        rw [hdooms] at h
        exact h.leaves hkeyed (List.filter_eq_self.mpr fun _ _ => rfl).symm
      · have hany : (store.db.chunks.any fun chunk =>
            chunk.sourceKind == kind && chunk.sourceId == sourceId) = true := by
          push Not at hnone
          simpa using hnone
        rw [DeleteRequest.run, deleteOrphanedSourceTree, if_pos hany]
        exact leaves_refl (fun _ _ => rfl) fun tree _ hd => hnone hd.2
  | purge =>
      exact ⟨(List.filter_eq_nil_iff.mpr fun _ _ => by simp [DeleteRequest.selects]).symm,
        List.nil_sublist _, fun _ => iff_of_false List.not_mem_nil fun h => h.2 trivial,
        fun _ _ _ _ => rfl, fun _ _ => Or.inr rfl,
        fun _ htree => absurd htree List.not_mem_nil⟩

/-- When a request takes nothing that a survivor needs. -/
def DeleteRequest.Harmless (request : DeleteRequest) (store : Store) : Prop :=
  match request with
  | .bySource kind sourceId => (DeleteFilter.exactSource sourceId).Harmless kind store
  | .bySourcePrefix kind start => (DeleteFilter.sourcePrefix start).Harmless kind store
  | .byOwner kind owner => (DeleteFilter.owner owner).Harmless kind store
  | .byId chunkId => ∀ chunk, store.db.getChunk chunkId = some chunk →
      (DeleteFilter.chunk chunkId).Harmless chunk.sourceKind store
  | .orphanedTree kind sourceId => OrphanHarmless kind sourceId store
  | .purge => True

/-- A request takes nothing that a surviving chunk uses exactly when it is harmless. -/
theorem delete_sparesNeeded_iff (hkeyed : TreesKeyed store.db) (request : DeleteRequest) :
    SparesNeeded store (request.run store) ↔ request.Harmless store := by
  cases request with
  | bySource kind sourceId => exact filter_sparesNeeded_iff hkeyed kind _
  | bySourcePrefix kind start => exact filter_sparesNeeded_iff hkeyed kind _
  | byOwner kind owner => exact filter_sparesNeeded_iff hkeyed kind _
  | byId chunkId =>
      simp only [DeleteRequest.run, deleteChunkById, DeleteRequest.Harmless]
      cases hchunk : store.db.getChunk chunkId with
      | none =>
          refine iff_of_true sparesNeeded_refl fun chunk h => ?_
          cases h
      | some chunk =>
          refine (filter_sparesNeeded_iff hkeyed chunk.sourceKind _).trans ⟨fun h other hother => ?_,
            fun h => h chunk rfl⟩
          obtain rfl := Option.some.inj hother
          exact h
  | orphanedTree kind sourceId => exact orphan_sparesNeeded_iff hkeyed kind sourceId
  | purge =>
      refine iff_of_true ⟨fun tree _ _ hex => ?_, fun path hpath => ?_⟩ trivial
      · obtain ⟨chunk, hchunk, -⟩ := hex
        exact absurd hchunk List.not_mem_nil
      · exact absurd hpath List.not_mem_nil

end Requests

/-- A chat and a mail thread of one scope, which share its source tree. -/
def sharedScope : Store where
  db :=
    { trees := [⟨"source:eng", .source, "eng", none, 0, .active, none⟩]
      chunks := [⟨"chat-1", .chat, "eng", none, 1, 1, 1, 10, 0, .buffered⟩,
        ⟨"mail-1", .email, "eng", none, 2, 2, 2, 10, 0, .buffered⟩]
      summaries := []
      buffers := [⟨"source:eng", 0, ["chat-1", "mail-1"], 20, some 1⟩] }
  columns := fun id => ⟨"me", some (id ++ ".md"), .empty⟩
  summaryPath := fun _ => none
  ingested := []
  rawGates := []
  files := [["chat-1.md"], ["mail-1.md"]]

theorem treesKeyed_sharedScope : TreesKeyed sharedScope.db := ⟨by decide, by decide⟩

/-- Deleting the chat takes the tree of the mail thread along. -/
theorem sharedScope_not_spared :
    ¬SparesNeeded sharedScope ((DeleteRequest.bySource .chat "eng").run sharedScope) := by
  intro hspares
  have hleft := hspares.trees _ List.mem_cons_self rfl
    ⟨⟨"mail-1", .email, "eng", none, 2, 2, 2, 10, 0, .buffered⟩, by decide, by decide⟩
  exact absurd hleft.1 (by decide)

theorem delete_sparesNeeded_iff_sharedScope :
    SparesNeeded sharedScope ((DeleteRequest.byId "chat-1").run sharedScope) ↔
      (DeleteRequest.byId "chat-1").Harmless sharedScope :=
  delete_sparesNeeded_iff treesKeyed_sharedScope _

end TinyCortex.Chunks
