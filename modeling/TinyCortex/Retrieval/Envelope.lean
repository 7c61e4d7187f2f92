import TinyCortex.Retrieval.Cover
import TinyCortex.Tree.Workspace

/-! Time envelopes. A seal writes the range of what it hydrates and nothing ever changes it; the rows of
the chunks below are rewritten by every later batch that has the same piece at the same place, with the
times of that batch. -/

namespace TinyCortex.SummaryTree

open Table Chunks Ingest Retrieval

/-- The envelope of the summary encloses a time. -/
structure SummaryNode.Encloses (node : SummaryNode) (ms : Int) : Prop where
  start : node.timeRangeStartMs ≤ ms
  stop : ms ≤ node.timeRangeEndMs

/-- The envelope of the summary encloses another one. -/
structure SummaryNode.Spans (node other : SummaryNode) : Prop where
  start : node.timeRangeStartMs ≤ other.timeRangeStartMs
  stop : other.timeRangeEndMs ≤ node.timeRangeEndMs

/-- The summaries below a node, itself included. The children of level 1 are chunks. -/
inductive Below (db : Db) (node : SummaryNode) : SummaryNode → Prop
  | self : Below db node node
  | child {mid child : SummaryNode} (hbelow : Below db node mid) (hlevel : 1 < mid.level)
      (hchild : child ∈ db.summaries) (hid : child.id ∈ mid.childIds) : Below db node child

/-- The chunk is a leaf below the node. -/
def LeafBelow (db : Db) (node : SummaryNode) (chunk : Chunk) : Prop :=
  chunk ∈ db.chunks ∧ ∃ low, Below db node low ∧ low.level = 1 ∧ chunk.id ∈ low.childIds

/-- The envelope of every live summary encloses everything below it; so a summary inside a window has
only leaves and summaries inside the window below it. -/
structure Enveloped (db : Db) : Prop where
  summaries : ∀ node ∈ db.summaries, node.deleted = false → ∀ child, Below db node child →
    node.Spans child
  leaves : ∀ node ∈ db.summaries, node.deleted = false → ∀ chunk, LeafBelow db node chunk →
    node.Encloses chunk.timestampMs
  windows : ∀ treeId sinceMs untilMs, ∀ node ∈ listSummariesInWindow db treeId sinceMs untilMs,
    (∀ child, Below db node child → child ∈ listSummariesInWindow db treeId sinceMs untilMs) ∧
    ∀ chunk, LeafBelow db node chunk → sinceMs ≤ chunk.timestampMs ∧ chunk.timestampMs ≤ untilMs

/-! ### The tables -/

/-- A chunk row lies in its own range, ids are distinct, every summary is live and spans its children,
which are rows of its tree, and so are the summaries in buffers. -/
structure Ranged (db : Db) : Prop where
  timed : ∀ chunk ∈ db.chunks, Timed chunk.timestampMs chunk.timeRangeStartMs chunk.timeRangeEndMs
  nodup : db.nodeIds.Nodup
  live : ∀ node ∈ db.nodes, node.deleted = false
  children : ∀ node ∈ db.nodes, 1 < node.level → ∀ id ∈ node.childIds,
    ∃ child ∈ db.nodes, child.id = id ∧ child.treeId = node.treeId ∧ node.Spans child
  leaves : ∀ node ∈ db.nodes, node.level = 1 → ∀ chunk ∈ db.chunks, chunk.id ∈ node.childIds →
    node.Encloses chunk.timestampMs
  buffered : ∀ treeId level, 0 < level → ∀ id ∈ db.buffered treeId level,
    ∃ node ∈ db.nodes, node.id = id ∧ node.treeId = treeId

section Tables

variable {db : Db} {node child : SummaryNode}

theorem SummaryNode.Spans.refl (node : SummaryNode) : node.Spans node := ⟨le_rfl, le_rfl⟩

theorem SummaryNode.Spans.trans {other : SummaryNode} (h : node.Spans child) (h' : child.Spans other) :
    node.Spans other := ⟨h.start.trans h'.start, h'.stop.trans h.stop⟩

theorem SummaryNode.Spans.encloses {ms : Int} (h : node.Spans child) (h' : child.Encloses ms) :
    node.Encloses ms := ⟨h.start.trans h'.start, h'.stop.trans h.stop⟩

theorem mem_nodes {s : SummaryNode} (h : s ∈ db.summaries) : s.bare ∈ db.nodes := List.mem_map_of_mem h

theorem exists_row (h : node ∈ db.nodes) : ∃ s ∈ db.summaries, s.bare = node := List.mem_map.mp h

theorem Ranged.of_child (h : Ranged db) {mid : SummaryNode} (hmid : mid ∈ db.summaries)
    (hlevel : 1 < mid.level) (hchild : child ∈ db.summaries) (hid : child.id ∈ mid.childIds) :
    child.treeId = mid.treeId ∧ mid.Spans child := by
  obtain ⟨row, hrow, hrid, htree, hspans⟩ := h.children mid.bare (mem_nodes hmid) hlevel child.id hid
  have heq : row = child.bare := eq_of_pk_eq h.nodup hrow (mem_nodes hchild) hrid
  subst heq
  exact ⟨htree, ⟨hspans.start, hspans.stop⟩⟩

theorem Ranged.below (h : Ranged db) (hnode : node ∈ db.summaries) (hbelow : Below db node child) :
    child ∈ db.summaries ∧ child.treeId = node.treeId ∧ node.Spans child := by
  induction hbelow with
  | self => exact ⟨hnode, rfl, .refl node⟩
  | child _ hlevel hchild hid ih =>
      obtain ⟨hmid, htree, hspans⟩ := ih
      obtain ⟨htree', hspans'⟩ := h.of_child hmid hlevel hchild hid
      exact ⟨hchild, htree'.trans htree, hspans.trans hspans'⟩

theorem mem_listSummariesInWindow {treeId : String} {sinceMs untilMs : Int} :
    node ∈ listSummariesInWindow db treeId sinceMs untilMs ↔ node ∈ db.summaries ∧
      node.treeId = treeId ∧ node.deleted = false ∧ sinceMs ≤ node.timeRangeStartMs ∧
      node.timeRangeEndMs ≤ untilMs := by
  rw [listSummariesInWindow, List.mem_mergeSort, List.mem_filter]
  simp [and_assoc]

theorem Ranged.enveloped (h : Ranged db) : Enveloped db := by
  have hleaf : ∀ node ∈ db.summaries, ∀ chunk, LeafBelow db node chunk →
      node.Encloses chunk.timestampMs := by
    intro node hnode chunk hleaf
    obtain ⟨hchunk, low, hbelow, hlevel, hid⟩ := hleaf
    obtain ⟨hlow, -, hspans⟩ := h.below hnode hbelow
    have hencloses := h.leaves low.bare (mem_nodes hlow) hlevel chunk hchunk hid
    exact hspans.encloses ⟨hencloses.start, hencloses.stop⟩
  refine ⟨fun node hnode _ child hbelow => (h.below hnode hbelow).2.2,
    fun node hnode _ => hleaf node hnode, fun treeId sinceMs untilMs node hnode => ?_⟩
  obtain ⟨hmem, htree, -, hsince, huntil⟩ := mem_listSummariesInWindow.mp hnode
  constructor
  · intro child hbelow
    obtain ⟨hchild, htree', hspans⟩ := h.below hmem hbelow
    have hlive : child.deleted = false := h.live child.bare (mem_nodes hchild)
    exact mem_listSummariesInWindow.mpr ⟨hchild, htree'.trans htree, hlive,
      hsince.trans hspans.start, hspans.stop.trans huntil⟩
  · intro chunk hchunk
    have hencloses := hleaf node hmem chunk hchunk
    exact ⟨hsince.trans hencloses.start, hencloses.stop.trans huntil⟩

theorem Ranged.congr {next : Db} (h : Ranged db) (hchunks : next.chunks = db.chunks)
    (hnodes : next.nodes = db.nodes)
    (hbuffered : ∀ treeId level, next.buffered treeId level ⊆ db.buffered treeId level) :
    Ranged next where
  timed := hchunks ▸ h.timed
  nodup := by
    rw [Db.nodeIds, hnodes]
    exact h.nodup
  live := hnodes ▸ h.live
  children := hnodes ▸ h.children
  leaves := by
    rw [hnodes, hchunks]
    exact h.leaves
  buffered := by
    intro treeId level hpos id hid
    rw [hnodes]
    exact h.buffered treeId level hpos id (hbuffered treeId level hid)

/-- Rows of chunks changed, and the new ones are in the envelopes of their parents. -/
theorem Ranged.withChunks (h : Ranged db) {chunks : List Chunk}
    (htimed : ∀ chunk ∈ chunks, Timed chunk.timestampMs chunk.timeRangeStartMs chunk.timeRangeEndMs)
    (hleaves : ∀ node ∈ db.nodes, node.level = 1 → ∀ chunk ∈ chunks, chunk.id ∈ node.childIds →
      node.Encloses chunk.timestampMs) : Ranged { db with chunks := chunks } where
  timed := htimed
  nodup := h.nodup
  live := h.live
  children := h.children
  leaves := hleaves
  buffered := h.buffered

/-- A node is added over children that it spans. -/
theorem Ranged.seal {next : Db} (h : Ranged db) (hfresh : node.id ∉ db.nodeIds)
    (hlive : node.deleted = false) (hchunks : next.chunks = db.chunks)
    (hnodes : next.nodes = db.nodes ++ [node.bare])
    (hchildren : 1 < node.level → ∀ id ∈ node.childIds,
      ∃ child ∈ db.nodes, child.id = id ∧ child.treeId = node.treeId ∧ node.Spans child)
    (hleaves : node.level = 1 → ∀ chunk ∈ db.chunks, chunk.id ∈ node.childIds →
      node.Encloses chunk.timestampMs)
    (hbuffered : ∀ treeId level, ∀ id ∈ next.buffered treeId level,
      id ∈ db.buffered treeId level ∨ id = node.id ∧ treeId = node.treeId) : Ranged next where
  timed := hchunks ▸ h.timed
  nodup := by
    rw [Db.nodeIds, hnodes, List.map_append, ← Db.nodeIds]
    exact h.nodup.append (List.nodup_singleton _) (List.disjoint_singleton.mpr hfresh)
  live := by
    intro other hother
    rw [hnodes] at hother
    rcases List.mem_append.mp hother with hold | hnew
    · exact h.live other hold
    · obtain rfl := List.mem_singleton.mp hnew
      exact hlive
  children := by
    have hgrown : ∀ {child}, child ∈ db.nodes → child ∈ next.nodes := by
      intro child hchild
      rw [hnodes]
      exact List.mem_append_left _ hchild
    intro other hother hlevel id hid
    rw [hnodes] at hother
    rcases List.mem_append.mp hother with hold | hnew
    · obtain ⟨child, hchild, hrest⟩ := h.children other hold hlevel id hid
      exact ⟨child, hgrown hchild, hrest⟩
    · obtain rfl := List.mem_singleton.mp hnew
      obtain ⟨child, hchild, hcid, htree, hspans⟩ := hchildren hlevel id hid
      exact ⟨child, hgrown hchild, hcid, htree, hspans.start, hspans.stop⟩
  leaves := by
    intro other hother hlevel chunk hchunk hid
    rw [hchunks] at hchunk
    rw [hnodes] at hother
    rcases List.mem_append.mp hother with hold | hnew
    · exact h.leaves other hold hlevel chunk hchunk hid
    · obtain rfl := List.mem_singleton.mp hnew
      have hencloses := hleaves hlevel chunk hchunk hid
      exact ⟨hencloses.start, hencloses.stop⟩
  buffered := by
    intro treeId level hpos id hid
    rw [hnodes]
    rcases hbuffered treeId level id hid with hold | ⟨rfl, rfl⟩
    · obtain ⟨row, hrow, hrest⟩ := h.buffered treeId level hpos id hold
      exact ⟨row, List.mem_append_left _ hrow, hrest⟩
    · exact ⟨node.bare, List.mem_append_right _ List.mem_cons_self, rfl, rfl⟩

end Tables

/-! ### Seals in flight -/

section Flights

variable {config : TreeConfig} {db : Db} {flight : Flight} {minted : Minted} {input : SummaryInput}

/-- A seal spans what it hydrated. -/
theorem Flight.node_spans (config : TreeConfig) (minted : Minted) (h : input ∈ flight.inputs) :
    (flight.node config minted).timeRangeStartMs ≤ input.timeRangeStartMs ∧
      input.timeRangeEndMs ≤ (flight.node config minted).timeRangeEndMs := by
  have hstart : (flight.node config minted).timeRangeStartMs =
      ((flight.inputs.map SummaryInput.timeRangeStartMs).min?).getD minted.nowMs := by
    cases flight <;> rfl
  have hstop : (flight.node config minted).timeRangeEndMs =
      ((flight.inputs.map SummaryInput.timeRangeEndMs).max?).getD minted.nowMs := by
    cases flight <;> rfl
  have hmin := List.mem_map_of_mem (f := SummaryInput.timeRangeStartMs) h
  have hmax := List.mem_map_of_mem (f := SummaryInput.timeRangeEndMs) h
  constructor
  · obtain ⟨least, hleast⟩ := Option.isSome_iff_exists.mp (List.isSome_min?_of_mem hmin)
    rw [hstart, hleast]
    exact (List.min?_eq_some_iff.mp hleast).2 _ hmin
  · obtain ⟨most, hmost⟩ := Option.isSome_iff_exists.mp (List.isSome_max?_of_mem hmax)
    rw [hstop, hmost]
    exact (List.max?_eq_some_iff.mp hmost).2 _ hmax

/-- The seal read the chunk with the times that its row has. -/
def Flight.Read (flight : Flight) (chunk : Chunk) : Prop :=
  ∃ input ∈ flight.inputs, input.id = chunk.id ∧
    input.timeRangeStartMs = chunk.timeRangeStartMs ∧ input.timeRangeEndMs = chunk.timeRangeEndMs

/-- Above the chunks, the children of a seal in flight are summaries of its tree, with the times that it
read. -/
def Flight.Ranged (db : Db) (flight : Flight) : Prop :=
  0 < flight.level → ∀ id ∈ flight.childIds, ∃ child ∈ db.nodes, child.id = id ∧
    child.treeId = flight.treeId ∧ ∃ input ∈ flight.inputs,
      input.timeRangeStartMs = child.timeRangeStartMs ∧ input.timeRangeEndMs = child.timeRangeEndMs

theorem Flight.Ranged.grow {next : Db} (h : flight.Ranged db) (hnodes : db.nodes ⊆ next.nodes) :
    flight.Ranged next := by
  intro hpos id hid
  obtain ⟨child, hchild, hrest⟩ := h hpos id hid
  exact ⟨child, hnodes hchild, hrest⟩

/-- What a hydration above the chunks returns are summaries of the tree. -/
theorem hydrateInputs_nodes {treeId : String} {level : Nat} {ids : List String}
    (hnodup : db.nodeIds.Nodup) (hpos : 0 < level)
    (hids : ∀ id ∈ ids, ∃ node ∈ db.nodes, node.id = id ∧ node.treeId = treeId)
    (h : input ∈ hydrateInputs db level ids) : ∃ child ∈ db.nodes, child.id = input.id ∧
      child.treeId = treeId ∧ input.timeRangeStartMs = child.timeRangeStartMs ∧
      input.timeRangeEndMs = child.timeRangeEndMs := by
  rw [hydrateInputs, if_neg hpos.ne'] at h
  obtain ⟨id, hid, hget⟩ := List.mem_filterMap.mp h
  obtain ⟨row, hrow, rfl⟩ := Option.map_eq_some_iff.mp hget
  obtain ⟨hmem, rfl⟩ := lookup_mem hrow
  obtain ⟨node, hnode, hnid, htree⟩ := hids row.id hid
  obtain rfl : node = row.bare := eq_of_pk_eq hnodup hnode (mem_nodes hmem) hnid
  exact ⟨row.bare, hnode, rfl, htree, rfl, rfl⟩

theorem flight_bucket (h : Ranged db) {treeId : String} {level : Nat} :
    (Flight.bucket (db.getBuffer treeId level)
      (hydrateInputs db level (db.buffered treeId level))).Ranged db := by
  intro hpos id hid
  rw [Flight.level, Db.getBuffer_level] at hpos
  obtain ⟨input, hinput, rfl⟩ := List.mem_map.mp hid
  obtain ⟨child, hchild, hcid, htree, htimes⟩ :=
    hydrateInputs_nodes h.nodup hpos (h.buffered treeId level hpos) hinput
  exact ⟨child, hchild, hcid, htree.trans Db.getBuffer_treeId.symm, input, hinput, htimes⟩

theorem flight_batch (h : Ranged db) {doc : DocumentSeal} {level : Nat} {childIds : List String}
    (hids : 0 < level → ∀ id ∈ childIds, ∃ node ∈ db.nodes, node.id = id ∧ node.treeId = doc.treeId) :
    (Flight.batch doc level childIds (hydrateInputs db level childIds)).Ranged db := by
  intro hpos id hid
  have hnodes := hids hpos
  have hlevel : level ≠ 0 := Nat.pos_iff_ne_zero.mp hpos
  have hresolves : ∀ id ∈ childIds, db.Resolves level id := by
    intro id hid
    obtain ⟨node, hnode, rfl, -⟩ := hnodes id hid
    rw [Db.Resolves, if_neg hlevel, ← Db.nodeIds_eq]
    exact List.mem_map_of_mem hnode
  rw [Flight.childIds, ← hydrateInputs_ids_of_resolves hresolves] at hid
  obtain ⟨input, hinput, rfl⟩ := List.mem_map.mp hid
  obtain ⟨child, hchild, hcid, htree, htimes⟩ := hydrateInputs_nodes h.nodup hpos hnodes hinput
  exact ⟨child, hchild, hcid, htree, input, hinput, htimes⟩

end Flights

namespace Workspace

variable {config : TreeConfig} {w next : Workspace} {label : Label}

/-- What the callers of the seals keep to: sealed nodes get ids of their own, a summary that is appended
or listed is one of the tree, and nothing but seals writes or removes summaries. -/
def Sealing (w : Workspace) : Label → Prop
  | .commit _ minted _ => minted.id ∉ w.db.nodeIds
  | .hydrate doc level childIds => 0 < level → ∀ id ∈ childIds,
      ∃ node ∈ w.db.nodes, node.id = id ∧ node.treeId = doc.treeId
  | .append treeId level itemId _ _ => 0 < level →
      ∃ node ∈ w.db.nodes, node.id = itemId ∧ node.treeId = treeId
  | .ingestSummary _ _ _ | .delete _ => False
  | _ => True

/-- A batch that has a sealed piece again is sent inside the envelope of its summary, and a chunk that
such a batch rewrote between hydration and commit was sent inside the envelope that commits. -/
def KeepsTimes (config : TreeConfig) (w : Workspace) : Label → Prop
  | .ingest sourceId owner payload pieces _ => ∀ metadata,
      canonicalise sourceId owner payload = some metadata → ∀ piece ∈ pieces, ∀ node ∈ w.db.nodes,
        node.level = 1 → piece.id ∈ node.childIds → node.Encloses metadata.timestampMs
  | .commit i minted enqueueFollowUps => ∀ flight, w.flights[i]? = some flight → flight.level = 0 →
      (∃ db, flight.commit config minted enqueueFollowUps w.db = .ok db) →
        ∀ chunk ∈ w.db.chunks, chunk.id ∈ flight.childIds → ¬flight.Read chunk →
          (flight.node config minted).Encloses chunk.timestampMs
  | _ => True

/-- What every state satisfies that such steps reach. -/
structure RangedSeals (w : Workspace) : Prop where
  tables : Ranged w.db
  flights : ∀ flight ∈ w.flights, flight.Ranged w.db

theorem rangedSeals_empty : RangedSeals empty where
  tables :=
    { timed := fun _ h => absurd h List.not_mem_nil
      nodup := List.nodup_nil
      live := fun _ h => absurd h List.not_mem_nil
      children := fun _ h => absurd h List.not_mem_nil
      leaves := fun _ h => absurd h List.not_mem_nil
      buffered := fun _ _ _ _ h => absurd h List.not_mem_nil }
  flights := fun _ h => absurd h List.not_mem_nil

/-- A step that moves no summary and loads no buffer. -/
theorem RangedSeals.still (h : RangedSeals w) (hchunks : next.db.chunks = w.db.chunks)
    (hsummaries : next.db.summaries = w.db.summaries) (hbuffers : next.db.buffers = w.db.buffers)
    (hflights : next.flights ⊆ w.flights) : RangedSeals next := by
  have hnodes : next.db.nodes = w.db.nodes := by rw [Db.nodes, Db.nodes, hsummaries]
  refine ⟨h.tables.congr hchunks hnodes fun treeId level => ?_, fun flight hmem => ?_⟩
  · rw [Db.buffered, Db.getBuffer_congr hbuffers]
    exact List.Subset.refl _
  · exact (h.flights flight (hflights hmem)).grow (hnodes ▸ List.Subset.refl _)

theorem RangedSeals.ingest (h : RangedSeals w) {sourceId owner : String} {payload : Payload}
    {pieces : List Piece} {rawRefs : Option (List String)} {metadata : Metadata}
    (hmetadata : canonicalise sourceId owner payload = some metadata)
    (hkeeps : KeepsTimes config w (.ingest sourceId owner payload pieces rawRefs)) :
    RangedSeals { w with store := stage metadata pieces rawRefs w.store } := by
  have htimed := canonicalise_timed hmetadata
  refine ⟨h.tables.withChunks (fun chunk hchunk => ?_) (fun node hnode hlevel chunk hchunk hid => ?_),
    h.flights⟩
  · rcases mem_upsertStagedChunks hchunk with hold | ⟨row, hrow, status, rfl⟩
    · exact h.tables.timed chunk hold
    · obtain ⟨piece, -, rfl⟩ := List.mem_map.mp hrow
      exact htimed
  · rcases mem_upsertStagedChunks hchunk with hold | ⟨row, hrow, status, rfl⟩
    · exact h.tables.leaves node hnode hlevel chunk hold hid
    · obtain ⟨piece, hpiece, rfl⟩ := List.mem_map.mp hrow
      exact hkeeps metadata hmetadata piece hpiece node hnode hlevel hid

theorem RangedSeals.setLifecycle (h : RangedSeals w) {chunkId : String} {status : ChunkStatus}
    {chunks : List Chunk} (hset : setChunkLifecycleStatus chunkId status w.db.chunks = .ok chunks) :
    RangedSeals (w.withDb { w.db with chunks := chunks }) := by
  refine ⟨h.tables.withChunks (fun chunk hchunk => ?_) (fun node hnode hlevel chunk hchunk hid => ?_),
    h.flights⟩
  · obtain ⟨old, hold, rfl | ⟨status, rfl⟩⟩ := mem_setChunkLifecycleStatus hset hchunk
    · exact h.tables.timed chunk hold
    · exact h.tables.timed old hold
  · obtain ⟨old, hold, rfl | ⟨status, rfl⟩⟩ := mem_setChunkLifecycleStatus hset hchunk
    · exact h.tables.leaves node hnode hlevel chunk hold hid
    · exact h.tables.leaves node hnode hlevel old hold hid

theorem RangedSeals.append (h : RangedSeals w) {treeId itemId : String} {level : Nat}
    {tokenDelta itemTs : Int} {db : Db}
    (happend : appendToBuffer treeId level itemId tokenDelta itemTs w.db = .ok db)
    (hsealing : Sealing w (.append treeId level itemId tokenDelta itemTs)) :
    RangedSeals (w.withDb db) := by
  obtain ⟨-, hchunks, hsummaries⟩ := appendToBuffer_frame happend
  have hnodes : db.nodes = w.db.nodes := by rw [Db.nodes, Db.nodes, hsummaries]
  refine ⟨⟨hchunks ▸ h.tables.timed, ?_, hnodes ▸ h.tables.live, hnodes ▸ h.tables.children, ?_, ?_⟩,
    fun flight hmem => (h.flights flight hmem).grow (hnodes ▸ List.Subset.refl _)⟩
  · rw [withDb_db, Db.nodeIds, hnodes]
    exact h.tables.nodup
  · rw [withDb_db, hnodes, hchunks]
    exact h.tables.leaves
  · intro treeId' level' hpos id hid
    rw [withDb_db, appendToBuffer_buffered happend] at hid
    rw [withDb_db, hnodes]
    split_ifs at hid with hcase
    · obtain ⟨rfl, rfl, -⟩ := hcase
      rcases List.mem_append.mp hid with hold | hnew
      · exact h.tables.buffered _ _ hpos id hold
      · rw [List.mem_singleton.mp hnew]
        exact hsealing hpos
    · exact h.tables.buffered _ _ hpos id hid

theorem RangedSeals.commit (h : RangedSeals w) {i : Nat} {minted : Minted} {enqueueFollowUps : Bool}
    {flight : Flight} {db : Db} (hflight : w.flights[i]? = some flight)
    (hcommit : flight.commit config minted enqueueFollowUps w.db = .ok db)
    (hfresh : minted.id ∉ w.db.nodeIds)
    (hkeeps : KeepsTimes config w (.commit i minted enqueueFollowUps)) :
    Ranged db ∧ w.db.nodes ⊆ db.nodes := by
  obtain ⟨hchunks, hnodes, hbuffered⟩ := flight.commit_adds hfresh hcommit
  refine ⟨h.tables.seal ?_ ?_ hchunks hnodes (fun hlevel id hid => ?_) (fun hlevel chunk hchunk hid => ?_)
    ?_, ?_⟩
  · rw [Flight.node_id]
    exact hfresh
  · cases flight <;> rfl
  · rw [Flight.node_level] at hlevel
    rw [Flight.node_childIds] at hid
    obtain ⟨child, hchild, hcid, htree, input, hinput, hstart, hstop⟩ :=
      h.flights flight (List.mem_of_getElem? hflight) (Nat.succ_lt_succ_iff.mp hlevel) id hid
    have hspans := Flight.node_spans config minted hinput
    rw [hstart, hstop] at hspans
    exact ⟨child, hchild, hcid, htree.trans Flight.node_treeId.symm, hspans.1, hspans.2⟩
  · rw [Flight.node_level] at hlevel
    rw [Flight.node_childIds] at hid
    by_cases hread : flight.Read chunk
    · obtain ⟨input, hinput, -, hstart, hstop⟩ := hread
      have hspans := Flight.node_spans config minted hinput
      have htimed := h.tables.timed chunk hchunk
      rw [hstart, hstop] at hspans
      exact ⟨hspans.1.trans htimed.start, htimed.stop.trans hspans.2⟩
    · exact hkeeps flight hflight (Nat.succ_injective hlevel) ⟨db, hcommit⟩ chunk hchunk hid hread
  · rw [Flight.node_id, Flight.node_treeId]
    exact hbuffered
  · rw [hnodes]
    exact List.subset_append_left _ _

theorem Step.rangedSeals {result : Except TreeError Unit} (h : RangedSeals w)
    (hsealing : Sealing w label) (hkeeps : KeepsTimes config w label)
    (hstep : Step config w label next result) : RangedSeals next := by
  cases hstep with
  | idle => exact h
  | refused error hflights => exact h.still rfl rfl rfl hflights
  | ingest hmetadata => exact h.ingest hmetadata hkeeps
  | setLifecycle hset => exact h.setLifecycle hset
  | createTree | archive => exact h.still rfl rfl rfl (List.Subset.refl _)
  | append happend => exact h.append happend hsealing
  | @snapshot treeId level inputs hinputs =>
      refine ⟨h.tables, fun flight hmem => ?_⟩
      rcases List.mem_append.mp hmem with hold | hnew
      · exact h.flights flight hold
      · unfold sealInputs at hinputs
        dsimp only at hinputs
        rw [Db.getBuffer_level, ← Db.buffered] at hinputs
        split_ifs at hinputs
        rw [List.mem_singleton.mp hnew, ← Except.ok.inj hinputs]
        exact flight_bucket h.tables
  | hydrate doc level childIds =>
      refine ⟨h.tables, fun flight hmem => ?_⟩
      rcases List.mem_append.mp hmem with hold | hnew
      · exact h.flights flight hold
      · rw [List.mem_singleton.mp hnew]
        exact flight_batch h.tables hsealing
  | commit hflight hcommit =>
      obtain ⟨htables, hnodes⟩ := h.commit hflight hcommit hsealing hkeeps
      exact ⟨htables, fun flight hmem =>
        (h.flights flight ((List.eraseIdx_sublist _ _).subset hmem)).grow hnodes⟩
  | moveHeader =>
      obtain ⟨hsummaries, hchunks, hbuffers⟩ := moveHeader_frame _ _ _ w.db
      exact h.still hchunks hsummaries hbuffers (List.Subset.refl _)
  | ingestSummary | delete => exact absurd hsealing id

/-- A summary over a chunk that was sent outside its envelope. -/
theorem not_enveloped_of_leaf {db : Db} {node : SummaryNode} {chunk : Chunk} (hnode : node ∈ db.nodes)
    (hlive : node.deleted = false) (hlevel : node.level = 1) (hchunk : chunk ∈ db.chunks)
    (hid : chunk.id ∈ node.childIds) (hout : ¬node.Encloses chunk.timestampMs) : ¬Enveloped db := by
  intro h
  obtain ⟨row, hrow, rfl⟩ := exists_row hnode
  have hencloses := h.leaves row hrow hlive chunk ⟨hchunk, row, .self, hlevel, hid⟩
  exact hout ⟨hencloses.start, hencloses.stop⟩

/-- A step that does not keep the times breaks an envelope at once. -/
theorem RangedSeals.breaks (h : RangedSeals w) (hsealing : Sealing w label)
    (hbad : ¬KeepsTimes config w label) : ¬Enveloped (step config w label).1.db := by
  cases label with
  | ingest sourceId owner payload pieces rawRefs =>
      unfold KeepsTimes at hbad
      push Not at hbad
      obtain ⟨metadata, hmetadata, piece, hpiece, node, hnode, hlevel, hid, hout⟩ := hbad
      have hstaged : piece.id ∈ (pieces.map metadata.chunk).map Chunk.id :=
        List.mem_map_of_mem (List.mem_map_of_mem hpiece)
      rw [← List.mem_reverse, ← List.map_reverse, ← lookup_isSome_iff] at hstaged
      obtain ⟨row, hrow⟩ := Option.isSome_iff_exists.mp hstaged
      obtain ⟨found, hfound, status, rfl⟩ := lookup_upsertStagedChunks w.db.chunks hrow
      obtain ⟨other, -, rfl⟩ := List.mem_map.mp (List.mem_reverse.mp (lookup_mem hrow).1)
      obtain ⟨hmem, hfid⟩ := lookup_mem hfound
      simp only [step, hmetadata]
      refine not_enveloped_of_leaf hnode (h.tables.live node hnode) hlevel hmem ?_ hout
      rw [hfid]
      exact hid
  | commit i minted enqueueFollowUps =>
      unfold KeepsTimes at hbad
      push Not at hbad
      obtain ⟨flight, hflight, hlevel, ⟨db, hcommit⟩, chunk, hchunk, hid, -, hout⟩ := hbad
      obtain ⟨hchunks, hnodes, -⟩ := flight.commit_adds hsealing hcommit
      simp only [step, hflight, hcommit]
      have hnode : (flight.node config minted).bare ∈ db.nodes := by
        rw [hnodes]
        exact List.mem_append_right _ List.mem_cons_self
      refine not_enveloped_of_leaf hnode ?_ ?_ (hchunks ▸ hchunk) ?_ fun hin => hout ⟨hin.start, hin.stop⟩
      · cases flight <;> rfl
      · rw [SummaryNode.bare_level, Flight.node_level, hlevel]
      · rw [SummaryNode.bare_childIds, Flight.node_childIds]
        exact hid
  | _ => exact absurd trivial hbad

/-- Along a run of ingests, appends and seals, all envelopes hold throughout exactly when no batch moves a
sealed chunk out of the envelope of its summary. -/
theorem enveloped_iff (config : TreeConfig) (labels : List Label)
    (hsealing : (machine config).AllSteps Sealing labels) :
    (machine config).Throughout (fun w => Enveloped w.db) labels ↔
      (machine config).AllSteps (KeepsTimes config) labels := by
  have hstart : Enveloped (machine config).start.db := rangedSeals_empty.tables.enveloped
  rw [Machine.throughout_iff_allSteps, and_iff_right hstart]
  refine (machine config).allSteps_iff_of_guard RangedSeals rangedSeals_empty ?_ ?_ hsealing
  · intro w label h hsealing hkeeps
    have hnext := (step_step config w label).rangedSeals h hsealing hkeeps
    exact ⟨hnext, hnext.tables.enveloped⟩
  · intro w label h hsealing hbad
    exact h.breaks hsealing hbad

/-- The second message of a channel is sealed, and then comes again in a batch that starts earlier. -/
def overlappingBatch : List Label :=
  [.createTree "t" .source "room",
    .ingest "room" "me" (.chat [100, 200]) [⟨"a", 12, 0, "a.md"⟩, ⟨"b", 12, 1, "b.md"⟩] none,
    .append "t" 0 "b" 12 100, .snapshot "t" 0, .commit 0 ⟨"s", 5, 300⟩ false,
    .ingest "room" "me" (.chat [200, 50]) [⟨"c", 12, 0, "c.md"⟩, ⟨"b", 12, 1, "b.md"⟩] none]

theorem overlappingBatch_sealing (config : TreeConfig) :
    (machine config).AllSteps Sealing overlappingBatch := by
  rw [Machine.allSteps_iff_stepsFrom]
  refine ⟨trivial, trivial, fun h => absurd h (lt_irrefl 0), trivial, ?_, trivial, trivial⟩
  exact List.not_mem_nil

/-- The summary starts at 100 and its chunk is now at 50. -/
theorem overlappingBatch_not_enveloped :
    (machine ⟨10, 5, 2⟩).AllSteps Sealing overlappingBatch ∧
      ¬(machine ⟨10, 5, 2⟩).Throughout (fun w => Enveloped w.db) overlappingBatch := by
  refine ⟨overlappingBatch_sealing _, fun h => ?_⟩
  have hlast := h overlappingBatch List.prefix_rfl
  have hencloses := hlast.leaves ⟨"s", "t", 1, none, ["b"], 5, 100, 200, 300, false, none, none⟩
    (by decide) rfl ⟨"b", .chat, "room", none, 50, 50, 200, 12, 1, .admitted⟩
    ⟨by decide, _, .self, rfl, by decide⟩
  exact absurd hencloses.start (by decide)

/-- A batch that has the message again without an earlier one keeps every envelope. -/
theorem enveloped_iff_repeatedMessage :
    (machine ⟨10, 5, 2⟩).Throughout (fun w => Enveloped w.db)
      (overlappingBatch.take 5 ++
        [.ingest "room" "me" (.chat [200]) [⟨"b", 12, 1, "b.md"⟩] none]) := by
  refine (enveloped_iff ⟨10, 5, 2⟩ _ ?_).mpr ?_
  · rw [Machine.allSteps_iff_stepsFrom]
    refine ⟨trivial, trivial, fun h => absurd h (lt_irrefl 0), trivial, ?_, trivial, trivial⟩
    exact List.not_mem_nil
  · rw [Machine.allSteps_iff_stepsFrom]
    refine ⟨trivial, ?_, trivial, trivial, ?_, ?_, trivial⟩
    · intro metadata _ piece _ node hnode
      cases hnode
    · intro flight hflight _ _ chunk hchunk hid hread
      obtain rfl := Option.some.inj hflight
      have hrows : ∀ row ∈ [(⟨"a", .chat, "room", none, 100, 100, 200, 12, 0, .admitted⟩ : Chunk),
          ⟨"b", .chat, "room", none, 100, 100, 200, 12, 1, .admitted⟩], row.id ∈ ["b"] →
          ("b", (100 : Int), (200 : Int)) = (row.id, row.timeRangeStartMs, row.timeRangeEndMs) := by
        decide
      have hrow := hrows chunk hchunk hid
      exact absurd ⟨⟨"b", 12, 100, 200⟩, List.mem_cons_self, (Prod.mk.inj hrow).1,
        Prod.mk.inj (Prod.mk.inj hrow).2⟩ hread
    · intro metadata hmetadata piece _ node hnode _ _
      obtain rfl := Option.some.inj hmetadata
      obtain rfl := List.mem_singleton.mp hnode
      exact ⟨by decide, by decide⟩

end Workspace
end TinyCortex.SummaryTree
