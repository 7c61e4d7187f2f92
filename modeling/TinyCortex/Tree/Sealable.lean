import TinyCortex.Chunks.DeleteReach
import TinyCortex.Tree.Workspace

/-! Level-0 buffers and the chunks they name. A deletion removes chunk rows and, with the last chunk of a
scope, the tree of the scope; the buffers of a tree that stays keep the ids of the chunks that went. -/

namespace TinyCortex.SummaryTree

open Table Chunks Ingest

/-- The tokens of the items, by a count for each id. -/
def tokenTotal (tokensOf : String → Nat) (ids : List String) : Int := ((ids.map tokensOf).sum : Nat)

/-- The token count that the row of a chunk has. -/
def Db.leafTokens (db : Db) (id : String) : Nat := ((db.getChunk id).map Chunk.tokenCount).getD 0

/-- A seal of the current buffer, with nothing in between, hydrates and commits. -/
def Db.Seals (config : TreeConfig) (db : Db) (buf : Buffer) : Prop :=
  ∃ inputs, sealInputs db buf = .ok inputs ∧ ∀ minted : Minted, ∀ enqueueFollowUps, ∃ next followUp,
    commitSeal config buf (sealedNode buf inputs minted.id minted.tokenCount minted.nowMs) minted.nowMs
      enqueueFollowUps db = .ok (next, followUp)

/-- Every leaf that is buffered has its row, the token sums are right, and a buffer of an active tree that
meets its gate can be sealed. -/
structure Workspace.LeavesSealable (config : TreeConfig) (w : Workspace) : Prop where
  resolves : ∀ treeId, ∀ id ∈ w.db.buffered treeId 0, (w.db.getChunk id).isSome
  counts : ∀ treeId, (w.db.getBuffer treeId 0).tokenSum =
    tokenTotal w.db.leafTokens (w.db.buffered treeId 0)
  gates : ∀ treeId level tree, w.db.requireActive treeId = .ok tree →
    shouldSeal config (w.db.getBuffer treeId level) → w.db.Seals config (w.db.getBuffer treeId level)

section Buffers

variable {config : TreeConfig} {db next : Db} {treeId itemId : String} {level : Nat}

theorem tokenTotal_append (tokensOf : String → Nat) (ids more : List String) :
    tokenTotal tokensOf (ids ++ more) = tokenTotal tokensOf ids + tokenTotal tokensOf more := by
  simp [tokenTotal]

theorem tokenTotal_nonneg (tokensOf : String → Nat) (ids : List String) :
    0 ≤ tokenTotal tokensOf ids := by
  unfold tokenTotal
  omega

theorem appendToBuffer_getBuffer {tokenDelta itemTs : Int}
    (h : appendToBuffer treeId level itemId tokenDelta itemTs db = .ok next)
    (hnot : itemId ∉ db.buffered treeId level) :
    (next.getBuffer treeId level).tokenSum =
        I64.saturatingAdd (db.getBuffer treeId level).tokenSum tokenDelta ∧
      ∀ treeId' level', (treeId', level') ≠ (treeId, level) →
        next.getBuffer treeId' level' = db.getBuffer treeId' level' := by
  obtain ⟨tree, -, h⟩ := Fallible.bind_ok_iff.mp h
  rw [Db.buffered] at hnot
  dsimp only at h
  rw [if_neg hnot] at h
  obtain rfl := Except.ok.inj h
  constructor
  · rw [Db.getBuffer_upsertBuffer_self]
    exact Db.getBuffer_key
  · intro treeId' level' hne
    apply Db.getBuffer_upsertBuffer_of_ne
    intro heq
    exact hne (heq.symm.trans Db.getBuffer_key)

/-- What a commit leaves of the token sum of the buffer that it consumes. -/
theorem commitSeal_tokens {snapshot : Buffer} {node : SummaryNode} {nowMs : Int}
    {enqueueFollowUps : Bool} {followUp : Option Queue.SealPayload}
    (hlevel : node.level = snapshot.level + 1)
    (h : commitSeal config snapshot node nowMs enqueueFollowUps db = .ok (next, followUp)) :
    (next.getBuffer snapshot.treeId snapshot.level).tokenSum =
      if (db.buffered snapshot.treeId snapshot.level).drop snapshot.itemIds.length = [] then 0
      else max (I64.saturatingSub (db.getBuffer snapshot.treeId snapshot.level).tokenSum
        snapshot.tokenSum) 0 := by
  obtain ⟨tree, -, h⟩ := Fallible.bind_ok_iff.mp h
  obtain ⟨consumed, hconsumed, h⟩ := Fallible.bind_ok_iff.mp h
  obtain ⟨rfl, -⟩ := Prod.mk.inj (Except.ok.inj h)
  obtain ⟨hinsBuf, -, -⟩ := insertSealed_frame snapshot.level node db
  have hcurrent : (insertSealed snapshot.level node db).getBuffer snapshot.treeId snapshot.level =
      db.getBuffer snapshot.treeId snapshot.level := Db.getBuffer_congr hinsBuf _ _
  obtain ⟨parent, hkey, -, hpush⟩ := pushParent_eq node consumed
  have hparent : parent.key ≠ (snapshot.treeId, snapshot.level) := by
    rw [hkey, hlevel]
    intro heq
    have hlevels := congrArg Prod.snd heq
    dsimp only at hlevels
    omega
  rw [Db.getBuffer_congr (raiseHeader_frame _ _ _ _).1, hpush, Db.getBuffer_upsertBuffer_of_ne hparent]
  unfold Db.consumeSnapshot at hconsumed
  dsimp only at hconsumed
  rw [hcurrent] at hconsumed
  split_ifs at hconsumed with hprefixed hrest
  · obtain rfl := Except.ok.inj hconsumed
    rw [Db.getBuffer_upsertBuffer_self, Db.buffered, if_pos hrest]
    exact Db.getBuffer_key
  · obtain rfl := Except.ok.inj hconsumed
    rw [Db.getBuffer_upsertBuffer_self, Db.buffered, if_neg hrest]
    exact Db.getBuffer_key

/-- A commit that consumes the current buffer of an active tree goes through. -/
theorem commitSeal_current {buf : Buffer} {tree : Tree} {node : SummaryNode} (nowMs : Int)
    (enqueueFollowUps : Bool) (hactive : db.requireActive buf.treeId = .ok tree)
    (hcurrent : db.getBuffer buf.treeId buf.level = buf) : ∃ next followUp,
      commitSeal config buf node nowMs enqueueFollowUps db = .ok (next, followUp) := by
  obtain ⟨hinsBuf, -, -⟩ := insertSealed_frame buf.level node db
  obtain ⟨consumed, hconsumed⟩ : ∃ consumed,
      (insertSealed buf.level node db).consumeSnapshot buf = .ok consumed := by
    unfold Db.consumeSnapshot
    dsimp only
    rw [Db.getBuffer_congr hinsBuf, hcurrent]
    exact ⟨_, if_pos (List.isPrefixOf_iff_prefix.mpr List.prefix_rfl)⟩
  unfold commitSeal
  rw [hactive]
  dsimp only [bind, Except.bind]
  rw [hconsumed]
  exact ⟨_, _, rfl⟩

end Buffers

namespace Workspace

variable {config : TreeConfig} {tokensOf : String → Nat} {w next : Workspace} {label : Label}

/-- The append adds an item: its tree is active, and the item is not in the buffer yet. -/
def Adds (w : Workspace) (treeId : String) (level : Nat) (itemId : String) : Prop :=
  (∃ tree, w.db.requireActive treeId = .ok tree) ∧ itemId ∉ w.db.buffered treeId level

/-- The steps that keep leaves sealable. Ids determine token counts, since they are hashes of the text; an
append adds a chunk that is there, or a summary of its tree; and a deletion takes no chunk that is
buffered in a tree that it leaves. -/
def KeepsLeaves (tokensOf : String → Nat) (w : Workspace) : Label → Prop
  | .ingest _ _ _ pieces _ => ∀ piece ∈ pieces, piece.tokenCount = tokensOf piece.id
  | .append treeId level itemId tokenDelta _ => Adds w treeId level itemId →
      if level = 0 then
        itemId ∈ w.db.chunks.map Chunk.id ∧ tokenDelta = tokensOf itemId ∧
          (w.db.getBuffer treeId 0).tokenSum + tokenDelta ≤ I64.maxValue
      else ∃ s ∈ w.db.summaries, s.id = itemId ∧ s.treeId = treeId
  | .delete request => ∀ treeId, ∀ id ∈ w.db.buffered treeId 0,
      (∃ chunk ∈ w.db.chunks, chunk.id = id ∧ request.selects w.store chunk) →
      ∃ tree ∈ w.db.trees, tree.id = treeId ∧ request.dooms w.store tree
  | _ => True

/-- What such steps keep of a buffer: level 0 holds chunks and their token count, the levels above hold
summaries of the tree, and a buffer with items has its tree. -/
structure BufferOk (tokensOf : String → Nat) (db : Db) (buf : Buffer) : Prop where
  leaves : buf.level = 0 → ∀ id ∈ buf.itemIds, id ∈ db.chunks.map Chunk.id
  sum : buf.level = 0 → buf.tokenSum = tokenTotal tokensOf buf.itemIds
  fits : buf.level = 0 → buf.tokenSum ≤ I64.maxValue
  upper : 0 < buf.level → ∀ id ∈ buf.itemIds, ∃ s ∈ db.summaries, s.id = id ∧ s.treeId = buf.treeId
  owned : buf.itemIds ≠ [] → ∃ tree ∈ db.trees, tree.id = buf.treeId

/-- What every state satisfies that such steps reach. -/
structure Sealable (tokensOf : String → Nat) (w : Workspace) : Prop where
  keyed : TreesKeyed w.db
  tokens : ∀ chunk ∈ w.db.chunks, chunk.tokenCount = tokensOf chunk.id
  buffers : ∀ treeId level, BufferOk tokensOf w.db (w.db.getBuffer treeId level)
  flights : ∀ snapshot inputs, .bucket snapshot inputs ∈ w.flights → snapshot.level = 0 →
    snapshot.tokenSum = tokenTotal tokensOf snapshot.itemIds

theorem bufferOk_empty (db : Db) (treeId : String) (level : Nat) :
    BufferOk tokensOf db (Buffer.empty treeId level) where
  leaves := fun _ _ h => absurd h List.not_mem_nil
  sum := fun _ => rfl
  fits := fun _ => show (0 : Int) ≤ I64.maxValue by decide
  upper := fun _ _ h => absurd h List.not_mem_nil
  owned := fun h => absurd rfl h

theorem sealable_empty : Sealable tokensOf empty where
  keyed := ⟨List.nodup_nil, List.nodup_nil⟩
  tokens := fun _ h => absurd h List.not_mem_nil
  buffers := fun treeId level => bufferOk_empty _ treeId level
  flights := fun _ _ h => absurd h List.not_mem_nil

theorem Sealable.leaf_tokens (h : Sealable tokensOf w) {id : String}
    (hid : id ∈ w.db.chunks.map Chunk.id) : w.db.leafTokens id = tokensOf id := by
  obtain ⟨chunk, hchunk⟩ := Option.isSome_iff_exists.mp (lookup_isSome_iff.mpr hid)
  obtain ⟨hmem, rfl⟩ := lookup_mem hchunk
  rw [Db.leafTokens, Db.getChunk, hchunk]
  exact h.tokens chunk hmem

/-- In such a state every leaf resolves, the sums are right and a gate that is met can be sealed. -/
theorem Sealable.leavesSealable (config : TreeConfig) (h : Sealable tokensOf w) :
    LeavesSealable config w where
  resolves := fun treeId id hid =>
    lookup_isSome_iff.mpr ((h.buffers treeId 0).leaves Db.getBuffer_level id hid)
  counts := by
    intro treeId
    rw [(h.buffers treeId 0).sum Db.getBuffer_level, tokenTotal, tokenTotal]
    congr 2
    apply List.map_congr_left
    intro id hid
    exact (h.leaf_tokens ((h.buffers treeId 0).leaves Db.getBuffer_level id hid)).symm
  gates := by
    intro treeId level tree hactive hgate
    have hresolves : ∀ id ∈ w.db.buffered treeId level, w.db.Resolves level id := by
      intro id hid
      unfold Db.Resolves
      split_ifs with hlevel
      · exact (h.buffers treeId level).leaves (Db.getBuffer_level.trans hlevel) id hid
      · have hpos : 0 < (w.db.getBuffer treeId level).level := by
          rw [Db.getBuffer_level]
          omega
        obtain ⟨s, hs, rfl, -⟩ := (h.buffers treeId level).upper hpos id hid
        exact List.mem_map_of_mem hs
    have hids := hydrateInputs_ids_of_resolves hresolves
    have hne : hydrateInputs w.db level (w.db.buffered treeId level) ≠ [] := by
      intro hnil
      rw [hnil, List.map_nil, Db.buffered] at hids
      rw [shouldSeal, if_pos hids.symm] at hgate
      cases hgate
    refine ⟨hydrateInputs w.db level (w.db.buffered treeId level), ?_, fun minted enqueueFollowUps => ?_⟩
    · rw [sealInputs, Db.getBuffer_level, ← Db.buffered]
      exact if_neg hne
    · apply commitSeal_current
      · rw [Db.getBuffer_treeId]
        exact hactive
      · rw [Db.getBuffer_treeId, Db.getBuffer_level]

/-- No row is lost: the rows that buffers name are all there afterwards. -/
structure Keeps (db next : Db) : Prop where
  chunks : ∀ id ∈ db.chunks.map Chunk.id, id ∈ next.chunks.map Chunk.id
  summaries : ∀ s ∈ db.summaries, ∃ row ∈ next.summaries, row.id = s.id ∧ row.treeId = s.treeId
  trees : ∀ id ∈ db.trees.map Tree.id, id ∈ next.trees.map Tree.id

theorem BufferOk.keeps {db db' : Db} {buf : Buffer} (h : BufferOk tokensOf db buf)
    (hkeeps : Keeps db db') : BufferOk tokensOf db' buf where
  leaves := fun hlevel id hid => hkeeps.chunks id (h.leaves hlevel id hid)
  sum := h.sum
  fits := h.fits
  upper := by
    intro hlevel id hid
    obtain ⟨s, hs, rfl, htree⟩ := h.upper hlevel id hid
    rw [← htree]
    exact hkeeps.summaries s hs
  owned := by
    intro hne
    obtain ⟨tree, htree, hid⟩ := h.owned hne
    have hmem := hkeeps.trees tree.id (List.mem_map_of_mem htree)
    rw [hid] at hmem
    exact List.mem_map.mp hmem

/-- A step that touches no buffer and loses no row. -/
theorem Sealable.still (h : Sealable tokensOf w) (hkeyed : TreesKeyed next.db)
    (htokens : ∀ chunk ∈ next.db.chunks, chunk.tokenCount = tokensOf chunk.id)
    (hkeeps : Keeps w.db next.db) (hbuffers : next.db.buffers = w.db.buffers)
    (hflights : ∀ snapshot inputs, .bucket snapshot inputs ∈ next.flights →
      .bucket snapshot inputs ∈ w.flights) : Sealable tokensOf next where
  keyed := hkeyed
  tokens := htokens
  buffers := by
    intro treeId level
    rw [Db.getBuffer_congr hbuffers]
    exact (h.buffers treeId level).keeps hkeeps
  flights := fun snapshot inputs hmem => h.flights snapshot inputs (hflights snapshot inputs hmem)

theorem Keeps.refl (db : Db) : Keeps db db :=
  ⟨fun _ h => h, fun s hs => ⟨s, hs, rfl, rfl⟩, fun _ h => h⟩

theorem Keeps.upsertBuffer {db mid : Db} (h : Keeps db mid) (buf : Buffer) :
    Keeps db (mid.upsertBuffer buf) := ⟨h.chunks, h.summaries, h.trees⟩

theorem keeps_insertSealed (level : Nat) (node : SummaryNode) (db : Db) :
    Keeps db (insertSealed level node db) := by
  obtain ⟨-, htrees, hchunks⟩ := insertSealed_frame level node db
  refine ⟨fun id hid => hchunks ▸ hid, fun s hs => ?_, fun id hid => htrees ▸ hid⟩
  obtain ⟨row, hrow, hsealed⟩ := insertSealed_old level node hs
  rw [SummaryNode.SealedAs] at hsealed
  exact ⟨row, hrow, by rw [hsealed], by rw [hsealed]⟩

/-- Header columns are no keys. -/
theorem treesKeyed_update {db db' : Db} {p : Tree → Bool} {f : Tree → Tree} (h : TreesKeyed db)
    (htrees : db'.trees = update p f db.trees) (hid : ∀ tree, (f tree).id = tree.id)
    (hscoped : ∀ tree, (f tree).scoped = tree.scoped) :
    TreesKeyed db' ∧ db'.trees.map Tree.id = db.trees.map Tree.id := by
  have hids : db'.trees.map Tree.id = db.trees.map Tree.id := by
    rw [htrees]
    exact map_update hid _
  refine ⟨⟨?_, ?_⟩, hids⟩
  · rw [hids]
    exact h.ids
  · rw [htrees, map_update hscoped]
    exact h.scopes

theorem treesKeyed_raiseHeader {db : Db} (h : TreesKeyed db) (currentMax : Nat) (node : SummaryNode)
    (nowMs : Int) : TreesKeyed (raiseHeader currentMax node nowMs db) ∧
      (raiseHeader currentMax node nowMs db).trees.map Tree.id = db.trees.map Tree.id := by
  unfold raiseHeader
  split_ifs
  · exact treesKeyed_update h rfl (fun _ => rfl) fun _ => rfl
  · exact treesKeyed_update h rfl (fun _ => rfl) fun _ => rfl

/-- Header columns changed, and nothing else. -/
theorem Sealable.header (h : Sealable tokensOf w) {db : Db} {p : Tree → Bool} {f : Tree → Tree}
    (htrees : db.trees = update p f w.db.trees) (hid : ∀ tree, (f tree).id = tree.id)
    (hscoped : ∀ tree, (f tree).scoped = tree.scoped) (hchunks : db.chunks = w.db.chunks)
    (hsummaries : db.summaries = w.db.summaries) (hbuffers : db.buffers = w.db.buffers) :
    Sealable tokensOf (w.withDb db) := by
  obtain ⟨hkeyed, hids⟩ := treesKeyed_update h.keyed htrees hid hscoped
  refine h.still hkeyed ?_ ⟨?_, ?_, ?_⟩ hbuffers fun _ _ hmem => hmem
  · rw [withDb_db, hchunks]
    exact h.tokens
  · rw [withDb_db, hchunks]
    exact fun _ hid => hid
  · rw [withDb_db, hsummaries]
    exact fun s hs => ⟨s, hs, rfl, rfl⟩
  · rw [withDb_db, hids]
    exact fun _ hid => hid

theorem Sealable.ingest (h : Sealable tokensOf w) {metadata : Metadata} {pieces : List Piece}
    {rawRefs : Option (List String)} (hpieces : ∀ piece ∈ pieces, piece.tokenCount = tokensOf piece.id) :
    Sealable tokensOf { w with store := stage metadata pieces rawRefs w.store } := by
  refine h.still ⟨h.keyed.ids, h.keyed.scopes⟩ ?_ ⟨?_, fun s hs => ⟨s, hs, rfl, rfl⟩, fun _ hid => hid⟩
    rfl fun _ _ hmem => hmem
  · intro chunk hchunk
    rcases mem_upsertStagedChunks hchunk with hold | ⟨row, hrow, status, rfl⟩
    · exact h.tokens chunk hold
    · obtain ⟨piece, hpiece, rfl⟩ := List.mem_map.mp hrow
      exact hpieces piece hpiece
  · intro id hid
    exact mem_ids_upsertStagedChunks.mpr (Or.inr hid)

theorem Sealable.setLifecycle (h : Sealable tokensOf w) {chunkId : String} {status : ChunkStatus}
    {chunks : List Chunk} (hset : setChunkLifecycleStatus chunkId status w.db.chunks = .ok chunks) :
    Sealable tokensOf (w.withDb { w.db with chunks := chunks }) := by
  refine h.still ⟨h.keyed.ids, h.keyed.scopes⟩ ?_ ⟨?_, fun s hs => ⟨s, hs, rfl, rfl⟩, fun _ hid => hid⟩
    rfl fun _ _ hmem => hmem
  · intro chunk hchunk
    obtain ⟨old, hold, rfl | ⟨status, rfl⟩⟩ := mem_setChunkLifecycleStatus hset hchunk
    · exact h.tokens chunk hold
    · exact h.tokens old hold
  · intro id hid
    rw [withDb_db, ids_setChunkLifecycleStatus hset]
    exact hid

theorem Sealable.createTree (h : Sealable tokensOf w) {treeId scope : String} {kind : TreeKind}
    (hscope : getTreeByScope w.db kind scope = none) (hid : treeId ∉ w.db.trees.map Tree.id) :
    Sealable tokensOf
      (w.withDb { w.db with trees := w.db.trees ++ [Tree.fresh treeId kind scope] }) := by
  refine h.still ⟨?_, ?_⟩ h.tokens ⟨fun _ hid => hid, fun s hs => ⟨s, hs, rfl, rfl⟩, ?_⟩ rfl
    fun _ _ hmem => hmem
  · rw [withDb_db, List.map_append, List.nodup_append]
    refine ⟨h.keyed.ids, List.nodup_singleton _, ?_⟩
    rintro id hmem _ hnew rfl
    obtain rfl := List.mem_singleton.mp hnew
    exact hid hmem
  · rw [withDb_db, List.map_append, List.nodup_append]
    refine ⟨h.keyed.scopes, List.nodup_singleton _, ?_⟩
    rintro pair hmem _ hnew rfl
    obtain rfl := List.mem_singleton.mp hnew
    obtain ⟨tree, htree, heq⟩ := List.mem_map.mp hmem
    obtain ⟨rfl, rfl⟩ := Prod.mk.inj heq
    rw [getTreeByScope_of_mem h.keyed.scopes htree] at hscope
    cases hscope
  · intro id hmem
    rw [withDb_db, List.map_append]
    exact List.mem_append_left _ hmem

theorem Sealable.append (h : Sealable tokensOf w) {treeId itemId : String} {level : Nat}
    {tokenDelta itemTs : Int} {db : Db}
    (happend : appendToBuffer treeId level itemId tokenDelta itemTs w.db = .ok db)
    (hkeeps : KeepsLeaves tokensOf w (.append treeId level itemId tokenDelta itemTs)) :
    Sealable tokensOf (w.withDb db) := by
  obtain ⟨htrees, hchunks, hsummaries⟩ := appendToBuffer_frame happend
  have hactive := appendToBuffer_active happend
  by_cases hmem : itemId ∈ w.db.buffered treeId level
  · have hsame : db = w.db := by
      rcases appendToBuffer_cases happend with ⟨-, heq⟩ | ⟨hnot, -⟩
      · exact heq
      · exact absurd hmem hnot
    rw [hsame]
    exact h
  obtain ⟨htokens, hothers⟩ := appendToBuffer_getBuffer happend hmem
  have hitems := appendToBuffer_buffered happend treeId level
  rw [if_pos ⟨rfl, rfl, hmem⟩, Db.buffered, Db.buffered] at hitems
  have hcond := hkeeps ⟨hactive, hmem⟩
  have hrows : Keeps w.db db := by
    refine ⟨?_, ?_, ?_⟩
    · rw [hchunks]
      exact fun _ hid => hid
    · rw [hsummaries]
      exact fun s hs => ⟨s, hs, rfl, rfl⟩
    · rw [htrees]
      exact fun _ hid => hid
  have hbuf := h.buffers treeId level
  have hnew : BufferOk tokensOf w.db (db.getBuffer treeId level) := by
    constructor
    · intro hlevel id hid
      rw [Db.getBuffer_level] at hlevel
      rw [if_pos hlevel] at hcond
      rw [hitems] at hid
      rcases List.mem_append.mp hid with hold | hlast
      · exact hbuf.leaves (Db.getBuffer_level.trans hlevel) id hold
      · rw [List.mem_singleton.mp hlast]
        exact hcond.1
    · intro hlevel
      rw [Db.getBuffer_level] at hlevel
      subst hlevel
      rw [if_pos rfl] at hcond
      have hsum := hbuf.sum Db.getBuffer_level
      have hpos := tokenTotal_nonneg tokensOf (w.db.getBuffer treeId 0).itemIds
      have hlow : I64.minValue ≤ (w.db.getBuffer treeId 0).tokenSum + tokenDelta := by
        have hdelta := hcond.2.1
        unfold I64.minValue
        omega
      rw [htokens, I64.saturatingAdd, I64.saturate_eq hlow hcond.2.2, hitems, tokenTotal_append, hsum,
        hcond.2.1]
      simp [tokenTotal]
    · intro hlevel
      rw [Db.getBuffer_level] at hlevel
      subst hlevel
      rw [if_pos rfl] at hcond
      rw [htokens]
      unfold I64.saturatingAdd I64.saturate I64.minValue I64.maxValue
      omega
    · intro hlevel id hid
      rw [Db.getBuffer_level] at hlevel
      rw [if_neg hlevel.ne'] at hcond
      rw [Db.getBuffer_treeId]
      rw [hitems] at hid
      rcases List.mem_append.mp hid with hold | hlast
      · have hupper := hbuf.upper (Db.getBuffer_level.symm ▸ hlevel) id hold
        rw [Db.getBuffer_treeId] at hupper
        exact hupper
      · rw [List.mem_singleton.mp hlast]
        exact hcond
    · intro _
      obtain ⟨tree, hfound⟩ := hactive
      obtain ⟨hmem, hid⟩ := lookup_mem (requireActive_ok_iff.mp hfound).1
      exact ⟨tree, hmem, hid.trans Db.getBuffer_treeId.symm⟩
  refine ⟨⟨htrees ▸ h.keyed.ids, htrees ▸ h.keyed.scopes⟩, hchunks ▸ h.tokens,
    fun treeId' level' => ?_, h.flights⟩
  by_cases heq : (treeId', level') = (treeId, level)
  · obtain ⟨rfl, rfl⟩ := Prod.mk.inj heq
    exact hnew.keeps hrows
  · rw [withDb_db, hothers treeId' level' heq]
    exact (h.buffers treeId' level').keeps hrows

/-- An item that is pushed onto a buffer above level 0. -/
theorem BufferOk.push {db : Db} {old buf : Buffer} (id : String) (h : BufferOk tokensOf db old)
    (hkey : buf.key = old.key) (hpos : 0 < buf.level) (hitems : buf.itemIds ⊆ id :: old.itemIds)
    (hrow : ∃ s ∈ db.summaries, s.id = id ∧ s.treeId = buf.treeId)
    (htree : ∃ tree ∈ db.trees, tree.id = buf.treeId) : BufferOk tokensOf db buf where
  leaves := fun hlevel => absurd hlevel hpos.ne'
  sum := fun hlevel => absurd hlevel hpos.ne'
  fits := fun hlevel => absurd hlevel hpos.ne'
  upper := by
    intro _ other hother
    obtain ⟨htreeId, hlevel⟩ := Prod.mk.inj hkey
    rcases List.mem_cons.mp (hitems hother) with rfl | hold
    · exact hrow
    · rw [htreeId]
      exact h.upper (hlevel ▸ hpos) other hold
  owned := fun _ => htree

/-- What a commit leaves of the buffer that it consumes. -/
theorem BufferOk.consumed {snapshot : Buffer} {node : SummaryNode} {nowMs : Int}
    {enqueueFollowUps : Bool} {followUp : Option Queue.SealPayload} {db : Db}
    (h : BufferOk tokensOf w.db (w.db.getBuffer snapshot.treeId snapshot.level))
    (hsnapshot : snapshot.level = 0 → snapshot.tokenSum = tokenTotal tokensOf snapshot.itemIds)
    (hlevel : node.level = snapshot.level + 1)
    (hseal : commitSeal config snapshot node nowMs enqueueFollowUps w.db = .ok (db, followUp))
    (hcommitted : Committed config snapshot node nowMs enqueueFollowUps w.db db followUp) :
    BufferOk tokensOf w.db (db.getBuffer snapshot.treeId snapshot.level) := by
  have hitems := hcommitted.buffered snapshot.treeId snapshot.level
  rw [bufferedAfterSeal, if_pos ⟨rfl, rfl⟩, Db.buffered] at hitems
  have htokens := commitSeal_tokens hlevel hseal
  obtain ⟨rest, hrest⟩ := hcommitted.snapshotHeld
  rw [← hrest, List.drop_left] at hitems htokens
  have hsubset : (db.getBuffer snapshot.treeId snapshot.level).itemIds ⊆
      (w.db.getBuffer snapshot.treeId snapshot.level).itemIds := by
    rw [hitems, ← Db.buffered, ← hrest]
    exact List.subset_append_right _ _
  have hsum : snapshot.level = 0 → (db.getBuffer snapshot.treeId snapshot.level).tokenSum =
      tokenTotal tokensOf rest := by
    intro hzero
    have hold := h.sum (Db.getBuffer_level.trans hzero)
    have hfits := h.fits (Db.getBuffer_level.trans hzero)
    rw [← Db.buffered, ← hrest, tokenTotal_append] at hold
    have hpos := tokenTotal_nonneg tokensOf rest
    have hpos' := tokenTotal_nonneg tokensOf snapshot.itemIds
    rw [htokens, hsnapshot hzero]
    split_ifs with hnil
    · rw [hnil]
      rfl
    · unfold I64.saturatingSub I64.saturate I64.minValue
      unfold I64.maxValue at hfits ⊢
      omega
  refine ⟨fun hzero id hid => ?_, fun hzero => ?_, fun hzero => ?_, fun hpos id hid => ?_, fun hne => ?_⟩
  · rw [Db.getBuffer_level] at hzero
    exact h.leaves (Db.getBuffer_level.trans hzero) id (hsubset hid)
  · rw [Db.getBuffer_level] at hzero
    rw [hsum hzero, hitems]
  · rw [Db.getBuffer_level] at hzero
    have hold := h.sum (Db.getBuffer_level.trans hzero)
    have hfits := h.fits (Db.getBuffer_level.trans hzero)
    rw [← Db.buffered, ← hrest, tokenTotal_append] at hold
    have hpos' := tokenTotal_nonneg tokensOf snapshot.itemIds
    rw [hsum hzero]
    omega
  · rw [Db.getBuffer_level] at hpos
    rw [Db.getBuffer_treeId]
    have hupper := h.upper (Db.getBuffer_level.symm ▸ hpos) id (hsubset hid)
    rw [Db.getBuffer_treeId] at hupper
    exact hupper
  · have hne' : (w.db.getBuffer snapshot.treeId snapshot.level).itemIds ≠ [] :=
      fun hnil => hne (List.subset_nil.mp (hnil ▸ hsubset))
    have howned := h.owned hne'
    rw [Db.getBuffer_treeId] at howned ⊢
    exact howned

theorem Sealable.commitBucket (h : Sealable tokensOf w) {snapshot : Buffer} {inputs : List SummaryInput}
    {minted : Minted} {enqueueFollowUps : Bool} {db : Db}
    (hflight : .bucket snapshot inputs ∈ w.flights) (hfresh : minted.id ∉ w.db.nodeIds)
    (hcommit : (Flight.bucket snapshot inputs).commit config minted enqueueFollowUps w.db = .ok db) :
    Sealable tokensOf (w.withDb db) := by
  obtain ⟨⟨committed, followUp⟩, hseal, rfl⟩ := Fallible.map_ok_iff.mp hcommit
  have hcommitted := commitSeal_ok hseal rfl rfl
  let node := sealedNode snapshot inputs minted.id minted.tokenCount minted.nowMs
  obtain ⟨tree, hfound, hstatus, htrees⟩ := hcommitted.header
  obtain ⟨hkeyed, hids⟩ := treesKeyed_raiseHeader h.keyed tree.maxLevel node minted.nowMs
  have hinserted := keeps_insertSealed snapshot.level node w.db
  have hkeeps : Keeps w.db committed := by
    refine ⟨?_, ?_, ?_⟩
    · rw [hcommitted.chunks]
      exact fun _ hid => hid
    · rw [hcommitted.summaries]
      exact hinserted.summaries
    · rw [htrees, hids]
      exact fun _ hid => hid
  refine ⟨⟨htrees ▸ hkeyed.ids, htrees ▸ hkeyed.scopes⟩, hcommitted.chunks ▸ h.tokens,
    fun treeId level => ?_, h.flights⟩
  by_cases hsame : treeId = snapshot.treeId ∧ level = snapshot.level
  · obtain ⟨rfl, rfl⟩ := hsame
    exact ((h.buffers _ _).consumed (h.flights snapshot inputs hflight) rfl hseal hcommitted).keeps hkeeps
  by_cases hup : treeId = snapshot.treeId ∧ level = snapshot.level + 1
  · obtain ⟨rfl, rfl⟩ := hup
    have hitems := hcommitted.buffered snapshot.treeId (snapshot.level + 1)
    rw [bufferedAfterSeal, if_neg hsame, if_pos ⟨rfl, rfl⟩] at hitems
    refine ((h.buffers snapshot.treeId (snapshot.level + 1)).keeps hkeeps).push minted.id ?_ ?_ ?_ ?_ ?_
    · rw [withDb_db, Db.getBuffer_key, Db.getBuffer_key]
    · rw [Db.getBuffer_level]
      exact Nat.succ_pos _
    · intro id hid
      rw [withDb_db, ← Db.buffered, hitems] at hid
      rcases List.mem_append.mp hid with hold | hlast
      · exact List.mem_cons_of_mem _ hold
      · rw [List.mem_singleton.mp hlast]
        exact List.mem_cons_self
    · rw [Db.nodeIds_eq] at hfresh
      obtain ⟨row, hrow, hsealed⟩ := insertSealed_new snapshot.level node hfresh
      rw [SummaryNode.SealedAs] at hsealed
      rw [Db.getBuffer_treeId, withDb_db, hcommitted.summaries]
      exact ⟨row, hrow, congrArg SummaryNode.id hsealed, congrArg SummaryNode.treeId hsealed⟩
    · obtain ⟨hmem, hid⟩ := lookup_mem hfound
      have hlast := hkeeps.trees tree.id (List.mem_map_of_mem hmem)
      rw [hid] at hlast
      rw [Db.getBuffer_treeId]
      exact List.mem_map.mp hlast
  · have huntouched := hcommitted.untouched treeId level (by tauto)
    rw [withDb_db, huntouched]
    exact (h.buffers treeId level).keeps hkeeps

theorem Sealable.commitBatch (h : Sealable tokensOf w) {doc : DocumentSeal} {level : Nat}
    {childIds : List String} {inputs : List SummaryInput} {minted : Minted} {enqueueFollowUps : Bool}
    {db : Db} (hcommit : (Flight.batch doc level childIds inputs).commit config minted enqueueFollowUps
      w.db = .ok db) : Sealable tokensOf (w.withDb db) := by
  obtain ⟨tree, -, hcommit⟩ := Fallible.bind_ok_iff.mp hcommit
  obtain rfl := Except.ok.inj hcommit
  let node := explicitNode config doc level childIds inputs minted
  obtain ⟨hbuffers, htrees, hchunks⟩ := insertSealed_frame level node w.db
  refine h.still ⟨?_, ?_⟩ ?_ (keeps_insertSealed level node w.db) hbuffers fun _ _ hmem => hmem
  · rw [withDb_db, htrees]
    exact h.keyed.ids
  · rw [withDb_db, htrees]
    exact h.keyed.scopes
  · rw [withDb_db, hchunks]
    exact h.tokens

theorem Sealable.ingestSummary (h : Sealable tokensOf w) {input : SummaryIngest} {summaryId : String}
    {nowMs : Int} {db : Db} (hfresh : summaryId ∉ w.db.nodeIds)
    (hingest : SummaryTree.ingestSummary input summaryId nowMs w.db = .ok db) :
    Sealable tokensOf (w.withDb db) := by
  obtain ⟨tree, pushed, htree, hcase, hnext⟩ := ingestSummary_cases hingest
  let node := ingestedNode input summaryId nowMs
  let inserted := w.db.insertSummary node
  have hinserted : Keeps w.db inserted := keeps_insertSealed 0 node w.db
  have hrow : ∃ s ∈ inserted.summaries, s.id = summaryId ∧ s.treeId = input.treeId := by
    rw [Db.nodeIds_eq] at hfresh
    obtain ⟨row, hrow, hsealed⟩ := insertSealed_new 0 node hfresh
    exact ⟨row, hrow, congrArg SummaryNode.id hsealed, congrArg SummaryNode.treeId hsealed⟩
  have hfound : ∃ row ∈ inserted.trees, row.id = input.treeId := by
    obtain ⟨hmem, hid⟩ := lookup_mem htree
    exact ⟨tree, hmem, hid⟩
  have hpushed : Sealable tokensOf (w.withDb pushed) := by
    rcases hcase with rfl | rfl
    · exact h.still ⟨h.keyed.ids, h.keyed.scopes⟩ h.tokens hinserted rfl fun _ _ hmem => hmem
    · obtain ⟨buf, hkey, hitems, heq⟩ := pushParent_eq node inserted
      rw [heq]
      refine ⟨⟨h.keyed.ids, h.keyed.scopes⟩, h.tokens, fun treeId level => ?_, h.flights⟩
      by_cases hsame : buf.key = (treeId, level)
      · have hbuf : BufferOk tokensOf inserted buf := by
          obtain ⟨hbufTree, hbufLevel⟩ := Prod.mk.inj hkey
          refine ((h.buffers node.treeId node.level).keeps hinserted).push summaryId ?_ ?_ ?_ ?_ ?_
          · rw [hkey, Db.getBuffer_key]
          · rw [hbufLevel]
            exact Nat.one_pos
          · intro id hid
            rw [hitems] at hid
            rcases List.mem_append.mp hid with hold | hlast
            · exact List.mem_cons_of_mem _ hold
            · rw [List.mem_singleton.mp hlast]
              exact List.mem_cons_self
          · rw [hbufTree]
            exact hrow
          · rw [hbufTree]
            exact hfound
        rw [withDb_db, Db.getBuffer_upsertBuffer_self hsame]
        exact hbuf.keeps ((Keeps.refl inserted).upsertBuffer buf)
      · rw [withDb_db, Db.getBuffer_upsertBuffer_of_ne hsame]
        exact (h.buffers treeId level).keeps (hinserted.upsertBuffer buf)
  rw [hnext]
  split_ifs
  · exact hpushed.header rfl (fun _ => rfl) (fun _ => rfl) rfl rfl rfl
  · exact hpushed

theorem Sealable.delete (h : Sealable tokensOf w) {request : DeleteRequest}
    (hkeeps : KeepsLeaves tokensOf w (.delete request)) {parents : String → Option String} :
    Sealable tokensOf { w with store := request.run w.store, chunkParents := parents } := by
  have hleaves := delete_leaves h.keyed request
  refine ⟨h.keyed.of_sublist hleaves.sublist, ?_, fun treeId level => ?_, h.flights⟩
  · intro chunk hchunk
    have hmem : chunk ∈ (request.run w.store).db.chunks := hchunk
    rw [hleaves.chunks] at hmem
    exact h.tokens chunk (List.mem_of_mem_filter hmem)
  change BufferOk tokensOf (request.run w.store).db ((request.run w.store).db.getBuffer treeId level)
  by_cases hdoomed : ∃ tree ∈ w.db.trees, tree.id = treeId ∧ request.dooms w.store tree
  · obtain ⟨tree, htree, rfl, hdooms⟩ := hdoomed
    rw [hleaves.taken tree htree hdooms]
    exact bufferOk_empty _ _ _
  rcases hleaves.buffers treeId level with hsame | hempty
  · rw [hsame]
    have hbuf := h.buffers treeId level
    have hstays : ∀ tree ∈ w.db.trees, tree.id = treeId → tree ∈ (request.run w.store).db.trees :=
      fun tree htree hid => (hleaves.trees tree).mpr ⟨htree, fun hd => hdoomed ⟨tree, htree, hid, hd⟩⟩
    have howned : (w.db.getBuffer treeId level).itemIds ≠ [] →
        ∃ tree ∈ (request.run w.store).db.trees, tree.id = treeId := by
      intro hne
      obtain ⟨tree, htree, hid⟩ := hbuf.owned hne
      rw [Db.getBuffer_treeId] at hid
      exact ⟨tree, hstays tree htree hid, hid⟩
    refine ⟨fun hlevel id hid => ?_, hbuf.sum, hbuf.fits, fun hlevel id hid => ?_, fun hne => ?_⟩
    · have hzero : level = 0 := Db.getBuffer_level.symm.trans hlevel
      subst hzero
      obtain ⟨chunk, hchunk, rfl⟩ := List.mem_map.mp (hbuf.leaves hlevel id hid)
      rw [hleaves.chunks]
      refine List.mem_map_of_mem (List.mem_filter.mpr ⟨hchunk, ?_⟩)
      by_contra hselected
      rw [Bool.not_eq_true, Bool.not_eq_false'] at hselected
      exact hdoomed (hkeeps treeId chunk.id hid ⟨chunk, hchunk, rfl, hselected⟩)
    · obtain ⟨s, hs, hsid, hstree⟩ := hbuf.upper hlevel id hid
      obtain ⟨tree, htree, htid⟩ := howned (List.ne_nil_of_mem hid)
      rw [Db.getBuffer_treeId] at hstree ⊢
      have hkept := (hleaves.trees tree).mp htree
      exact ⟨s, hleaves.summaries tree htree s hs (hstree.trans htid.symm), hsid, hstree⟩
    · rw [Db.getBuffer_treeId]
      exact howned hne
  · rw [hempty]
    exact bufferOk_empty _ _ _

theorem Step.sealable {result : Except TreeError Unit} (h : Sealable tokensOf w)
    (hmints : Mints w label) (hkeeps : KeepsLeaves tokensOf w label)
    (hstep : Step config w label next result) : Sealable tokensOf next := by
  cases hstep with
  | idle => exact h
  | refused error hflights =>
      exact ⟨h.keyed, h.tokens, h.buffers, fun snapshot inputs hmem =>
        h.flights snapshot inputs (hflights hmem)⟩
  | ingest => exact h.ingest hkeeps
  | setLifecycle hset => exact h.setLifecycle hset
  | createTree hscope hid => exact h.createTree hscope hid
  | archive => exact h.header rfl (fun _ => rfl) (fun _ => rfl) rfl rfl rfl
  | append happend => exact h.append happend hkeeps
  | @snapshot treeId level =>
      refine ⟨h.keyed, h.tokens, h.buffers, fun snapshot inputs hmem hzero => ?_⟩
      rcases List.mem_append.mp hmem with hold | hnew
      · exact h.flights snapshot inputs hold hzero
      · obtain ⟨rfl, -⟩ := Flight.bucket.inj (List.mem_singleton.mp hnew)
        exact (h.buffers treeId level).sum hzero
  | hydrate =>
      refine ⟨h.keyed, h.tokens, h.buffers, fun snapshot inputs hmem => ?_⟩
      rcases List.mem_append.mp hmem with hold | hnew
      · exact h.flights snapshot inputs hold
      · cases List.mem_singleton.mp hnew
  | @commit i minted enqueueFollowUps flight db hflight hcommit =>
      have hmem := List.mem_of_getElem? hflight
      have hcommitted : Sealable tokensOf (w.withDb db) := by
        cases flight with
        | bucket snapshot inputs => exact h.commitBucket hmem hmints hcommit
        | batch doc level childIds inputs => exact h.commitBatch hcommit
      exact ⟨hcommitted.keyed, hcommitted.tokens, hcommitted.buffers, fun snapshot inputs hin =>
        h.flights snapshot inputs ((List.eraseIdx_sublist _ _).subset hin)⟩
  | @moveHeader treeId root nowMs tree htree =>
      unfold SummaryTree.moveHeader
      split_ifs
      · exact h.header rfl (fun _ => rfl) (fun _ => rfl) rfl rfl rfl
      · exact h
  | ingestSummary hingest => exact h.ingestSummary hmints hingest
  | delete request => exact h.delete hkeeps

/-- In every run in which appends name rows that are there and no deletion takes a chunk out of a buffer
that it leaves, leaves are sealable in every state. -/
theorem leavesSealable_run (config : TreeConfig) (tokensOf : String → Nat) (labels : List Label)
    (hsteps : (machine config).AllSteps (fun w label => Mints w label ∧ KeepsLeaves tokensOf w label)
      labels) : (machine config).Throughout (LeavesSealable config) labels :=
  (machine config).throughout_of_steps sealable_empty
    (fun w label h hok => (step_step config w label).sealable h hok.1 hok.2)
    (fun _ h => h.leavesSealable config) hsteps

/-- Two messages of a channel, of which the first is buffered, and then deleted alone. -/
def deletedLeaf : List Label :=
  [.createTree "t" .source "room",
    .ingest "room" "me" (.chat [100, 200]) [⟨"a", 12, 0, "a.md"⟩, ⟨"b", 12, 1, "b.md"⟩] none,
    .append "t" 0 "a" 12 100, .delete (.byId "a")]

/-- The buffer meets its gate, and its seal fails from now on. -/
theorem deletedLeaf_not_sealable :
    ¬(machine ⟨10, 5, 2⟩).Throughout (LeavesSealable ⟨10, 5, 2⟩) deletedLeaf := by
  intro h
  have hlast := h deletedLeaf List.prefix_rfl
  obtain ⟨inputs, hinputs, -⟩ := hlast.gates "t" 0 ⟨"t", .source, "room", none, 0, .active, none⟩ rfl rfl
  cases hinputs

/-- Deleting the whole channel takes its tree, and the buffer with it. -/
theorem leavesSealable_run_wholeChannel :
    (machine ⟨10, 5, 2⟩).Throughout (LeavesSealable ⟨10, 5, 2⟩)
      (deletedLeaf.take 3 ++ [.delete (.bySource .chat "room")]) := by
  refine leavesSealable_run _ (fun _ => 12) _ ((machine _).allSteps_iff_stepsFrom.mpr ?_)
  refine ⟨⟨trivial, trivial⟩, ⟨trivial, ?_⟩, ⟨trivial, fun _ => ?_⟩, ⟨trivial, ?_⟩, trivial⟩
  · unfold KeepsLeaves
    decide
  · rw [if_pos rfl]
    exact ⟨by decide, rfl, by decide⟩
  · intro treeId id hid _
    have hbuffered : treeId = "t" := by
      by_contra hne
      have hkey : Buffer.key ⟨"t", 0, ["a"], 12, some 100⟩ ≠ (treeId, 0) :=
        fun heq => hne (congrArg Prod.fst heq).symm
      have hnil : id ∈ (Option.getD (if Buffer.key ⟨"t", 0, ["a"], 12, some 100⟩ = (treeId, 0) then
          some ⟨"t", 0, ["a"], 12, some 100⟩ else none) (Buffer.empty treeId 0)).itemIds := hid
      rw [if_neg hkey] at hnil
      exact absurd hnil List.not_mem_nil
    rw [hbuffered]
    refine ⟨⟨"t", .source, "room", none, 0, .active, none⟩, List.mem_cons_self, rfl, rfl, ?_, ?_⟩
    · decide
    · decide

end Workspace
end TinyCortex.SummaryTree
