import TinyCortex.Lib.Fallible
import TinyCortex.Queue.Types
import TinyCortex.Tree.Store

/-! Append and bucket seal (`tree/bucket_seal.rs`, `tree/hydrate.rs`). A seal reads a buffer, hydrates
and summarises its items without a database lock, and commits in one transaction that consumes
exactly the snapshot it read. -/

namespace TinyCortex.SummaryTree

open Table Chunks

/-- Hard cap on cascade depth. -/
def maxCascadeDepth : Nat := 32

/-- Append an item to the buffer at `(treeId, level)`; a second append of a buffered item is a
no-op. -/
def appendToBuffer (treeId : String) (level : Nat) (itemId : String) (tokenDelta itemTs : Int)
    (db : Db) : Except TreeError Db := do
  let _ ← db.requireActive treeId
  let buf := db.getBuffer treeId level
  if itemId ∈ buf.itemIds then .ok db
  else
    .ok (db.upsertBuffer
      { buf with
        itemIds := buf.itemIds ++ [itemId]
        tokenSum := I64.saturatingAdd buf.tokenSum tokenDelta
        oldestAtMs := some (match buf.oldestAtMs with
          | some existing => min existing itemTs
          | none => itemTs) })

/-- The seal gate: level 0 gates on tokens, the levels above on the number of siblings
(`item_ids.len() as u32`). -/
def shouldSeal (config : TreeConfig) (buf : Buffer) : Bool :=
  if buf.itemIds = [] then false
  else if buf.level = 0 then decide ((config.inputTokenBudget : Int) ≤ buf.tokenSum)
  else decide (config.summaryFanout ≤ buf.itemIds.length % 4294967296)

/-- Stage a leaf in the level-0 buffer and report whether the caller should enqueue a seal. -/
def appendLeafDeferred (config : TreeConfig) (treeId chunkId : String) (tokenCount : Nat)
    (timestampMs : Int) (db : Db) : Except TreeError (Db × Bool) := do
  let next ← appendToBuffer treeId 0 chunkId tokenCount timestampMs db
  .ok (next, shouldSeal config (next.getBuffer treeId 0))

def chunkInput (chunk : Chunk) : SummaryInput :=
  ⟨chunk.id, chunk.tokenCount, chunk.timeRangeStartMs, chunk.timeRangeEndMs⟩

def summaryInput (node : SummaryNode) : SummaryInput :=
  ⟨node.id, node.tokenCount, node.timeRangeStartMs, node.timeRangeEndMs⟩

/-- Hydrate the children of a seal in buffer order; ids without a row are skipped. -/
def hydrateInputs (db : Db) (level : Nat) (itemIds : List String) : List SummaryInput :=
  if level = 0 then itemIds.filterMap fun id => (db.getChunk id).map chunkInput
  else itemIds.filterMap fun id => (db.getSummary id).map summaryInput

/-- The inputs a seal of the snapshot folds; it refuses to persist a summary of none. -/
def sealInputs (db : Db) (snapshot : Buffer) : Except TreeError (List SummaryInput) :=
  let inputs := hydrateInputs db snapshot.level snapshot.itemIds
  if inputs = [] then .error (.emptySeal snapshot.treeId snapshot.level) else .ok inputs

/-- The node a bucket seal persists, one level above its snapshot. -/
def sealedNode (snapshot : Buffer) (inputs : List SummaryInput) (id : String) (tokenCount : Nat)
    (nowMs : Int) : SummaryNode where
  id := id
  treeId := snapshot.treeId
  level := snapshot.level + 1
  parentId := none
  childIds := inputs.map SummaryInput.id
  tokenCount := tokenCount
  timeRangeStartMs := ((inputs.map SummaryInput.timeRangeStartMs).min?).getD nowMs
  timeRangeEndMs := ((inputs.map SummaryInput.timeRangeEndMs).max?).getD nowMs
  sealedAtMs := nowMs
  deleted := false
  docId := none
  versionMs := none

/-- Push a sealed node onto the buffer of its own level. -/
def pushParent (node : SummaryNode) (db : Db) : Db :=
  let parent := db.getBuffer node.treeId node.level
  db.upsertBuffer
    { parent with
      itemIds := parent.itemIds ++ [node.id]
      tokenSum := I64.saturatingAdd parent.tokenSum node.tokenCount
      oldestAtMs := some (match parent.oldestAtMs with
        | some existing => min existing node.timeRangeStartMs
        | none => node.timeRangeStartMs) }

/-- The header moves when the seal climbed above every earlier one. -/
def raiseHeader (currentMax : Nat) (node : SummaryNode) (nowMs : Int) (db : Db) : Db :=
  if currentMax < node.level then db.updateTreeAfterSeal node.treeId node.id node.level nowMs
  else db.refreshLastSealed node.treeId nowMs

/-- Insert a sealed node and backlink its children (chunk backlinks are left out). -/
def insertSealed (level : Nat) (node : SummaryNode) (db : Db) : Db :=
  let inserted := db.insertSummary node
  if level = 0 then inserted else inserted.backlink node.id node.childIds

/-- The commit of a bucket seal: insert the node, consume the snapshot, queue the node at its level
and raise the header. The second component is the parent seal enqueued in the same transaction. -/
def commitSeal (config : TreeConfig) (snapshot : Buffer) (node : SummaryNode) (nowMs : Int)
    (enqueueFollowUps : Bool) (db : Db) : Except TreeError (Db × Option Queue.SealPayload) := do
  let tree ← db.requireActive snapshot.treeId
  let consumed ← (insertSealed snapshot.level node db).consumeSnapshot snapshot
  let pushed := pushParent node consumed
  let followUp : Option Queue.SealPayload :=
    if enqueueFollowUps && shouldSeal config (pushed.getBuffer node.treeId node.level) then
      some ⟨snapshot.treeId, node.level, none⟩
    else none
  .ok (raiseHeader tree.maxLevel node nowMs pushed, followUp)

section Append

variable {treeId itemId : String} {level : Nat} {tokenDelta itemTs : Int} {db next : Db}

theorem requireActive_ok_iff {tree : Tree} :
    db.requireActive treeId = .ok tree ↔ db.getTree treeId = some tree ∧ tree.status = .active := by
  unfold Db.requireActive
  cases db.getTree treeId with
  | none => simp
  | some found =>
      dsimp only
      split_ifs with h
      · constructor
        · rintro ⟨⟩
          exact ⟨rfl, h⟩
        · rintro ⟨heq, -⟩
          rw [Option.some.inj heq]
      · constructor
        · rintro ⟨⟩
        · rintro ⟨heq, hactive⟩
          exact absurd (Option.some.inj heq ▸ hactive) h

/-- A landing append either finds the item buffered, or adds it at the end of its buffer. -/
theorem appendToBuffer_cases (h : appendToBuffer treeId level itemId tokenDelta itemTs db = .ok next) :
    (itemId ∈ db.buffered treeId level ∧ next = db) ∨
    (itemId ∉ db.buffered treeId level ∧ ∃ buf : Buffer, buf.key = (treeId, level) ∧
      buf.itemIds = db.buffered treeId level ++ [itemId] ∧ next = db.upsertBuffer buf) := by
  obtain ⟨tree, -, h⟩ := Fallible.bind_ok_iff.mp h
  dsimp only at h
  split_ifs at h with hmem
  · exact Or.inl ⟨hmem, (Except.ok.inj h).symm⟩
  · refine Or.inr ⟨hmem, _, ?_, ?_, (Except.ok.inj h).symm⟩
    · exact Db.getBuffer_key
    · rfl

/-- An append touches no table but the buffers. -/
theorem appendToBuffer_frame
    (h : appendToBuffer treeId level itemId tokenDelta itemTs db = .ok next) :
    next.trees = db.trees ∧ next.chunks = db.chunks ∧ next.summaries = db.summaries := by
  rcases appendToBuffer_cases h with ⟨-, rfl⟩ | ⟨-, buf, -, -, rfl⟩
  · exact ⟨rfl, rfl, rfl⟩
  · exact ⟨rfl, rfl, rfl⟩

/-- What each buffer holds after a landing append. -/
theorem appendToBuffer_buffered
    (h : appendToBuffer treeId level itemId tokenDelta itemTs db = .ok next) (treeId' : String)
    (level' : Nat) : next.buffered treeId' level' =
      if treeId' = treeId ∧ level' = level ∧ itemId ∉ db.buffered treeId level then
        db.buffered treeId' level' ++ [itemId]
      else db.buffered treeId' level' := by
  rcases appendToBuffer_cases h with ⟨hmem, rfl⟩ | ⟨hnot, buf, hkey, hitems, rfl⟩
  · rw [if_neg fun hc => hc.2.2 hmem]
  · rw [Db.buffered_upsertBuffer hkey, hitems]
    by_cases heq : treeId' = treeId ∧ level' = level
    · obtain ⟨rfl, rfl⟩ := heq
      rw [if_pos ⟨rfl, rfl⟩, if_pos ⟨rfl, rfl, hnot⟩]
    · rw [if_neg heq, if_neg fun hc => heq ⟨hc.1, hc.2.1⟩]

theorem appendToBuffer_active {treeId itemId : String} {level : Nat} {tokenDelta itemTs : Int}
    {db next : Db} (h : appendToBuffer treeId level itemId tokenDelta itemTs db = .ok next) :
    ∃ tree, db.requireActive treeId = .ok tree := by
  obtain ⟨tree, hactive, -⟩ := Fallible.bind_ok_iff.mp h
  exact ⟨tree, hactive⟩

theorem appendToBuffer_of_active {treeId : String} (level : Nat) (itemId : String)
    (tokenDelta itemTs : Int) {db : Db} (h : ∃ tree, db.requireActive treeId = .ok tree) :
    ∃ next, appendToBuffer treeId level itemId tokenDelta itemTs db = .ok next := by
  obtain ⟨tree, hactive⟩ := h
  unfold appendToBuffer
  rw [hactive]
  dsimp only [bind, Except.bind]
  split_ifs
  · exact ⟨_, rfl⟩
  · exact ⟨_, rfl⟩

end Append

section Commit

variable {config : TreeConfig} {snapshot : Buffer} {node : SummaryNode} {nowMs : Int}
  {enqueueFollowUps : Bool} {db next : Db} {followUp : Option Queue.SealPayload}

theorem insertSealed_frame (level : Nat) (node : SummaryNode) (db : Db) :
    (insertSealed level node db).buffers = db.buffers ∧
      (insertSealed level node db).trees = db.trees ∧
      (insertSealed level node db).chunks = db.chunks := by
  unfold insertSealed
  dsimp only
  split_ifs
  · exact ⟨rfl, rfl, rfl⟩
  · exact ⟨rfl, rfl, rfl⟩

theorem raiseHeader_frame (currentMax : Nat) (node : SummaryNode) (nowMs : Int) (db : Db) :
    (raiseHeader currentMax node nowMs db).buffers = db.buffers ∧
      (raiseHeader currentMax node nowMs db).summaries = db.summaries ∧
      (raiseHeader currentMax node nowMs db).chunks = db.chunks := by
  unfold raiseHeader
  split_ifs
  · exact ⟨rfl, rfl, rfl⟩
  · exact ⟨rfl, rfl, rfl⟩

theorem raiseHeader_trees {db db' : Db} (h : db'.trees = db.trees) (currentMax : Nat)
    (node : SummaryNode) (nowMs : Int) :
    (raiseHeader currentMax node nowMs db').trees = (raiseHeader currentMax node nowMs db).trees := by
  unfold raiseHeader
  split_ifs
  · rw [Db.updateTreeAfterSeal, Db.updateTreeAfterSeal, h]
  · rw [Db.refreshLastSealed, Db.refreshLastSealed, h]

theorem pushParent_eq (node : SummaryNode) (db : Db) :
    ∃ buf : Buffer, buf.key = (node.treeId, node.level) ∧
      buf.itemIds = db.buffered node.treeId node.level ++ [node.id] ∧
      pushParent node db = db.upsertBuffer buf := by
  refine ⟨_, ?_, ?_, rfl⟩
  · exact Db.getBuffer_key
  · rfl

/-- What each buffer holds after a seal of the snapshot committed. -/
def bufferedAfterSeal (snapshot : Buffer) (nodeId : String) (db : Db) (treeId : String)
    (level : Nat) : List String :=
  if treeId = snapshot.treeId ∧ level = snapshot.level then
    (db.buffered treeId level).drop snapshot.itemIds.length
  else if treeId = snapshot.treeId ∧ level = snapshot.level + 1 then
    db.buffered treeId level ++ [nodeId]
  else db.buffered treeId level

/-- Everything a commit does: it needs an active tree and its snapshot at the front of the buffer. -/
structure Committed (config : TreeConfig) (snapshot : Buffer) (node : SummaryNode) (nowMs : Int)
    (enqueueFollowUps : Bool) (db next : Db) (followUp : Option Queue.SealPayload) : Prop where
  snapshotHeld : snapshot.itemIds <+: db.buffered snapshot.treeId snapshot.level
  header : ∃ tree, db.getTree snapshot.treeId = some tree ∧ tree.status = .active ∧
    next.trees = (raiseHeader tree.maxLevel node nowMs db).trees
  chunks : next.chunks = db.chunks
  summaries : next.summaries = (insertSealed snapshot.level node db).summaries
  buffered : ∀ treeId level,
    next.buffered treeId level = bufferedAfterSeal snapshot node.id db treeId level
  untouched : ∀ treeId level,
    ¬(treeId = snapshot.treeId ∧ (level = snapshot.level ∨ level = snapshot.level + 1)) →
    next.getBuffer treeId level = db.getBuffer treeId level
  followUp : followUp =
    if enqueueFollowUps && shouldSeal config (next.getBuffer node.treeId node.level) then
      some ⟨snapshot.treeId, node.level, none⟩ else none

theorem commitSeal_ok
    (h : commitSeal config snapshot node nowMs enqueueFollowUps db = .ok (next, followUp))
    (hlevel : node.level = snapshot.level + 1) (htree : node.treeId = snapshot.treeId) :
    Committed config snapshot node nowMs enqueueFollowUps db next followUp := by
  obtain ⟨tree, hactive, h⟩ := Fallible.bind_ok_iff.mp h
  obtain ⟨consumed, hconsumed, h⟩ := Fallible.bind_ok_iff.mp h
  obtain ⟨hnext, hfollow⟩ := Prod.mk.inj (Except.ok.inj h)
  obtain ⟨hfound, hstatus⟩ := requireActive_ok_iff.mp hactive
  obtain ⟨hpre, left, hleftKey, hleftItems, rfl⟩ := Db.consumeSnapshot_ok hconsumed
  obtain ⟨parent, hparentKey, hparentItems, hpush⟩ :=
    pushParent_eq node ((insertSealed snapshot.level node db).upsertBuffer left)
  obtain ⟨hbuf, hsum, hchunks⟩ := raiseHeader_frame tree.maxLevel node nowMs
    (pushParent node ((insertSealed snapshot.level node db).upsertBuffer left))
  obtain ⟨hinsBuf, hinsTrees, hinsChunks⟩ := insertSealed_frame snapshot.level node db
  have hins : ∀ treeId level, (insertSealed snapshot.level node db).buffered treeId level =
      db.buffered treeId level :=
    fun treeId level => congrArg Buffer.itemIds (Db.getBuffer_congr hinsBuf treeId level)
  rw [hnext, hpush] at hbuf hsum hchunks
  rw [hins] at hpre hleftItems
  have hget : ∀ treeId level, next.getBuffer treeId level =
      (((insertSealed snapshot.level node db).upsertBuffer left).upsertBuffer parent).getBuffer
        treeId level := fun treeId level => Db.getBuffer_congr hbuf treeId level
  refine ⟨hpre, ⟨tree, hfound, hstatus, ?_⟩, hchunks.trans hinsChunks, hsum, ?_, ?_, ?_⟩
  · have htrees : (((insertSealed snapshot.level node db).upsertBuffer left).upsertBuffer
        parent).trees = db.trees := hinsTrees
    rw [← hnext, hpush, raiseHeader_trees htrees]
  · intro treeId level
    rw [Db.buffered, hget, ← Db.buffered, Db.buffered_upsertBuffer hparentKey, hparentItems,
      Db.buffered_upsertBuffer hleftKey, Db.buffered_upsertBuffer hleftKey, hins, hins, hleftItems,
      htree, hlevel, bufferedAfterSeal]
    by_cases hsame : treeId = snapshot.treeId ∧ level = snapshot.level
    · obtain ⟨rfl, rfl⟩ := hsame
      simp
    · by_cases hup : treeId = snapshot.treeId ∧ level = snapshot.level + 1
      · obtain ⟨rfl, rfl⟩ := hup
        simp
      · rw [if_neg hup, if_neg hsame, if_neg hsame, if_neg hup]
  · intro treeId level hother
    have hparent : parent.key ≠ (treeId, level) := by
      rw [hparentKey, htree, hlevel]
      exact fun hc => hother ⟨(Prod.mk.inj hc).1.symm, Or.inr (Prod.mk.inj hc).2.symm⟩
    have hleft : left.key ≠ (treeId, level) := by
      rw [hleftKey]
      exact fun hc => hother ⟨(Prod.mk.inj hc).1.symm, Or.inl (Prod.mk.inj hc).2.symm⟩
    rw [hget, Db.getBuffer_upsertBuffer_of_ne hparent, Db.getBuffer_upsertBuffer_of_ne hleft]
    exact Db.getBuffer_congr hinsBuf treeId level
  · rw [← hfollow, hpush, hget]

end Commit

section Rows

variable {db db' : Db} {node : SummaryNode} {treeId item : String} {level : Nat}

/-- A summary row as it was inserted: backlinks move only `parentId`. -/
def SummaryNode.SealedAs (row node : SummaryNode) : Prop :=
  row = { node with parentId := row.parentId }

theorem mem_insertSealed {level : Nat} {row : SummaryNode}
    (h : row ∈ (insertSealed level node db).summaries) :
    ∃ old, (old ∈ db.summaries ∨ old = node) ∧ row.SealedAs old := by
  unfold insertSealed at h
  dsimp only at h
  split_ifs at h
  · exact ⟨row, mem_insertOrIgnore h, rfl⟩
  · rcases mem_update.mp h with ⟨old, hold, -, rfl⟩ | ⟨hold, -⟩
    · exact ⟨old, mem_insertOrIgnore hold, rfl⟩
    · exact ⟨row, mem_insertOrIgnore hold, rfl⟩

theorem insertSealed_of_mem {level : Nat} {old : SummaryNode}
    (h : old ∈ (db.insertSummary node).summaries) :
    ∃ row ∈ (insertSealed level node db).summaries, row.SealedAs old := by
  unfold insertSealed
  dsimp only
  split_ifs
  · exact ⟨old, h, rfl⟩
  · by_cases hp : (decide (old.id ∈ node.childIds) && old.parentId.isNone) = true
    · exact ⟨_, mem_update_of_mem h hp, rfl⟩
    · exact ⟨old, mem_update.mpr (Or.inr ⟨h, hp⟩), rfl⟩

theorem insertSealed_old (level : Nat) (node : SummaryNode) {old : SummaryNode} (h : old ∈ db.summaries) :
    ∃ row ∈ (insertSealed level node db).summaries, row.SealedAs old :=
  insertSealed_of_mem (subset_insertOrIgnore node db.summaries h)

theorem insertSealed_new (level : Nat) (node : SummaryNode)
    (hfresh : node.id ∉ db.summaries.map SummaryNode.id) :
    ∃ row ∈ (insertSealed level node db).summaries, row.SealedAs node := by
  refine insertSealed_of_mem ?_
  rw [Db.insertSummary, insertOrIgnore_of_fresh hfresh]
  exact List.mem_append_right _ List.mem_cons_self

theorem SummaryNode.SealedAs.holds {row old : SummaryNode} (h : row.SealedAs old)
    (hrow : row ∈ db.summaries) (hitem : item ∈ old.childIds) :
    db.Holds old.treeId old.level item := by
  rw [SummaryNode.SealedAs] at h
  exact ⟨row, hrow, by rw [h], by rw [h], by rw [h]; exact hitem⟩

theorem holds_insertSealed_of_holds {sealLevel : Nat} (h : db.Holds treeId level item) :
    (insertSealed sealLevel node db).Holds treeId level item := by
  obtain ⟨old, hold, rfl, rfl, hitem⟩ := h
  obtain ⟨row, hrow, hsealed⟩ := insertSealed_old sealLevel node hold
  exact hsealed.holds hrow hitem

theorem holds_insertSealed_new (sealLevel : Nat)
    (hfresh : node.id ∉ db.summaries.map SummaryNode.id) (hitem : item ∈ node.childIds) :
    (insertSealed sealLevel node db).Holds node.treeId node.level item := by
  obtain ⟨row, hrow, hsealed⟩ := insertSealed_new sealLevel node hfresh
  exact hsealed.holds hrow hitem

theorem holds_insertSealed {sealLevel : Nat}
    (h : (insertSealed sealLevel node db).Holds treeId level item) :
    db.Holds treeId level item ∨
      (node.treeId = treeId ∧ node.level = level ∧ item ∈ node.childIds) := by
  obtain ⟨row, hrow, rfl, rfl, hitem⟩ := h
  obtain ⟨old, hold | rfl, hsealed⟩ := mem_insertSealed hrow
  all_goals rw [SummaryNode.SealedAs] at hsealed
  all_goals rw [hsealed] at hitem ⊢
  · exact Or.inl ⟨old, hold, rfl, rfl, hitem⟩
  · exact Or.inr ⟨rfl, rfl, hitem⟩

theorem holds_congr (h : db'.summaries = db.summaries) :
    db'.Holds treeId level item ↔ db.Holds treeId level item := by
  rw [Db.Holds, Db.Holds, h]

/-- The row that an item of a buffer at `level` stands for exists. -/
def Db.Resolves (db : Db) (level : Nat) (id : String) : Prop :=
  if level = 0 then id ∈ db.chunks.map Chunk.id else id ∈ db.summaries.map SummaryNode.id

instance (db : Db) (level : Nat) (id : String) : Decidable (db.Resolves level id) :=
  inferInstanceAs (Decidable (if level = 0 then _ else _))

/-- Hydration skips ids, and never adds or reorders any. -/
theorem hydrateInputs_ids (db : Db) (level : Nat) (ids : List String) :
    ((hydrateInputs db level ids).map SummaryInput.id).Sublist ids := by
  induction ids with
  | nil => simp [hydrateInputs]
  | cons id ids ih =>
      unfold hydrateInputs at ih ⊢
      split_ifs at ih ⊢
      · cases h : db.getChunk id with
        | none => simpa [h] using ih.cons id
        | some chunk => simpa [h, chunkInput, (lookup_mem h).2] using ih
      · cases h : db.getSummary id with
        | none => simpa [h] using ih.cons id
        | some row => simpa [h, summaryInput, (lookup_mem h).2] using ih

/-- A seal folds nothing but items of its snapshot. -/
theorem sealInputs_ids {snapshot : Buffer} {inputs : List SummaryInput}
    (h : sealInputs db snapshot = .ok inputs) :
    inputs.map SummaryInput.id ⊆ snapshot.itemIds := by
  unfold sealInputs at h
  dsimp only at h
  split_ifs at h
  rw [← Except.ok.inj h]
  exact (hydrateInputs_ids _ _ _).subset

/-- Hydration keeps every id whose row exists. -/
theorem hydrateInputs_ids_of_resolves {ids : List String} (h : ∀ id ∈ ids, db.Resolves level id) :
    (hydrateInputs db level ids).map SummaryInput.id = ids := by
  induction ids with
  | nil => simp [hydrateInputs]
  | cons id ids ih =>
      have hid := h id List.mem_cons_self
      have hrest := ih fun id' hid' => h id' (List.mem_cons_of_mem _ hid')
      unfold hydrateInputs at hrest ⊢
      unfold Db.Resolves at hid
      split_ifs at hid hrest ⊢
      · obtain ⟨chunk, hchunk⟩ := Option.isSome_iff_exists.mp (lookup_isSome_iff.mpr hid)
        have hget : db.getChunk id = some chunk := hchunk
        simp [hget, chunkInput, (lookup_mem hchunk).2, hrest]
      · obtain ⟨row, hrow⟩ := Option.isSome_iff_exists.mp (lookup_isSome_iff.mpr hid)
        have hget : db.getSummary id = some row := hrow
        simp [hget, summaryInput, (lookup_mem hrow).2, hrest]

end Rows
end TinyCortex.SummaryTree
