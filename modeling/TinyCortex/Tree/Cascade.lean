import TinyCortex.Tree.Profile
import TinyCortex.Tree.Sealable

/-! The sequential cascade of `append_leaf` (`tree/bucket_seal.rs`). A seal empties one buffer and adds one summary to
the buffer above it. At every turn of the loop only the buffer that the loop looks at may meet its gate, and above the
leaves it meets it exactly. -/

namespace TinyCortex.SummaryTree

open Table Chunks

/-- Append a leaf, then seal from level 0 upward. -/
def appendLeaf (config : TreeConfig) (treeId chunkId : String) (tokenCount : Nat) (timestampMs : Int)
    (supply : List (Option Minted)) (db : Db) : Db × Except Halt Nat :=
  match appendToBuffer treeId 0 chunkId tokenCount timestampMs db with
  | .error error => (db, .error (.failed error))
  | .ok next => cascadeAllFrom config treeId 0 false supply next

/-- A buffer below its gate: empty, or short of the token budget at level 0 and of the fanout above. -/
def Buffer.BelowGate (config : TreeConfig) (buf : Buffer) : Prop :=
  buf.itemIds = [] ∨
    if buf.level = 0 then buf.tokenSum < config.inputTokenBudget else buf.itemIds.length < config.summaryFanout

instance (config : TreeConfig) (buf : Buffer) : Decidable (buf.BelowGate config) :=
  inferInstanceAs (Decidable (_ ∨ _))

variable {config : TreeConfig} {treeId : String} {db next : Db} {buf : Buffer} {level : Nat}

theorem Buffer.BelowGate.shouldSeal (h : buf.BelowGate config) : shouldSeal config buf = false := by
  rw [SummaryTree.shouldSeal]
  by_cases hempty : buf.itemIds = []
  · exact if_pos hempty
  · have hshort := h.resolve_left hempty
    rw [if_neg hempty]
    split_ifs at hshort ⊢
    · exact decide_eq_false (by omega)
    · have hmod := Nat.mod_le buf.itemIds.length 4294967296
      exact decide_eq_false (by omega)

/-- A buffer whose items a 32-bit counter can count is below its gate when the gate is not met. -/
theorem Buffer.belowGate_of_not_shouldSeal (hcount : 0 < buf.level → buf.itemIds.length < 4294967296)
    (h : SummaryTree.shouldSeal config buf = false) : buf.BelowGate config := by
  rw [SummaryTree.shouldSeal] at h
  by_cases hempty : buf.itemIds = []
  · exact Or.inl hempty
  · rw [if_neg hempty] at h
    apply Or.inr
    split_ifs at h ⊢
    · have hgate := of_decide_eq_false h
      omega
    · have hgate := of_decide_eq_false h
      rw [Nat.mod_eq_of_lt (hcount (by omega))] at hgate
      omega

/-- A seal keeps the tree active. -/
theorem Committed.active {snapshot : Buffer} {node : SummaryNode} {nowMs : Int} {enqueueFollowUps : Bool}
    {followUp : Option Queue.SealPayload}
    (h : Committed config snapshot node nowMs enqueueFollowUps db next followUp)
    (htree : snapshot.treeId = treeId) : ∃ tree, next.requireActive treeId = .ok tree := by
  obtain ⟨tree, hfound, hactive, htrees⟩ := h.header
  rw [htree] at hfound
  have hget : next.getTree treeId = (raiseHeader tree.maxLevel node nowMs db).getTree treeId := by
    rw [Db.getTree, Db.getTree, htrees]
  rw [raiseHeader] at hget
  split_ifs at hget
  · rw [getTree_updateTreeAfterSeal, hfound, Option.map_some] at hget
    refine ⟨_, requireActive_ok_iff.mpr ⟨hget, ?_⟩⟩
    split_ifs <;> exact hactive
  · rw [getTree_refreshLastSealed, hfound, Option.map_some] at hget
    refine ⟨_, requireActive_ok_iff.mpr ⟨hget, ?_⟩⟩
    split_ifs <;> exact hactive

/-- The summary that a seal of the whole buffer at `level` makes. -/
def wholeNode (db : Db) (treeId : String) (level : Nat) (minted : Minted) : SummaryNode :=
  sealedNode (db.getBuffer treeId level) (hydrateInputs db level (db.buffered treeId level)) minted.id
    minted.tokenCount minted.nowMs

/-- A seal of the whole buffer of an active tree goes through when something is hydrated. -/
theorem sealOneLevel_whole (config : TreeConfig) {tree : Tree} (hactive : db.requireActive treeId = .ok tree)
    (hinputs : hydrateInputs db level (db.buffered treeId level) ≠ []) (minted : Minted) :
    ∃ next followUp, sealOneLevel config (db.getBuffer treeId level) (some minted) db = .ok next ∧
      Committed config (db.getBuffer treeId level) (wholeNode db treeId level minted) minted.nowMs false db next
        followUp := by
  have hsealInputs : sealInputs db (db.getBuffer treeId level) =
      .ok (hydrateInputs db level (db.buffered treeId level)) := by
    rw [sealInputs, Db.getBuffer_level, ← Db.buffered]
    exact if_neg hinputs
  have hbufActive : db.requireActive (db.getBuffer treeId level).treeId = .ok tree := by
    rw [Db.getBuffer_treeId]
    exact hactive
  have hcurrent : db.getBuffer (db.getBuffer treeId level).treeId (db.getBuffer treeId level).level =
      db.getBuffer treeId level := by
    rw [Db.getBuffer_treeId, Db.getBuffer_level]
  obtain ⟨next, followUp, hcommit⟩ : ∃ next followUp, commitSeal config (db.getBuffer treeId level)
      (wholeNode db treeId level minted) minted.nowMs false db = .ok (next, followUp) :=
    commitSeal_current minted.nowMs false hbufActive hcurrent
  refine ⟨next, followUp, ?_, commitSeal_ok hcommit rfl rfl⟩
  rw [wholeNode] at hcommit
  unfold sealOneLevel
  rw [hsealInputs]
  dsimp only
  rw [hcommit]

/-- Every summary above level 1 is one that was there, up to its parent, or has as many children as the fanout. -/
def Db.FullSince (config : TreeConfig) (db next : Db) : Prop :=
  ∀ row ∈ next.summaries, (∃ old ∈ db.summaries, row.SealedAs old) ∨
    (2 ≤ row.level → row.childIds.length = config.summaryFanout)

theorem Db.FullSince.refl (config : TreeConfig) (db : Db) : db.FullSince config db :=
  fun row hrow => Or.inl ⟨row, hrow, rfl⟩

theorem SummaryNode.SealedAs.trans {row mid old : SummaryNode} (h : row.SealedAs mid) (hmid : mid.SealedAs old) :
    row.SealedAs old := by
  rw [SealedAs] at h hmid ⊢
  rw [h, hmid]

theorem Db.FullSince.trans {mid : Db} (h : db.FullSince config mid) (hnext : mid.FullSince config next) :
    db.FullSince config next := by
  intro row hrow
  rcases hnext row hrow with ⟨between, hbetween, hsealed⟩ | hfull
  · rcases h between hbetween with ⟨old, hold, hbefore⟩ | hfull
    · exact Or.inl ⟨old, hold, hsealed.trans hbefore⟩
    · apply Or.inr
      rw [SummaryNode.SealedAs] at hsealed
      rw [hsealed]
      exact hfull
  · exact Or.inr hfull

/-- The loop's invariant at `level`: only the buffer at `level` may meet its gate, above level 0 it holds at most the
fanout, and what is buffered can be hydrated. -/
structure Carrying (config : TreeConfig) (treeId : String) (db : Db) (level : Nat) : Prop where
  active : ∃ tree, db.requireActive treeId = .ok tree
  below : ∀ other, other ≠ level → (db.getBuffer treeId other).BelowGate config
  atMost : 0 < level → (db.buffered treeId level).length ≤ config.summaryFanout
  leaf : level = 0 → ∃ id ∈ db.buffered treeId 0, db.Resolves 0 id
  upper : ∀ other, 0 < other → ∀ id ∈ db.buffered treeId other, id ∈ db.summaries.map SummaryNode.id

theorem mem_ids_insertSealed_of_mem {node : SummaryNode} {id : String} (h : id ∈ db.summaries.map SummaryNode.id) :
    id ∈ (insertSealed level node db).summaries.map SummaryNode.id := by
  obtain ⟨old, hold, hid⟩ := List.mem_map.mp h
  obtain ⟨row, hrow, hsealed⟩ := insertSealed_old level node hold
  rw [SummaryNode.SealedAs] at hsealed
  refine List.mem_map.mpr ⟨row, hrow, ?_⟩
  rw [hsealed]
  exact hid

/-- An id that is taken has its row as well. -/
theorem mem_ids_insertSealed_self (level : Nat) (node : SummaryNode) (db : Db) :
    node.id ∈ (insertSealed level node db).summaries.map SummaryNode.id := by
  by_cases htaken : node.id ∈ db.summaries.map SummaryNode.id
  · exact mem_ids_insertSealed_of_mem htaken
  · obtain ⟨row, hrow, hsealed⟩ := insertSealed_new level node htaken
    rw [SummaryNode.SealedAs] at hsealed
    refine List.mem_map.mpr ⟨row, hrow, ?_⟩
    rw [hsealed]

theorem hydrateInputs_ne_nil {ids : List String} {id : String} (hid : id ∈ ids) (h : db.Resolves level id) :
    hydrateInputs db level ids ≠ [] := by
  intro hnil
  rw [hydrateInputs] at hnil
  rw [Db.Resolves] at h
  split_ifs at h hnil
  · have hnone := List.filterMap_eq_nil_iff.mp hnil id hid
    rw [Option.map_eq_none_iff, Db.getChunk, lookup_eq_none_iff] at hnone
    exact hnone h
  · have hnone := List.filterMap_eq_nil_iff.mp hnil id hid
    rw [Option.map_eq_none_iff, Db.getSummary, lookup_eq_none_iff] at hnone
    exact hnone h

theorem Carrying.resolves (h : Carrying config treeId db level) (hpos : 0 < level) :
    ∀ id ∈ db.buffered treeId level, db.Resolves level id := by
  intro id hid
  rw [Db.Resolves, if_neg (by omega)]
  exact h.upper level hpos id hid

theorem Carrying.hydrates (h : Carrying config treeId db level) (hgate : db.buffered treeId level ≠ []) :
    hydrateInputs db level (db.buffered treeId level) ≠ [] := by
  rcases Nat.eq_zero_or_pos level with rfl | hpos
  · obtain ⟨id, hid, hresolves⟩ := h.leaf rfl
    exact hydrateInputs_ne_nil hid hresolves
  · obtain ⟨id, hid⟩ := List.exists_mem_of_ne_nil _ hgate
    exact hydrateInputs_ne_nil hid (h.resolves hpos id hid)

theorem Carrying.quiescent (h : Carrying config treeId db level) (hgate : (db.getBuffer treeId level).BelowGate config)
    (other : Nat) : (db.getBuffer treeId other).BelowGate config := by
  by_cases hother : other = level
  · rw [hother]
    exact hgate
  · exact h.below other hother

/-- Above level 0 a buffer that meets its gate holds exactly the fanout. -/
theorem Carrying.exact (h : Carrying config treeId db level) (hpos : 0 < level)
    (hgate : ¬(db.getBuffer treeId level).BelowGate config) :
    (db.buffered treeId level).length = config.summaryFanout := by
  have hatMost := h.atMost hpos
  rw [Buffer.BelowGate, Db.getBuffer_level, if_neg (by omega), not_or] at hgate
  rw [Db.buffered] at hatMost ⊢
  omega

/-- What the buffers of the tree hold after the whole buffer at `level` went into a summary. -/
def carried (db : Db) (treeId : String) (level : Nat) (id : String) (other : Nat) : List String :=
  if other = level then [] else if other = level + 1 then db.buffered treeId other ++ [id] else db.buffered treeId other

theorem bufferedAfterSeal_whole (db : Db) (treeId : String) (level : Nat) (id : String) (other : Nat) :
    bufferedAfterSeal (db.getBuffer treeId level) id db treeId other = carried db treeId level id other := by
  rw [bufferedAfterSeal, carried, Db.getBuffer_treeId, Db.getBuffer_level]
  by_cases hsame : other = level
  · rw [if_pos ⟨rfl, hsame⟩, if_pos hsame, hsame]
    exact List.drop_length
  · rw [if_neg fun hc => hsame hc.2, if_neg hsame]
    by_cases hup : other = level + 1
    · rw [if_pos ⟨rfl, hup⟩, if_pos hup]
    · rw [if_neg fun hc => hup hc.2, if_neg hup]

/-- What a seal of the buffer at `level` keeps. -/
theorem Carrying.seal (h : Carrying config treeId db level) (hfanout : 0 < config.summaryFanout)
    (hgate : ¬(db.getBuffer treeId level).BelowGate config) (minted : Minted) :
    ∃ next, sealOneLevel config (db.getBuffer treeId level) (some minted) db = .ok next ∧
      Carrying config treeId next (level + 1) ∧ db.FullSince config next ∧
      ∀ other, next.buffered treeId other = carried db treeId level minted.id other := by
  obtain ⟨tree, hactive⟩ := h.active
  have hne : db.buffered treeId level ≠ [] := fun hempty => hgate (Or.inl hempty)
  obtain ⟨next, followUp, hseal, hdone⟩ := sealOneLevel_whole config hactive (h.hydrates hne) minted
  have hbuffered : ∀ other, next.buffered treeId other = carried db treeId level minted.id other := fun other =>
    (hdone.buffered treeId other).trans (bufferedAfterSeal_whole db treeId level minted.id other)
  have hsummaries : next.summaries = (insertSealed level (wholeNode db treeId level minted) db).summaries := by
    rw [hdone.summaries, Db.getBuffer_level]
  refine ⟨next, hseal, ⟨?_, ?_, ?_, ?_, ?_⟩, ?_, hbuffered⟩
  · exact hdone.active Db.getBuffer_treeId
  · intro other hother
    by_cases hsame : other = level
    · apply Or.inl
      show next.buffered treeId other = []
      rw [hbuffered, carried, if_pos hsame]
    · have huntouched := hdone.untouched treeId other fun hc => by
        rw [Db.getBuffer_level] at hc
        omega
      rw [huntouched]
      exact h.below other hsame
  · intro _
    have hbelow := h.below (level + 1) (by omega)
    rw [hbuffered, carried, if_neg (by omega), if_pos rfl, List.length_append, List.length_singleton]
    rw [Buffer.BelowGate, Db.getBuffer_level, if_neg (by omega), ← Db.buffered] at hbelow
    rcases hbelow with hempty | hshort
    · rw [hempty]
      exact hfanout
    · exact hshort
  · intro hzero
    omega
  · intro other hother id hid
    rw [hsummaries]
    rw [hbuffered, carried] at hid
    split_ifs at hid
    · cases hid
    · rcases List.mem_append.mp hid with hold | hnew
      · exact mem_ids_insertSealed_of_mem (h.upper other hother id hold)
      · rw [List.mem_singleton.mp hnew]
        exact mem_ids_insertSealed_self level (wholeNode db treeId level minted) db
    · exact mem_ids_insertSealed_of_mem (h.upper other hother id hid)
  · intro row hrow
    rw [hsummaries] at hrow
    obtain ⟨old, hold | rfl, hsealed⟩ := mem_insertSealed hrow
    · exact Or.inl ⟨old, hold, hsealed⟩
    · apply Or.inr
      rw [SummaryNode.SealedAs] at hsealed
      rw [hsealed, wholeNode, sealedNode, Db.getBuffer_level]
      intro htwo
      dsimp only at htwo ⊢
      rw [hydrateInputs_ids_of_resolves (h.resolves (by omega)), h.exact (by omega) hgate]

/-- The turn of the loop at a level whose gate is not met. -/
theorem cascadeFrom_below {supply : List (Option Minted)} (h : (db.getBuffer treeId level).BelowGate config)
    (depth : Nat) : cascadeFrom config treeId depth level false supply db = (db, .ok 0) := by
  cases depth with
  | zero => rfl
  | succ depth => exact if_pos (Or.inl ⟨rfl, h.shouldSeal⟩)

/-- The turn at a level whose gate is met. -/
theorem cascadeFrom_seal {supply : List (Option Minted)} {minted : Minted} (h : Carrying config treeId db level)
    (hcount : config.summaryFanout < 4294967296) (hgate : ¬(db.getBuffer treeId level).BelowGate config)
    (hseal : sealOneLevel config (db.getBuffer treeId level) (some minted) db = .ok next) (depth : Nat) :
    cascadeFrom config treeId (depth + 1) level false (some minted :: supply) db =
      ((cascadeFrom config treeId depth (level + 1) false supply next).1,
        (cascadeFrom config treeId depth (level + 1) false supply next).2.map (· + 1)) := by
  have hmet : ¬((false = false ∧ shouldSeal config (db.getBuffer treeId level) = false) ∨
      (db.getBuffer treeId level).itemIds = []) := by
    intro hstop
    rcases hstop with ⟨-, hshould⟩ | hempty
    · apply hgate
      apply Buffer.belowGate_of_not_shouldSeal ?_ hshould
      intro hpos
      rw [Db.getBuffer_level] at hpos
      exact (h.atMost hpos).trans_lt hcount
    · exact hgate (Or.inl hempty)
  rw [cascadeFrom]
  dsimp only
  rw [if_neg hmet, List.head?_cons, Option.join_some, hseal]
  rfl

/-- A level that was empty does not meet its gate. -/
theorem Carrying.lt_top {top : Nat} (h : Carrying config treeId db level) (hfanout : 2 ≤ config.summaryFanout)
    (hpos : 0 < top) (hlevel : level ≤ top) (hempty : (db.buffered treeId top).length ≤ if top = level then 1 else 0)
    (hgate : ¬(db.getBuffer treeId level).BelowGate config) : level < top := by
  by_contra hge
  obtain rfl : level = top := by omega
  have hfull := h.exact hpos hgate
  rw [if_pos rfl] at hempty
  omega

theorem length_carried_le {id : String} {top : Nat} (hlt : level < top)
    (hempty : (db.buffered treeId top).length ≤ if top = level then 1 else 0) :
    (carried db treeId level id top).length ≤ if top = level + 1 then 1 else 0 := by
  rw [if_neg (by omega)] at hempty
  rw [carried, if_neg (by omega)]
  split_ifs
  · rw [List.length_append, List.length_singleton]
    omega
  · exact hempty

/-- The loop stops at the first level that was empty, or below it. The induction is on the turns that are left. -/
theorem cascadeFrom_quiescent {depth top : Nat} {supply : List (Option Minted)} (hfanout : 2 ≤ config.summaryFanout)
    (hcount : config.summaryFanout < 4294967296) (hpos : 0 < top) (h : Carrying config treeId db level)
    (hlevel : level ≤ top) (htop : top ≤ level + depth)
    (hempty : (db.buffered treeId top).length ≤ if top = level then 1 else 0) (hsupply : depth ≤ supply.length)
    (hminted : ∀ minted ∈ supply, minted.isSome) :
    ∃ next seals, cascadeFrom config treeId depth level false supply db = (next, .ok seals) ∧
      (∀ other, (next.getBuffer treeId other).BelowGate config) ∧ db.FullSince config next ∧ level + seals ≤ top := by
  induction depth generalizing level db supply with
  | zero =>
      have hgate : (db.getBuffer treeId level).BelowGate config := by
        by_contra hmet
        have hlt := h.lt_top hfanout hpos hlevel hempty hmet
        omega
      exact ⟨db, 0, rfl, h.quiescent hgate, .refl config db, hlevel⟩
  | succ depth ih =>
      by_cases hgate : (db.getBuffer treeId level).BelowGate config
      · exact ⟨db, 0, cascadeFrom_below hgate _, h.quiescent hgate, .refl config db, hlevel⟩
      · have hlt := h.lt_top hfanout hpos hlevel hempty hgate
        obtain ⟨first, supply, rfl⟩ := List.exists_cons_of_length_pos (Nat.lt_of_lt_of_le depth.succ_pos hsupply)
        obtain ⟨minted, rfl⟩ := Option.isSome_iff_exists.mp (hminted first List.mem_cons_self)
        obtain ⟨mid, hseal, hmid, hfull, hbuffered⟩ := h.seal (by omega) hgate minted
        have hmidEmpty : (mid.buffered treeId top).length ≤ if top = level + 1 then 1 else 0 := by
          rw [hbuffered]
          exact length_carried_le hlt hempty
        obtain ⟨next, seals, hrest, hquiet, hfullRest, hle⟩ := ih hmid hlt (by omega) hmidEmpty
          (Nat.le_of_succ_le_succ hsupply) fun minted hmem => hminted minted (List.mem_cons_of_mem _ hmem)
        refine ⟨next, seals + 1, ?_, hquiet, hfull.trans hfullRest, by omega⟩
        rw [cascadeFrom_seal h hcount hgate hseal, hrest]
        rfl

/-- What an append of a leaf that is there leaves the cascade with. -/
theorem appendToBuffer_carrying {chunkId : String} (tokenCount timestampMs : Int)
    (hactive : ∃ tree, db.requireActive treeId = .ok tree)
    (hbelow : ∀ level, (db.getBuffer treeId level).BelowGate config) (hleaf : chunkId ∈ db.chunks.map Chunk.id)
    (hupper : ∀ level, 0 < level → ∀ id ∈ db.buffered treeId level, id ∈ db.summaries.map SummaryNode.id) :
    ∃ next, appendToBuffer treeId 0 chunkId tokenCount timestampMs db = .ok next ∧
      Carrying config treeId next 0 ∧ next.summaries = db.summaries ∧
      ∀ level, 0 < level → next.getBuffer treeId level = db.getBuffer treeId level := by
  obtain ⟨next, happend⟩ := appendToBuffer_of_active 0 chunkId tokenCount timestampMs hactive
  obtain ⟨htrees, hchunks, hsummaries⟩ := appendToBuffer_frame happend
  have hbuffered := appendToBuffer_buffered happend treeId
  have hget : ∀ level, 0 < level → next.getBuffer treeId level = db.getBuffer treeId level := by
    intro level hpos
    rcases appendToBuffer_cases happend with ⟨-, rfl⟩ | ⟨-, buf, hkey, -, rfl⟩
    · rfl
    · apply Db.getBuffer_upsertBuffer_of_ne
      rw [hkey]
      intro hc
      exact hpos.ne (Prod.mk.inj hc).2
  refine ⟨next, happend, ⟨?_, ?_, ?_, ?_, ?_⟩, hsummaries, hget⟩
  · obtain ⟨tree, htree⟩ := hactive
    refine ⟨tree, ?_⟩
    rw [Db.requireActive, Db.getTree, htrees]
    exact htree
  · intro other hother
    rw [hget other (by omega)]
    exact hbelow other
  · intro hpos
    omega
  · intro _
    refine ⟨chunkId, ?_, ?_⟩
    · rw [hbuffered]
      split_ifs with hnew
      · exact List.mem_append_right _ List.mem_cons_self
      · by_contra hnot
        exact hnew ⟨rfl, rfl, hnot⟩
    · rw [Db.Resolves, if_pos rfl, hchunks]
      exact hleaf
  · intro other hpos id hid
    rw [Db.buffered, hget other hpos] at hid
    rw [hsummaries]
    exact hupper other hpos id hid

/-- An append to a tree whose buffers are below their gates ends with all of them below their gates: every summary above
level 1 that it makes has as many children as the fanout, and it seals no level from the first empty one upward, so the
depth cap does not end the loop of a tree below that height. -/
theorem appendLeaf_quiescent (hfanout : 2 ≤ config.summaryFanout) (hcount : config.summaryFanout < 4294967296)
    {chunkId : String} (tokenCount : Nat) (timestampMs : Int) {supply : List (Option Minted)}
    (hactive : ∃ tree, db.requireActive treeId = .ok tree)
    (hbelow : ∀ level, (db.getBuffer treeId level).BelowGate config) (hleaf : chunkId ∈ db.chunks.map Chunk.id)
    (hupper : ∀ level, 0 < level → ∀ id ∈ db.buffered treeId level, id ∈ db.summaries.map SummaryNode.id)
    {top : Nat} (hpos : 0 < top) (htop : top ≤ maxCascadeDepth) (hempty : db.buffered treeId top = [])
    (hsupply : maxCascadeDepth ≤ supply.length) (hminted : ∀ minted ∈ supply, minted.isSome) :
    ∃ next seals, appendLeaf config treeId chunkId tokenCount timestampMs supply db = (next, .ok seals) ∧
      (∀ level, (next.getBuffer treeId level).BelowGate config ∧
        shouldSeal config (next.getBuffer treeId level) = false) ∧
      (∀ row ∈ next.summaries, row.id ∉ db.summaries.map SummaryNode.id → 2 ≤ row.level →
        row.childIds.length = config.summaryFanout) ∧ seals ≤ top := by
  obtain ⟨appended, happend, hcarrying, hsummaries, hget⟩ :=
    appendToBuffer_carrying tokenCount timestampMs hactive hbelow hleaf hupper
  have htopEmpty : (appended.buffered treeId top).length ≤ if top = 0 then 1 else 0 := by
    rw [Db.buffered, hget top hpos, ← Db.buffered, hempty]
    exact Nat.zero_le _
  obtain ⟨next, seals, hcascade, hquiet, hfull, hle⟩ := cascadeFrom_quiescent hfanout hcount hpos hcarrying
    (Nat.zero_le top) (by omega) htopEmpty hsupply hminted
  refine ⟨next, seals, ?_, fun level => ⟨hquiet level, (hquiet level).shouldSeal⟩, ?_, by omega⟩
  · rw [appendLeaf, happend]
    exact hcascade
  · intro row hrow hnew htwo
    rcases hfull row hrow with ⟨old, hold, hsealed⟩ | hchildren
    · rw [SummaryNode.SealedAs] at hsealed
      rw [hsealed, ← hsummaries] at hnew
      exact absurd (List.mem_map_of_mem hold) hnew
    · exact hchildren htwo

/-- A leaf and a summary wait in the buffers of a tree. -/
def halfFull : Db where
  trees := [⟨"t", .source, "room", some "s1", 1, .active, none⟩]
  chunks := [⟨"a", .chat, "room", none, 0, 0, 0, 4, 0, .admitted⟩, ⟨"b", .chat, "room", none, 1, 1, 1, 8, 1, .admitted⟩]
  summaries := [⟨"s1", "t", 1, none, ["z"], 5, 0, 0, 0, false, none, none⟩]
  buffers := [⟨"t", 0, ["a"], 4, some 0⟩, ⟨"t", 1, ["s1"], 5, some 0⟩]

/-- The second leaf fills level 0, and its summary fills level 1. -/
theorem appendLeaf_quiescent_halfFull :
    ∃ next seals, appendLeaf ⟨10, 5, 2⟩ "t" "b" 8 1 ((List.range 32).map fun i => some ⟨toString i, 5, 2⟩) halfFull =
        (next, .ok seals) ∧
      (∀ level, (next.getBuffer "t" level).BelowGate ⟨10, 5, 2⟩ ∧
        shouldSeal ⟨10, 5, 2⟩ (next.getBuffer "t" level) = false) ∧
      (∀ row ∈ next.summaries, row.id ∉ halfFull.summaries.map SummaryNode.id → 2 ≤ row.level →
        row.childIds.length = 2) ∧ seals ≤ 2 := by
  have hbuffer : ∀ level, 2 ≤ level → halfFull.getBuffer "t" level = Buffer.empty "t" level := by
    intro level hlevel
    simp [Db.getBuffer, halfFull, lookup, Buffer.key, show 0 ≠ level by omega, show 1 ≠ level by omega]
  apply appendLeaf_quiescent (by decide) (by decide) 8 1
  · exact ⟨_, rfl⟩
  · intro level
    rcases level with _ | _ | level
    · decide
    · decide
    · rw [hbuffer _ (by omega)]
      exact Or.inl rfl
  · decide
  · intro level hpos
    rcases level with _ | _ | level
    · cases hpos
    · decide
    · rw [Db.buffered, hbuffer _ (by omega)]
      intro id hid
      cases hid
  · decide
  · decide
  · decide
  · decide
  · decide

end TinyCortex.SummaryTree
