import TinyCortex.Lib.Interleaving
import TinyCortex.Tree.Cascade

/-! The time-based flush (`tree/flush.rs`): every level-0 buffer that has waited too long is sealed by a forced cascade
of its tree, one tree after the other, and a tree that fails does not stop the rest. A cascade reads and writes its own
tree, and the ids it mints name no row of another tree. -/

namespace TinyCortex.SummaryTree

open Table Chunks Independent

/-- `list_stale_buffers`: the level-0 buffers whose oldest item came at `olderThanMs` or before, oldest first. -/
def Db.listStaleBuffers (db : Db) (olderThanMs : Int) : List Buffer :=
  (db.buffers.filter fun buf => buf.oldestAtMs.any (fun oldest => decide (oldest ≤ olderThanMs)) && buf.level == 0)
    |>.insertionSort fun a b => a.oldestAtMs.getD 0 ≤ b.oldestAtMs.getD 0

/-- What the summariser would return to the cascade of each tree. -/
abbrev Supplies := String → List (Option Minted)

/-- The cascade of a stale buffer. -/
def flushBuffer (config : TreeConfig) (supplies : Supplies) (buf : Buffer) (db : Db) :
    Db × (String × Nat × Except Halt Nat) :=
  let sealed := cascadeAllFrom config buf.treeId buf.level true (supplies buf.treeId) db
  (sealed.1, buf.treeId, buf.level, sealed.2)

/-- The stale buffers whose tree has a row; the others are orphans. -/
def Db.flushed (db : Db) (olderThanMs : Int) : List Buffer :=
  (db.listStaleBuffers olderThanMs).filter fun buf => (db.getTree buf.treeId).isSome

/-- `failed to flush {n} stale buffer(s) after sealing {seals}`. -/
structure FlushFailure where
  seals : Nat
  failures : List (String × Nat × Halt)
  deriving DecidableEq, Repr

def sealsOf : String × Nat × Except Halt Nat → Nat
  | (_, _, .ok seals) => seals
  | (_, _, .error _) => 0

def failureOf : String × Nat × Except Halt Nat → Option (String × Nat × Halt)
  | (_, _, .ok _) => none
  | (treeId, level, .error halt) => some (treeId, level, halt)

/-- How a flush ends, from what became of each buffer. -/
def flushResult (results : List (String × Nat × Except Halt Nat)) : Except FlushFailure Nat :=
  if results.filterMap failureOf = [] then .ok (results.map sealsOf).sum
  else .error ⟨(results.map sealsOf).sum, results.filterMap failureOf⟩

def flushStaleBuffers (config : TreeConfig) (nowMs maxAgeMs : Int) (supplies : Supplies) (db : Db) :
    Db × Except FlushFailure Nat :=
  let run := serveEach (flushBuffer config supplies) (db.flushed (nowMs - maxAgeMs)) db
  (run.1, flushResult run.2)

/-- The id is minted for another tree. -/
def Foreign (supplies : Supplies) (treeId id : String) : Prop :=
  ∃ other, other ≠ treeId ∧ id ∈ supplyIds (supplies other)

/-- What a cascade of the tree reads is the same in both, and its buffers name no summary of another tree to come. -/
structure SameTree (supplies : Supplies) (treeId : String) (db db' : Db) : Prop where
  tree : db'.getTree treeId = db.getTree treeId
  buffers : ∀ level, db'.getBuffer treeId level = db.getBuffer treeId level
  chunks : db'.chunks = db.chunks
  summaries : ∀ id, ¬Foreign supplies treeId id →
    (db'.getSummary id).map summaryInput = (db.getSummary id).map summaryInput
  own : ∀ level, 0 < level → ∀ id ∈ db.buffered treeId level, ¬Foreign supplies treeId id

variable {config : TreeConfig} {supplies : Supplies} {treeId : String} {db db' next : Db} {buf : Buffer} {level : Nat}

namespace SameTree

theorem hydrateInputs (h : SameTree supplies treeId db db') :
    SummaryTree.hydrateInputs db' level (db.buffered treeId level) =
      SummaryTree.hydrateInputs db level (db.buffered treeId level) := by
  unfold SummaryTree.hydrateInputs
  split_ifs with hzero
  · simp only [Db.getChunk, h.chunks]
  · apply List.filterMap_congr
    intro id hid
    exact h.summaries id (h.own level (Nat.pos_of_ne_zero hzero) id hid)

theorem upsertBuffer (h : SameTree supplies treeId db db') (hkey : buf.key = (treeId, level))
    (hown : 0 < level → ∀ id ∈ buf.itemIds, ¬Foreign supplies treeId id) :
    SameTree supplies treeId (db.upsertBuffer buf) (db'.upsertBuffer buf) where
  tree := h.tree
  buffers := by
    intro other
    by_cases hother : buf.key = (treeId, other)
    · rw [Db.getBuffer_upsertBuffer_self hother, Db.getBuffer_upsertBuffer_self hother]
    · rw [Db.getBuffer_upsertBuffer_of_ne hother, Db.getBuffer_upsertBuffer_of_ne hother]
      exact h.buffers other
  chunks := h.chunks
  summaries := h.summaries
  own := by
    intro other hpos id hid
    rw [Db.buffered_upsertBuffer hkey] at hid
    split_ifs at hid with hsame
    · exact hown (hsame.2 ▸ hpos) id hid
    · exact h.own other hpos id hid

end SameTree

/-- A backlink is nothing that a seal reads. -/
theorem getSummary_backlink (parentId : String) (childIds : List String) (id : String) :
    ((db.backlink parentId childIds).getSummary id).map summaryInput = (db.getSummary id).map summaryInput := by
  have hupdate : (db.backlink parentId childIds).getSummary id = (db.getSummary id).map fun s =>
      if decide (s.id ∈ childIds) && s.parentId.isNone then { s with parentId := some parentId } else s :=
    lookup_update fun _ => rfl
  rw [hupdate, Option.map_map]
  congr 1
  funext row
  rw [Function.comp_apply]
  split_ifs <;> rfl

/-- What a seal reads of a summary row, after another row was inserted. -/
theorem getSummary_insertSealed (level : Nat) (node : SummaryNode) (id : String) :
    ((insertSealed level node db).getSummary id).map summaryInput =
      ((db.getSummary id).map summaryInput).or (if node.id = id then some (summaryInput node) else none) := by
  have hinsert : ((db.insertSummary node).getSummary id).map summaryInput =
      ((db.getSummary id).map summaryInput).or (if node.id = id then some (summaryInput node) else none) := by
    rw [Db.getSummary, Db.insertSummary, lookup_insertOrIgnore, Option.map_or, apply_ite (Option.map summaryInput)]
    rfl
  rw [← hinsert, insertSealed]
  by_cases hzero : level = 0
  · rw [if_pos hzero]
  · rw [if_neg hzero, getSummary_backlink]

/-- A landed seal, as its commit. -/
theorem sealOneLevel_ok {minted : Option Minted} (h : sealOneLevel config buf minted db = .ok next) :
    ∃ made ∈ minted, ∃ node followUp, node.id = made.id ∧ node.treeId = buf.treeId ∧
      Committed config buf node made.nowMs false db next followUp := by
  unfold sealOneLevel at h
  split at h
  · cases h
  · cases h
  · rename_i inputs made _
    dsimp only at h
    split at h
    · cases h
    · rename_i committed followUp hcommit
      obtain rfl := Except.ok.inj h
      exact ⟨made, rfl, _, followUp, rfl, rfl, commitSeal_ok hcommit rfl rfl⟩

/-! ### A cascade of the tree -/

/-- Both calls fail alike, or both end in databases that are the same to the tree. -/
def SameEnd (supplies : Supplies) (treeId : String) {ε : Type} (r r' : Except ε Db) : Prop :=
  (∃ error, r = .error error ∧ r' = .error error) ∨
    ∃ next next', r = .ok next ∧ r' = .ok next' ∧ SameTree supplies treeId next next'

namespace SameTree

theorem insertSealed (h : SameTree supplies treeId db db') (level : Nat) (node : SummaryNode) :
    SameTree supplies treeId (SummaryTree.insertSealed level node db) (SummaryTree.insertSealed level node db') := by
  obtain ⟨hbuffers, htrees, hchunks⟩ := insertSealed_frame level node db
  obtain ⟨hbuffers', htrees', hchunks'⟩ := insertSealed_frame level node db'
  refine ⟨?_, fun other => ?_, ?_, fun id hid => ?_, fun other hpos id hid => ?_⟩
  · rw [getTree_congr htrees, getTree_congr htrees', h.tree]
  · rw [Db.getBuffer_congr hbuffers, Db.getBuffer_congr hbuffers', h.buffers]
  · rw [hchunks, hchunks', h.chunks]
  · rw [getSummary_insertSealed, getSummary_insertSealed, h.summaries id hid]
  · rw [Db.buffered, Db.getBuffer_congr hbuffers] at hid
    exact h.own other hpos id hid

theorem raiseHeader (h : SameTree supplies treeId db db') (currentMax : Nat) (node : SummaryNode) (nowMs : Int) :
    SameTree supplies treeId (SummaryTree.raiseHeader currentMax node nowMs db)
      (SummaryTree.raiseHeader currentMax node nowMs db') := by
  unfold SummaryTree.raiseHeader
  split_ifs
  · refine ⟨?_, h.buffers, h.chunks, h.summaries, h.own⟩
    rw [getTree_updateTreeAfterSeal, getTree_updateTreeAfterSeal, h.tree]
  · refine ⟨?_, h.buffers, h.chunks, h.summaries, h.own⟩
    rw [getTree_refreshLastSealed, getTree_refreshLastSealed, h.tree]

theorem consumeSnapshot (h : SameTree supplies treeId db db') (snapshot : Buffer) (htree : snapshot.treeId = treeId) :
    SameEnd supplies treeId (db.consumeSnapshot snapshot) (db'.consumeSnapshot snapshot) := by
  have hrest : ∀ id ∈ (db.buffered treeId snapshot.level).drop snapshot.itemIds.length, 0 < snapshot.level →
      ¬Foreign supplies treeId id :=
    fun id hid hpos => h.own snapshot.level hpos id (List.mem_of_mem_drop hid)
  unfold Db.consumeSnapshot
  rw [htree, h.buffers]
  dsimp only
  split_ifs
  · exact Or.inr ⟨_, _, rfl, rfl, h.upsertBuffer Db.getBuffer_key fun hpos id hid => hrest id hid hpos⟩
  · exact Or.inr ⟨_, _, rfl, rfl, h.upsertBuffer Db.getBuffer_key fun hpos id hid => hrest id hid hpos⟩
  · exact Or.inl ⟨_, rfl, rfl⟩

theorem pushParent (h : SameTree supplies treeId db db') (node : SummaryNode) (htree : node.treeId = treeId)
    (hown : ¬Foreign supplies treeId node.id) :
    SameTree supplies treeId (SummaryTree.pushParent node db) (SummaryTree.pushParent node db') := by
  unfold SummaryTree.pushParent
  rw [htree, h.buffers]
  refine h.upsertBuffer Db.getBuffer_key fun hpos id hid => ?_
  rcases List.mem_append.mp hid with hold | hnew
  · exact h.own node.level hpos id hold
  · rw [List.mem_singleton.mp hnew]
    exact hown

theorem sealOneLevel (config : TreeConfig) (h : SameTree supplies treeId db db') (level : Nat) {minted : Option Minted}
    (hown : ∀ made ∈ minted, ¬Foreign supplies treeId made.id) :
    SameEnd supplies treeId (SummaryTree.sealOneLevel config (db.getBuffer treeId level) minted db)
      (SummaryTree.sealOneLevel config (db.getBuffer treeId level) minted db') := by
  have hinputs : sealInputs db' (db.getBuffer treeId level) = sealInputs db (db.getBuffer treeId level) := by
    rw [sealInputs, sealInputs, Db.getBuffer_level, ← Db.buffered, h.hydrateInputs]
  unfold SummaryTree.sealOneLevel
  rw [hinputs]
  cases sealInputs db (db.getBuffer treeId level) with
  | error error => exact Or.inl ⟨_, rfl, rfl⟩
  | ok inputs =>
      cases minted with
      | none => exact Or.inl ⟨_, rfl, rfl⟩
      | some made =>
          have hmade := hown made rfl
          dsimp only
          unfold commitSeal
          have hactive : db'.requireActive (db.getBuffer treeId level).treeId =
              db.requireActive (db.getBuffer treeId level).treeId := by
            rw [Db.getBuffer_treeId, Db.requireActive, Db.requireActive, h.tree]
          rw [hactive]
          cases db.requireActive (db.getBuffer treeId level).treeId with
          | error error => exact Or.inl ⟨_, rfl, rfl⟩
          | ok tree =>
              have hinserted := h.insertSealed (db.getBuffer treeId level).level
                (sealedNode (db.getBuffer treeId level) inputs made.id made.tokenCount made.nowMs)
              rcases hinserted.consumeSnapshot (db.getBuffer treeId level) Db.getBuffer_treeId with
                ⟨error, hleft, hright⟩ | ⟨mid, mid', hleft, hright, hmid⟩
              · dsimp only [bind, Except.bind]
                rw [hleft, hright]
                exact Or.inl ⟨_, rfl, rfl⟩
              · dsimp only [bind, Except.bind]
                rw [hleft, hright]
                have hpushed := hmid.pushParent (sealedNode (db.getBuffer treeId level) inputs made.id
                  made.tokenCount made.nowMs) Db.getBuffer_treeId hmade
                exact Or.inr ⟨_, _, rfl, rfl, hpushed.raiseHeader _ _ _⟩

/-- A cascade of the tree does the same in both. -/
theorem cascadeFrom (config : TreeConfig) (h : SameTree supplies treeId db db') {supply : List (Option Minted)}
    (hown : ∀ id ∈ supplyIds supply, ¬Foreign supplies treeId id) (depth level : Nat) (force : Bool) :
    (SummaryTree.cascadeFrom config treeId depth level force supply db').2 =
        (SummaryTree.cascadeFrom config treeId depth level force supply db).2 ∧
      SameTree supplies treeId (SummaryTree.cascadeFrom config treeId depth level force supply db).1
        (SummaryTree.cascadeFrom config treeId depth level force supply db').1 := by
  induction depth generalizing level force supply db db' with
  | zero => exact ⟨rfl, h⟩
  | succ depth ih =>
      have hhead : ∀ made ∈ supply.head?.join, ¬Foreign supplies treeId made.id := by
        intro made hmade
        apply hown made.id
        rw [supplyIds_cons, hmade]
        exact List.mem_append_left _ List.mem_cons_self
      have htail : ∀ id ∈ supplyIds supply.tail, ¬Foreign supplies treeId id := by
        intro id hid
        apply hown id
        rw [supplyIds_cons]
        exact List.mem_append_right _ hid
      unfold SummaryTree.cascadeFrom
      dsimp only
      rw [h.buffers]
      split_ifs with hstop
      · exact ⟨rfl, h⟩
      · rcases h.sealOneLevel config level hhead with
          ⟨error, hleft, hright⟩ | ⟨next, next', hleft, hright, hnext⟩
        · rw [hleft, hright]
          exact ⟨rfl, h⟩
        · rw [hleft, hright]
          obtain ⟨hresult, hsame⟩ := ih hnext htail (level + 1) false
          exact ⟨congrArg (Except.map (· + 1)) hresult, hsame⟩

/-- A seal of another tree is nothing to this one. -/
theorem other_seal (h : SameTree supplies treeId db db') {other : String} (hne : other ≠ treeId) {level : Nat}
    {minted : Option Minted} (hminted : ∀ made ∈ minted, made.id ∈ supplyIds (supplies other))
    (hseal : SummaryTree.sealOneLevel config (db'.getBuffer other level) minted db' = .ok next) :
    SameTree supplies treeId db next := by
  obtain ⟨made, hmade, node, followUp, hid, htree, hdone⟩ := sealOneLevel_ok hseal
  rw [Db.getBuffer_treeId] at htree
  refine ⟨?_, fun level' => ?_, hdone.chunks.trans h.chunks, fun id hown => ?_, h.own⟩
  · obtain ⟨tree, -, -, htrees⟩ := hdone.header
    rw [getTree_congr htrees, getTree_raiseHeader_of_ne (htree ▸ hne), h.tree]
  · rw [hdone.untouched treeId level' fun hc => hne (hc.1.trans Db.getBuffer_treeId).symm, h.buffers]
  · have hother : node.id ≠ id := by
      rintro rfl
      exact hown ⟨other, hne, hid ▸ hminted made hmade⟩
    rw [Db.getSummary, hdone.summaries, ← Db.getSummary, getSummary_insertSealed, if_neg hother, Option.or_none,
      h.summaries id hown]

theorem other_cascade (h : SameTree supplies treeId db db') {other : String} (hne : other ≠ treeId)
    {supply : List (Option Minted)} (hsupply : supplyIds supply ⊆ supplyIds (supplies other)) (depth level : Nat)
    (force : Bool) : SameTree supplies treeId db (SummaryTree.cascadeFrom config other depth level force supply db').1 := by
  induction depth generalizing level force supply db' with
  | zero => exact h
  | succ depth ih =>
      rw [supplyIds_cons] at hsupply
      unfold SummaryTree.cascadeFrom
      dsimp only
      split_ifs
      · exact h
      · split
        · exact h
        · rename_i next hseal
          refine ih (h.other_seal hne (fun made hmade => hsupply ?_) hseal)
            (fun id hid => hsupply (List.mem_append_right _ hid)) (level + 1) false
          rw [hmade]
          exact List.mem_append_left _ List.mem_cons_self

end SameTree

/-- No id is minted for two trees. -/
def Supplies.Disjoint (supplies : Supplies) : Prop :=
  ∀ treeId other, treeId ≠ other → ∀ id ∈ supplyIds (supplies treeId), id ∉ supplyIds (supplies other)

theorem flushBuffer_apart (config : TreeConfig) (hdisjoint : supplies.Disjoint) :
    Apart Buffer.treeId (flushBuffer config supplies) (SameTree supplies) where
  other := fun buf treeId s t hne hagree => hagree.other_cascade hne (List.Subset.refl _) _ _ _
  own := by
    intro buf s t hagree
    have hown : ∀ id ∈ supplyIds (supplies buf.treeId), ¬Foreign supplies buf.treeId id := by
      rintro id hid ⟨other, hne, hother⟩
      exact hdisjoint other buf.treeId hne id hother hid
    obtain ⟨hresult, hsame⟩ := hagree.cascadeFrom config hown maxCascadeDepth buf.level true
    refine ⟨?_, hsame⟩
    simp only [flushBuffer, cascadeAllFrom]
    rw [hresult]

/-! ### The flush -/

/-- A cascade from a level leaves the buffers below it alone. -/
theorem cascadeFrom_below_level {supply : List (Option Minted)} (depth : Nat) {level below : Nat} (force : Bool)
    (hbelow : below < level) :
    (cascadeFrom config treeId depth level force supply db).1.getBuffer treeId below = db.getBuffer treeId below := by
  induction depth generalizing level force supply db with
  | zero => rfl
  | succ depth ih =>
      unfold cascadeFrom
      dsimp only
      split_ifs
      · rfl
      · split
        · rfl
        · rename_i next hseal
          obtain ⟨made, -, node, followUp, -, -, hdone⟩ := sealOneLevel_ok hseal
          rw [ih false (by omega), hdone.untouched treeId below]
          rw [Db.getBuffer_level]
          omega

/-- A forced cascade that succeeds leaves nothing in the buffer that it began with. -/
theorem cascadeFrom_empties {supply : List (Option Minted)} {depth level seals : Nat}
    (h : (cascadeFrom config treeId (depth + 1) level true supply db).2 = .ok seals) :
    (cascadeFrom config treeId (depth + 1) level true supply db).1.buffered treeId level = [] := by
  by_cases hempty : (db.getBuffer treeId level).itemIds = []
  · have hstop : cascadeFrom config treeId (depth + 1) level true supply db = (db, .ok 0) := if_pos (Or.inr hempty)
    rw [hstop]
    exact hempty
  · have hgo : ¬((true = false ∧ shouldSeal config (db.getBuffer treeId level) = false) ∨
        (db.getBuffer treeId level).itemIds = []) := by
      simp [hempty]
    rw [cascadeFrom] at h ⊢
    dsimp only at h ⊢
    rw [if_neg hgo] at h ⊢
    cases hseal : sealOneLevel config (db.getBuffer treeId level) supply.head?.join db with
    | error halt =>
        rw [hseal] at h
        cases h
    | ok next =>
        obtain ⟨made, -, node, followUp, -, -, hdone⟩ := sealOneLevel_ok hseal
        dsimp only
        rw [Db.buffered, cascadeFrom_below_level depth false level.lt_succ_self, ← Db.buffered, hdone.buffered,
          bufferedAfterSeal_whole, carried, if_pos rfl]

theorem mem_listStaleBuffers {olderThanMs : Int} :
    buf ∈ db.listStaleBuffers olderThanMs ↔
      buf ∈ db.buffers ∧ (∃ oldest ∈ buf.oldestAtMs, oldest ≤ olderThanMs) ∧ buf.level = 0 := by
  simp [Db.listStaleBuffers, List.mem_filter, Option.any_eq_true]

/-- A tree has at most one stale buffer. -/
theorem nodup_flushed (hkeyed : (db.buffers.map Buffer.key).Nodup) (olderThanMs : Int) :
    ((db.flushed olderThanMs).map Buffer.treeId).Nodup := by
  have hsorted : ((db.listStaleBuffers olderThanMs).map Buffer.key).Nodup :=
    ((List.perm_insertionSort _ _).map Buffer.key).nodup_iff.mpr (hkeyed.sublist (List.filter_sublist.map _))
  have hflushed : ((db.flushed olderThanMs).map Buffer.key).Nodup := hsorted.sublist (List.filter_sublist.map _)
  rw [List.nodup_iff_pairwise_ne, List.pairwise_map] at hflushed ⊢
  refine hflushed.imp_of_mem fun {a b} ha hb hne hsame => hne ?_
  have hzero (buf : Buffer) (hbuf : buf ∈ db.flushed olderThanMs) : buf.level = 0 :=
    (mem_listStaleBuffers.mp (List.mem_of_mem_filter hbuf)).2.2
  rw [Buffer.key, Buffer.key, hsame, hzero a ha, hzero b hb]

theorem mem_failures_of_ok {results : List (String × Nat × Except Halt Nat)} {seals : Nat}
    (h : flushResult results = .ok seals) : ∀ result ∈ results, ∃ sealed, result.2.2 = .ok sealed := by
  rw [flushResult] at h
  split_ifs at h with hnone
  intro result hmem
  have hresult := List.filterMap_eq_nil_iff.mp hnone result hmem
  obtain ⟨treeId, level, end' | sealed⟩ := result
  · cases hresult
  · exact ⟨sealed, rfl⟩

/-- A flush is the forced cascades of the stale trees, each as if it were alone: no tree's failure or success changes
what becomes of another, the trees without a stale buffer are left as they are, and a flush that reports no failure
leaves no item in a stale buffer of a tree that has a row. -/
theorem flush_each_alone (config : TreeConfig) (db : Db) (hkeyed : (db.buffers.map Buffer.key).Nodup)
    (hdisjoint : supplies.Disjoint)
    (hnew : ∀ treeId level, 0 < level → ∀ id ∈ db.buffered treeId level, ∀ other, id ∉ supplyIds (supplies other))
    (nowMs maxAgeMs : Int) :
    (flushStaleBuffers config nowMs maxAgeMs supplies db).2 =
        flushResult ((db.flushed (nowMs - maxAgeMs)).map fun buf =>
          (buf.treeId, 0, (cascadeAllFrom config buf.treeId 0 true (supplies buf.treeId) db).2)) ∧
      (∀ buf ∈ db.flushed (nowMs - maxAgeMs), ∀ level,
        (flushStaleBuffers config nowMs maxAgeMs supplies db).1.getBuffer buf.treeId level =
          (cascadeAllFrom config buf.treeId 0 true (supplies buf.treeId) db).1.getBuffer buf.treeId level) ∧
      (∀ treeId ∉ (db.flushed (nowMs - maxAgeMs)).map Buffer.treeId, ∀ level,
        (flushStaleBuffers config nowMs maxAgeMs supplies db).1.getBuffer treeId level = db.getBuffer treeId level) ∧
      ∀ seals, (flushStaleBuffers config nowMs maxAgeMs supplies db).2 = .ok seals →
        ∀ buf ∈ db.flushed (nowMs - maxAgeMs),
          (flushStaleBuffers config nowMs maxAgeMs supplies db).1.buffered buf.treeId 0 = [] := by
  have hstart (treeId : String) : SameTree supplies treeId db db :=
    ⟨rfl, fun _ => rfl, rfl, fun _ _ => rfl, fun level hpos id hid ⟨other, _, hother⟩ =>
      hnew treeId level hpos id hid other hother⟩
  have hlevel : ∀ buf ∈ db.flushed (nowMs - maxAgeMs), buf.level = 0 := fun buf hbuf =>
    (mem_listStaleBuffers.mp (List.mem_of_mem_filter hbuf)).2.2
  have hapart := flushBuffer_apart config hdisjoint
  obtain ⟨hresults, halone⟩ := hapart.served (nodup_flushed hkeyed (nowMs - maxAgeMs)) fun buf _ => hstart buf.treeId
  have hresult : (flushStaleBuffers config nowMs maxAgeMs supplies db).2 =
      flushResult ((db.flushed (nowMs - maxAgeMs)).map fun buf =>
        (buf.treeId, 0, (cascadeAllFrom config buf.treeId 0 true (supplies buf.treeId) db).2)) := by
    rw [flushStaleBuffers]
    dsimp only
    rw [hresults]
    congr 1
    apply List.map_congr_left
    intro buf hbuf
    rw [flushBuffer, hlevel buf hbuf]
  have hbuffers : ∀ buf ∈ db.flushed (nowMs - maxAgeMs), ∀ level,
      (flushStaleBuffers config nowMs maxAgeMs supplies db).1.getBuffer buf.treeId level =
        (cascadeAllFrom config buf.treeId 0 true (supplies buf.treeId) db).1.getBuffer buf.treeId level := by
    intro buf hbuf level
    have hsame := (halone buf hbuf).buffers level
    rw [flushBuffer, hlevel buf hbuf] at hsame
    exact hsame
  refine ⟨hresult, hbuffers, fun treeId htree level => ?_, fun seals hseals buf hbuf => ?_⟩
  · exact (hapart.unserved htree (hstart treeId)).buffers level
  · rw [hresult] at hseals
    obtain ⟨sealed, hsealed⟩ := mem_failures_of_ok hseals _ (List.mem_map_of_mem hbuf)
    rw [Db.buffered, hbuffers buf hbuf 0]
    exact cascadeFrom_empties hsealed

/-- Two trees have waited too long, and the leaves of one of them are gone. -/
def twoStale : Db where
  trees := [⟨"t", .source, "room", none, 0, .active, none⟩, ⟨"u", .source, "hall", none, 0, .active, none⟩]
  chunks := [⟨"a", .chat, "room", none, 0, 0, 0, 4, 0, .admitted⟩]
  summaries := []
  buffers := [⟨"t", 0, ["a"], 4, some 7⟩, ⟨"u", 0, ["z"], 4, some 3⟩]

def oneEach : Supplies := fun treeId =>
  if treeId = "t" then [some ⟨"s1", 2, 100⟩] else if treeId = "u" then [some ⟨"s2", 2, 100⟩] else []

theorem oneEach_disjoint : oneEach.Disjoint := by
  intro treeId other hne id hid
  by_cases ht : treeId = "t"
  · have hid' : id = "s1" := by simpa [oneEach, ht, supplyIds] using hid
    by_cases hu : other = "u" <;> simp [oneEach, hu, supplyIds, hid', ht ▸ hne.symm]
  · by_cases hu : treeId = "u"
    · have hid' : id = "s2" := by simpa [oneEach, hu, supplyIds] using hid
      by_cases hother : other = "t" <;> simp [oneEach, hother, supplyIds, hid', hu ▸ hne.symm]
    · simp [oneEach, ht, hu, supplyIds] at hid

/-- The tree that fails comes first, and the other one is sealed nevertheless. -/
theorem flush_each_alone_twoStale :
    (flushStaleBuffers ⟨10, 5, 2⟩ 100 10 oneEach twoStale).2 =
        .error ⟨1, [("u", 0, .failed (.emptySeal "u" 0))]⟩ ∧
      ∀ level, (flushStaleBuffers ⟨10, 5, 2⟩ 100 10 oneEach twoStale).1.getBuffer "t" level =
        (cascadeAllFrom ⟨10, 5, 2⟩ "t" 0 true (oneEach "t") twoStale).1.getBuffer "t" level := by
  have hnew : ∀ treeId level, 0 < level → ∀ id ∈ twoStale.buffered treeId level, ∀ other,
      id ∉ supplyIds (oneEach other) := by
    intro treeId level hpos id hid
    rw [Db.buffered, Db.getBuffer, lookup_eq_none_iff.mpr (by simp [twoStale, Buffer.key]; omega)] at hid
    cases hid
  obtain ⟨hresult, hbuffers, -⟩ :=
    flush_each_alone ⟨10, 5, 2⟩ twoStale (by decide) oneEach_disjoint hnew 100 10
  exact ⟨hresult.trans (by decide), hbuffers ⟨"t", 0, ["a"], 4, some 7⟩ (by decide)⟩

end TinyCortex.SummaryTree
