import TinyCortex.Lib.Log
import TinyCortex.Tree.World

/-! Conservation under bucket sealing. Whatever was put into a buffer stays there until a seal moves
it under a summary of the level above; a commit consumes exactly the front of the buffer that its
snapshot saw. Two seals that raced on one snapshot cannot both commit, unless what the first one
consumed is put back into the buffer before the second one commits. -/

namespace TinyCortex.SummaryTree

open Table Chunks

/-- An item of the buffer at `(treeId, level)` is still there, or under a summary one level up. -/
def Db.Kept (db : Db) (treeId : String) (level : Nat) (item : String) : Prop :=
  item ∈ db.buffered treeId level ∨ db.Holds treeId (level + 1) item

/-- Every leaf ever appended, and every summary ever sealed, is kept. -/
def NothingLost (w : World) : Prop :=
  (∀ treeId level item, ((treeId, level), item) ∈ w.appended → w.db.Kept treeId level item) ∧
    ∀ row ∈ w.db.summaries, w.db.Kept row.treeId row.level row.id

/-- Two seals took the same items of the same buffer, each before the other one committed. -/
def Raced (first second : SealRun) : Prop :=
  first.snapshot.key = second.snapshot.key ∧ first.snapshot.itemIds = second.snapshot.itemIds ∧
    (∀ step id, first.phase = .committed step id → second.beganAt < step) ∧
    ∀ step id, second.phase = .committed step id → first.beganAt < step

/-- Of several seals that raced on the same snapshot at most one committed. -/
def OneWinner (w : World) : Prop :=
  ∀ (i j : Nat) (first second : SealRun), w.seals[i]? = some first → w.seals[j]? = some second →
    i ≠ j → Raced first second →
    ¬∃ step id step' id', first.phase = .committed step id ∧ second.phase = .committed step' id'

/-- Only persisted rows are appended: a chunk at level 0, a summary above. -/
def AppendsRows (w : World) : Label → Prop
  | .append _ level itemId _ _ => w.db.Resolves level itemId
  | _ => True

/-- A seal mints the id of no row. -/
def MintsFresh (w : World) : Label → Prop
  | .commit _ summaryId _ _ _ =>
      summaryId ∉ w.db.chunks.map Chunk.id ∧ summaryId ∉ w.db.summaries.map SummaryNode.id
  | _ => True

instance (w : World) : ∀ label, Decidable (AppendsRows w label)
  | .append _ level itemId _ _ => inferInstanceAs (Decidable (w.db.Resolves level itemId))
  | .snapshot _ _ | .commit _ _ _ _ _ => isTrue trivial

instance (w : World) : ∀ label, Decidable (MintsFresh w label)
  | .commit _ _ _ _ _ => inferInstanceAs (Decidable (_ ∧ _))
  | .append _ _ _ _ _ | .snapshot _ _ => isTrue trivial

/-- No append puts an id back that a raced rival's commit took from under a seal still in flight. -/
def NoReturn (w : World) : Label → Prop
  | .append treeId level itemId _ _ =>
      itemId ∉ w.db.buffered treeId level →
      ∀ run ∈ w.seals, run.phase = .summarising → run.snapshot.key = (treeId, level) →
        (∃ rival ∈ w.seals, Raced rival run ∧ ∃ step id, rival.phase = .committed step id) →
        itemId ∉ run.snapshot.itemIds
  | _ => True

/-- What the conservation proof carries along a run. -/
structure Conserved (w : World) : Prop where
  resolves : ∀ treeId level, ∀ id ∈ w.db.buffered treeId level, w.db.Resolves level id
  nodup : ∀ treeId level, (w.db.buffered treeId level).Nodup
  snapshots : ∀ run ∈ w.seals, ∀ id ∈ run.snapshot.itemIds, w.db.Resolves run.snapshot.level id
  inputs : ∀ run ∈ w.seals, run.inputs.map SummaryInput.id = run.snapshot.itemIds
  nonempty : ∀ run ∈ w.seals, run.snapshot.itemIds ≠ []
  kept : NothingLost w

theorem conserved_empty (trees : List Tree) (chunks : List Chunk) :
    Conserved (World.empty trees chunks) where
  resolves := by simp [World.empty, Db.buffered, Db.getBuffer, lookup, Buffer.empty]
  nodup := by simp [World.empty, Db.buffered, Db.getBuffer, lookup, Buffer.empty]
  snapshots := by simp [World.empty]
  inputs := by simp [World.empty]
  nonempty := by simp [World.empty]
  kept := by simp [World.empty, NothingLost]

section Append

variable {w : World} {treeId itemId : String} {level : Nat} {tokenDelta itemTs : Int} {db : Db}

theorem mem_buffered_append (happend : appendToBuffer treeId level itemId tokenDelta itemTs w.db =
    .ok db) {treeId' id : String} {level' : Nat} (h : id ∈ db.buffered treeId' level') :
    id ∈ w.db.buffered treeId' level' ∨
      (id = itemId ∧ treeId' = treeId ∧ level' = level ∧ itemId ∉ w.db.buffered treeId level) := by
  rw [appendToBuffer_buffered happend] at h
  split_ifs at h with hc
  · rcases List.mem_append.mp h with hold | hnew
    · exact Or.inl hold
    · exact Or.inr ⟨List.mem_singleton.mp hnew, hc⟩
  · exact Or.inl h

theorem subset_buffered_append (happend : appendToBuffer treeId level itemId tokenDelta itemTs w.db =
    .ok db) (treeId' : String) (level' : Nat) :
    w.db.buffered treeId' level' ⊆ db.buffered treeId' level' := by
  rw [appendToBuffer_buffered happend]
  split_ifs
  · exact List.subset_append_left _ _
  · exact List.Subset.refl _

theorem resolves_of_frame {db db' : Db} (hchunks : db'.chunks = db.chunks)
    (hsummaries : db.summaries.map SummaryNode.id ⊆ db'.summaries.map SummaryNode.id) {level : Nat}
    {id : String} (h : db.Resolves level id) : db'.Resolves level id := by
  unfold Db.Resolves at h ⊢
  split_ifs at h ⊢
  · rw [hchunks]
    exact h
  · exact hsummaries h

theorem Conserved.append (h : Conserved w)
    (happend : appendToBuffer treeId level itemId tokenDelta itemTs w.db = .ok db)
    (hrow : w.db.Resolves level itemId) :
    Conserved ⟨db, w.seals, w.steps + 1, w.appended ++ [((treeId, level), itemId)]⟩ := by
  obtain ⟨-, hchunks, hsum⟩ := appendToBuffer_frame happend
  have hres : ∀ {level id}, w.db.Resolves level id → db.Resolves level id :=
    resolves_of_frame hchunks (by rw [hsum]; exact List.Subset.refl _)
  have hkept : ∀ {treeId' level' id}, w.db.Kept treeId' level' id → db.Kept treeId' level' id :=
    fun hk => hk.imp (fun hm => subset_buffered_append happend _ _ hm) (holds_congr hsum).mpr
  have hnew : itemId ∈ db.buffered treeId level := by
    rw [appendToBuffer_buffered happend]
    split_ifs with hc
    · exact List.mem_append_right _ List.mem_cons_self
    · by_contra hnot
      exact hc ⟨rfl, rfl, hnot⟩
  refine ⟨fun treeId' level' id hid => ?_, fun treeId' level' => ?_,
    fun run hrun id hid => hres (h.snapshots run hrun id hid), h.inputs, h.nonempty,
    fun treeId' level' id hid => ?_, fun row hmem => ?_⟩
  · rcases mem_buffered_append happend hid with hold | ⟨rfl, rfl, rfl, -⟩
    · exact hres (h.resolves _ _ id hold)
    · exact hres hrow
  · rw [appendToBuffer_buffered happend]
    split_ifs with hc
    · obtain ⟨rfl, rfl, hnot⟩ := hc
      refine List.nodup_append.mpr ⟨h.nodup _ _, List.nodup_singleton _, fun a ha b hb => ?_⟩
      rw [List.mem_singleton] at hb
      rintro rfl
      exact hnot (hb ▸ ha)
    · exact h.nodup _ _
  · rcases List.mem_append.mp hid with hold | hlast
    · exact hkept (h.kept.1 _ _ _ hold)
    · obtain ⟨hkey, rfl⟩ := Prod.mk.inj (List.mem_singleton.mp hlast)
      obtain ⟨rfl, rfl⟩ := Prod.mk.inj hkey
      exact Or.inl hnew
  · dsimp only at hmem
    rw [hsum] at hmem
    exact hkept (h.kept.2 row hmem)

end Append

theorem Conserved.snapshot {w : World} (h : Conserved w) {treeId : String} {level : Nat}
    {inputs : List SummaryInput}
    (hinputs : sealInputs w.db (w.db.getBuffer treeId level) = .ok inputs) :
    Conserved ⟨w.db, w.seals ++ [⟨w.db.getBuffer treeId level, inputs, w.steps, .summarising⟩],
      w.steps + 1, w.appended⟩ := by
  unfold sealInputs at hinputs
  dsimp only at hinputs
  split_ifs at hinputs with hempty
  have heq := Except.ok.inj hinputs
  have hres : ∀ id ∈ (w.db.getBuffer treeId level).itemIds,
      w.db.Resolves (w.db.getBuffer treeId level).level id := by
    rw [Db.getBuffer_level]
    exact h.resolves treeId level
  have hids : inputs.map SummaryInput.id = (w.db.getBuffer treeId level).itemIds := by
    rw [← heq]
    exact hydrateInputs_ids_of_resolves hres
  refine ⟨h.resolves, h.nodup, fun run hrun => ?_, fun run hrun => ?_, fun run hrun => ?_, h.kept⟩
  · rcases List.mem_append.mp hrun with hold | hnew
    · exact h.snapshots run hold
    · rw [List.mem_singleton.mp hnew]
      exact hres
  · rcases List.mem_append.mp hrun with hold | hnew
    · exact h.inputs run hold
    · rw [List.mem_singleton.mp hnew]
      exact hids
  · rcases List.mem_append.mp hrun with hold | hnew
    · exact h.nonempty run hold
    · rw [List.mem_singleton.mp hnew]
      dsimp only
      rw [← hids, ← heq]
      exact fun hnil => hempty (List.map_eq_nil_iff.mp hnil)

theorem mem_set_phase {w : World} {i : Nat} {run : SealRun} {phase : SealPhase}
    (hrun : w.seals[i]? = some run) {r : SealRun}
    (hr : r ∈ w.seals.set i { run with phase := phase }) :
    ∃ old ∈ w.seals, r.snapshot = old.snapshot ∧ r.inputs = old.inputs ∧ r.beganAt = old.beganAt := by
  rcases List.mem_or_eq_of_mem_set hr with hold | rfl
  · exact ⟨r, hold, rfl, rfl, rfl⟩
  · exact ⟨run, List.mem_of_getElem? hrun, rfl, rfl, rfl⟩

theorem Conserved.abort {w : World} (h : Conserved w) {i : Nat} {run : SealRun}
    (hrun : w.seals[i]? = some run) :
    Conserved ⟨w.db, w.seals.set i { run with phase := .aborted }, w.steps + 1, w.appended⟩ := by
  refine ⟨h.resolves, h.nodup, fun r hr => ?_, fun r hr => ?_, fun r hr => ?_, h.kept⟩
  all_goals obtain ⟨old, hold, hsnap, hin, -⟩ := mem_set_phase hrun hr
  · rw [hsnap]
    exact h.snapshots old hold
  · rw [hsnap, hin]
    exact h.inputs old hold
  · rw [hsnap]
    exact h.nonempty old hold

section Commit

variable {config : TreeConfig} {w : World} {run : SealRun} {summaryId : String} {tokenCount : Nat}
  {nowMs : Int} {enqueueFollowUps : Bool} {db : Db} {followUp : Option Queue.SealPayload}

/-- A commit under a fresh id keeps every item that was kept before. -/
theorem Committed.kept
    (hcommit : Committed config run.snapshot
      (sealedNode run.snapshot run.inputs summaryId tokenCount nowMs) nowMs enqueueFollowUps w.db db
      followUp)
    (hinputs : run.inputs.map SummaryInput.id = run.snapshot.itemIds)
    (hfresh : summaryId ∉ w.db.summaries.map SummaryNode.id) {treeId item : String} {level : Nat}
    (h : w.db.Kept treeId level item) : db.Kept treeId level item := by
  rcases h with hbuf | hholds
  · rw [Db.Kept, hcommit.buffered, bufferedAfterSeal]
    split_ifs with hsame hup
    · obtain ⟨rfl, rfl⟩ := hsame
      obtain ⟨rest, hrest⟩ := hcommit.snapshotHeld
      rw [← hrest, List.mem_append] at hbuf
      rw [← hrest, List.drop_left]
      rcases hbuf with hconsumed | hleft
      · refine Or.inr ((holds_congr hcommit.summaries).mpr ?_)
        refine holds_insertSealed_new run.snapshot.level hfresh ?_
        rw [sealedNode, hinputs]
        exact hconsumed
      · exact Or.inl hleft
    · exact Or.inl (List.mem_append_left _ hbuf)
    · exact Or.inl hbuf
  · exact Or.inr ((holds_congr hcommit.summaries).mpr (holds_insertSealed_of_holds hholds))

theorem Conserved.commit (h : Conserved w) {i : Nat} (hrun : w.seals[i]? = some run)
    (hcommit : Committed config run.snapshot
      (sealedNode run.snapshot run.inputs summaryId tokenCount nowMs) nowMs enqueueFollowUps w.db db
      followUp)
    (hchunk : summaryId ∉ w.db.chunks.map Chunk.id)
    (hfresh : summaryId ∉ w.db.summaries.map SummaryNode.id) (phase : SealPhase) :
    Conserved ⟨db, w.seals.set i { run with phase := phase }, w.steps + 1, w.appended⟩ := by
  have hmem := List.mem_of_getElem? hrun
  have hkept : ∀ {treeId level item}, w.db.Kept treeId level item → db.Kept treeId level item :=
    fun hk => hcommit.kept (h.inputs run hmem) hfresh hk
  have hids : w.db.summaries.map SummaryNode.id ⊆ db.summaries.map SummaryNode.id := by
    intro id hid
    obtain ⟨old, hold, rfl⟩ := List.mem_map.mp hid
    obtain ⟨row, hrow, hsealed⟩ := insertSealed_old run.snapshot.level
      (sealedNode run.snapshot run.inputs summaryId tokenCount nowMs) hold
    rw [hcommit.summaries]
    exact List.mem_map.mpr ⟨row, hrow, by rw [hsealed]⟩
  have hres : ∀ {level id}, w.db.Resolves level id → db.Resolves level id :=
    resolves_of_frame hcommit.chunks hids
  have hnew : db.Resolves (run.snapshot.level + 1) summaryId := by
    obtain ⟨row, hrow, hsealed⟩ := insertSealed_new run.snapshot.level
      (sealedNode run.snapshot run.inputs summaryId tokenCount nowMs) hfresh
    rw [Db.Resolves, if_neg (Nat.succ_ne_zero _), hcommit.summaries]
    exact List.mem_map.mpr ⟨row, hrow, by rw [hsealed]; rfl⟩
  have hunused : ∀ {level}, ¬w.db.Resolves level summaryId := by
    intro level hr
    unfold Db.Resolves at hr
    split_ifs at hr
    · exact hchunk hr
    · exact hfresh hr
  refine ⟨fun treeId level id hid => ?_, fun treeId level => ?_, fun r hr => ?_, fun r hr => ?_,
    fun r hr => ?_, fun treeId level item hitem => hkept (h.kept.1 treeId level item hitem),
    fun row hrow => ?_⟩
  · dsimp only at hid
    rw [hcommit.buffered, bufferedAfterSeal] at hid
    split_ifs at hid with hsame hup
    · exact hres (h.resolves treeId level id (List.mem_of_mem_drop hid))
    · rcases List.mem_append.mp hid with hold | hlast
      · exact hres (h.resolves treeId level id hold)
      · rw [List.mem_singleton.mp hlast, hup.2]
        exact hnew
    · exact hres (h.resolves treeId level id hid)
  · dsimp only
    rw [hcommit.buffered, bufferedAfterSeal]
    split_ifs
    · exact (h.nodup treeId level).sublist (List.drop_sublist _ _)
    · refine List.nodup_append.mpr ⟨h.nodup _ _, List.nodup_singleton _, fun a ha b hb => ?_⟩
      rintro rfl
      rw [List.mem_singleton.mp hb] at ha
      exact hunused (h.resolves _ _ _ ha)
    · exact h.nodup treeId level
  · obtain ⟨old, hold, hsnap, -, -⟩ := mem_set_phase hrun hr
    rw [hsnap]
    exact fun id hid => hres (h.snapshots old hold id hid)
  · obtain ⟨old, hold, hsnap, hin, -⟩ := mem_set_phase hrun hr
    rw [hsnap, hin]
    exact h.inputs old hold
  · obtain ⟨old, hold, hsnap, -, -⟩ := mem_set_phase hrun hr
    rw [hsnap]
    exact h.nonempty old hold
  · dsimp only at hrow
    rw [hcommit.summaries] at hrow
    obtain ⟨old, hold | rfl, hsealed⟩ := mem_insertSealed hrow
    · rw [hsealed]
      exact hkept (h.kept.2 old hold)
    · rw [hsealed]
      refine Or.inl ?_
      rw [hcommit.buffered, bufferedAfterSeal]
      simp [sealedNode]

end Commit

/-- One step over persisted rows and fresh ids keeps the conservation invariant. -/
theorem conserved_advance {config : TreeConfig} {w : World} {label : Label} (h : Conserved w)
    (hrows : AppendsRows w label) (hfresh : MintsFresh w label) :
    Conserved (advance config w label) := by
  have hstep := advance_step config w label
  generalize advance config w label = next at hstep ⊢
  cases hstep with
  | idle => exact ⟨h.resolves, h.nodup, h.snapshots, h.inputs, h.nonempty, h.kept⟩
  | append happend => exact h.append happend hrows
  | snapshot hinputs => exact h.snapshot hinputs
  | abort hrun => exact h.abort hrun
  | commit hrun hphase hcommit =>
      obtain ⟨hchunk, hsummary⟩ := hfresh
      exact h.commit hrun hcommit hchunk hsummary _

/-! ### Races -/

theorem Raced.symm {first second : SealRun} (h : Raced first second) : Raced second first :=
  ⟨h.1.symm, h.2.1.symm, h.2.2.2, h.2.2.1⟩

/-- The race invariant: times lie in the past, and what a raced winner consumed is not back in the
buffer while the loser is still in flight. -/
structure RacesLost (w : World) : Prop where
  began : ∀ run ∈ w.seals, run.beganAt < w.steps
  ended : ∀ run ∈ w.seals, ∀ step id, run.phase = .committed step id → step < w.steps
  consumed : ∀ (i j : Nat) (winner loser : SealRun), w.seals[i]? = some winner →
    w.seals[j]? = some loser → (∃ step id, winner.phase = .committed step id) →
    loser.phase = .summarising → Raced winner loser →
    ∀ id ∈ loser.snapshot.itemIds,
      id ∉ w.db.buffered loser.snapshot.treeId loser.snapshot.level
  oneWinner : OneWinner w

theorem racesLost_empty (trees : List Tree) (chunks : List Chunk) :
    RacesLost (World.empty trees chunks) where
  began := by simp [World.empty]
  ended := by simp [World.empty]
  consumed := by simp [World.empty]
  oneWinner := by simp [World.empty, OneWinner]

theorem key_eq {buf : Buffer} {treeId : String} {level : Nat} :
    buf.key = (treeId, level) ↔ buf.treeId = treeId ∧ buf.level = level := by
  rw [Buffer.key, Prod.mk.injEq]

theorem RacesLost.idle {w : World} (h : RacesLost w) : RacesLost { w with steps := w.steps + 1 } where
  began := fun run hrun => Nat.lt_succ_of_lt (h.began run hrun)
  ended := fun run hrun step id hphase => Nat.lt_succ_of_lt (h.ended run hrun step id hphase)
  consumed := h.consumed
  oneWinner := h.oneWinner

theorem RacesLost.append {w : World} (h : RacesLost w) {treeId itemId : String} {level : Nat}
    {tokenDelta itemTs : Int} {db : Db}
    (happend : appendToBuffer treeId level itemId tokenDelta itemTs w.db = .ok db)
    (hreturn : NoReturn w (.append treeId level itemId tokenDelta itemTs)) :
    RacesLost ⟨db, w.seals, w.steps + 1, w.appended ++ [((treeId, level), itemId)]⟩ where
  began := h.idle.began
  ended := h.idle.ended
  consumed := by
    intro i j winner loser hi hj hwon hlost hraced id hid hback
    rcases mem_buffered_append happend hback with hold | ⟨rfl, htree, hlevel, hnot⟩
    · exact h.consumed i j winner loser hi hj hwon hlost hraced id hid hold
    · exact hreturn hnot loser (List.mem_of_getElem? hj) hlost
        (key_eq.mpr ⟨htree, hlevel⟩) ⟨winner, List.mem_of_getElem? hi, hraced, hwon⟩ hid
  oneWinner := h.oneWinner

theorem RacesLost.snapshot {w : World} (h : RacesLost w) {buf : Buffer} {inputs : List SummaryInput} :
    RacesLost ⟨w.db, w.seals ++ [⟨buf, inputs, w.steps, .summarising⟩], w.steps + 1, w.appended⟩ where
  began := by
    intro run hrun
    rcases List.mem_append.mp hrun with hold | hnew
    · exact Nat.lt_succ_of_lt (h.began run hold)
    · rw [List.mem_singleton.mp hnew]
      exact Nat.lt_succ_self _
  ended := by
    intro run hrun step id hphase
    rcases List.mem_append.mp hrun with hold | hnew
    · exact Nat.lt_succ_of_lt (h.ended run hold step id hphase)
    · rw [List.mem_singleton.mp hnew] at hphase
      cases hphase
  consumed := by
    rintro i j winner loser hi hj ⟨step, id, hwon⟩ hlost hraced
    have hiOld : w.seals[i]? = some winner := by
      rcases Log.getElem?_concat_cases hi with hold | ⟨-, rfl⟩
      · exact hold
      · cases hwon
    rcases Log.getElem?_concat_cases hj with hold | ⟨-, rfl⟩
    · exact h.consumed i j winner loser hiOld hold ⟨step, id, hwon⟩ hlost hraced
    · have hbefore := h.ended winner (List.mem_of_getElem? hiOld) step id hwon
      exact absurd (hraced.2.2.1 step id hwon) (Nat.not_lt.mpr hbefore.le)
  oneWinner := by
    rintro i j first second hi hj hne hraced ⟨step, id, step', id', hfirst, hsecond⟩
    have hiOld : w.seals[i]? = some first := by
      rcases Log.getElem?_concat_cases hi with hold | ⟨-, rfl⟩
      · exact hold
      · cases hfirst
    have hjOld : w.seals[j]? = some second := by
      rcases Log.getElem?_concat_cases hj with hold | ⟨-, rfl⟩
      · exact hold
      · cases hsecond
    exact h.oneWinner i j first second hiOld hjOld hne hraced ⟨step, id, step', id', hfirst, hsecond⟩

/-- Ending a seal in flight leaves all times in the past. -/
theorem RacesLost.began_set {w : World} (h : RacesLost w) {i : Nat} {run : SealRun}
    {phase : SealPhase} (hrun : w.seals[i]? = some run) :
    ∀ r ∈ w.seals.set i { run with phase := phase }, r.beganAt < w.steps + 1 := by
  intro r hr
  obtain ⟨old, hold, -, -, hbegan⟩ := mem_set_phase hrun hr
  rw [hbegan]
  exact Nat.lt_succ_of_lt (h.began old hold)

theorem RacesLost.abort {w : World} (h : RacesLost w) {i : Nat} {run : SealRun}
    (hrun : w.seals[i]? = some run) :
    RacesLost ⟨w.db, w.seals.set i { run with phase := .aborted }, w.steps + 1, w.appended⟩ where
  began := h.began_set hrun
  ended := by
    intro r hr step id hphase
    rcases List.mem_or_eq_of_mem_set hr with hold | rfl
    · exact Nat.lt_succ_of_lt (h.ended r hold step id hphase)
    · cases hphase
  consumed := by
    rintro j k winner loser hj hk ⟨step, id, hwon⟩ hlost hraced
    rcases Log.getElem?_set_cases hj with ⟨-, rfl⟩ | ⟨-, hjOld⟩
    · cases hwon
    rcases Log.getElem?_set_cases hk with ⟨-, rfl⟩ | ⟨-, hkOld⟩
    · cases hlost
    exact h.consumed j k winner loser hjOld hkOld ⟨step, id, hwon⟩ hlost hraced
  oneWinner := by
    rintro j k first second hj hk hne hraced ⟨step, id, step', id', hfirst, hsecond⟩
    rcases Log.getElem?_set_cases hj with ⟨-, rfl⟩ | ⟨-, hjOld⟩
    · cases hfirst
    rcases Log.getElem?_set_cases hk with ⟨-, rfl⟩ | ⟨-, hkOld⟩
    · cases hsecond
    exact h.oneWinner j k first second hjOld hkOld hne hraced ⟨step, id, step', id', hfirst, hsecond⟩

/-- A seal whose snapshot a raced rival has consumed finds it gone from the front of its buffer. -/
theorem RacesLost.not_held {w : World} (h : RacesLost w) (hc : Conserved w) {i j : Nat}
    {winner loser : SealRun} (hi : w.seals[i]? = some winner) (hj : w.seals[j]? = some loser)
    (hwon : ∃ step id, winner.phase = .committed step id) (hlost : loser.phase = .summarising)
    (hraced : Raced winner loser) :
    ¬loser.snapshot.itemIds <+: w.db.buffered loser.snapshot.treeId loser.snapshot.level := by
  intro hpre
  obtain ⟨id, hid⟩ := List.exists_mem_of_ne_nil _ (hc.nonempty loser (List.mem_of_getElem? hj))
  exact h.consumed i j winner loser hi hj hwon hlost hraced id hid (hpre.subset hid)

section Commit

variable {config : TreeConfig} {w : World} {run : SealRun} {summaryId : String} {tokenCount : Nat}
  {nowMs : Int} {enqueueFollowUps : Bool} {db : Db} {followUp : Option Queue.SealPayload}

/-- After a commit nothing of its snapshot is left in the buffer. -/
theorem Committed.snapshot_gone (hc : Conserved w)
    (hcommit : Committed config run.snapshot
      (sealedNode run.snapshot run.inputs summaryId tokenCount nowMs) nowMs enqueueFollowUps w.db db
      followUp) {id : String} (hid : id ∈ run.snapshot.itemIds) :
    id ∉ db.buffered run.snapshot.treeId run.snapshot.level := by
  obtain ⟨rest, hrest⟩ := hcommit.snapshotHeld
  have hnd := hc.nodup run.snapshot.treeId run.snapshot.level
  rw [← hrest] at hnd
  rw [hcommit.buffered, bufferedAfterSeal, if_pos ⟨rfl, rfl⟩, ← hrest, List.drop_left]
  exact fun hmem => (List.nodup_append.mp hnd).2.2 id hid id hmem rfl

/-- A commit puts nothing into any buffer but its new id. -/
theorem Committed.mem_buffered
    (hcommit : Committed config run.snapshot
      (sealedNode run.snapshot run.inputs summaryId tokenCount nowMs) nowMs enqueueFollowUps w.db db
      followUp) {treeId id : String} {level : Nat} (h : id ∈ db.buffered treeId level) :
    id ∈ w.db.buffered treeId level ∨ id = summaryId := by
  rw [hcommit.buffered, bufferedAfterSeal] at h
  split_ifs at h
  · exact Or.inl (List.mem_of_mem_drop h)
  · rcases List.mem_append.mp h with hold | hnew
    · exact Or.inl hold
    · exact Or.inr (List.mem_singleton.mp hnew)
  · exact Or.inl h

theorem RacesLost.commit (h : RacesLost w) (hc : Conserved w) {i : Nat}
    (hrun : w.seals[i]? = some run) (hphase : run.phase = .summarising)
    (hcommit : Committed config run.snapshot
      (sealedNode run.snapshot run.inputs summaryId tokenCount nowMs) nowMs enqueueFollowUps w.db db
      followUp)
    (hchunk : summaryId ∉ w.db.chunks.map Chunk.id)
    (hfresh : summaryId ∉ w.db.summaries.map SummaryNode.id) :
    RacesLost ⟨db, w.seals.set i { run with phase := .committed w.steps summaryId }, w.steps + 1,
      w.appended⟩ where
  began := h.began_set hrun
  ended := by
    intro r hr step id hended
    rcases List.mem_or_eq_of_mem_set hr with hold | rfl
    · exact Nat.lt_succ_of_lt (h.ended r hold step id hended)
    · obtain ⟨rfl, -⟩ := SealPhase.committed.inj hended
      exact Nat.lt_succ_self _
  consumed := by
    rintro j k winner loser hj hk ⟨step, id, hwon⟩ hlost hraced item hitem hback
    rcases Log.getElem?_set_cases hk with ⟨-, rfl⟩ | ⟨-, hkOld⟩
    · cases hlost
    rcases Log.getElem?_set_cases hj with ⟨-, rfl⟩ | ⟨-, hjOld⟩
    · obtain ⟨hkey, hids, -⟩ := hraced
      obtain ⟨htree, hlevel⟩ := Prod.mk.inj hkey
      dsimp only at hids htree hlevel hback
      rw [← hids] at hitem
      rw [← htree, ← hlevel] at hback
      exact hcommit.snapshot_gone hc hitem hback
    · rcases hcommit.mem_buffered hback with hold | rfl
      · exact h.consumed j k winner loser hjOld hkOld ⟨step, id, hwon⟩ hlost hraced item hitem hold
      · have hres := hc.snapshots loser (List.mem_of_getElem? hkOld) _ hitem
        unfold Db.Resolves at hres
        split_ifs at hres
        · exact hchunk hres
        · exact hfresh hres
  oneWinner := by
    have hnew : ∀ (k : Nat) (second : SealRun), w.seals[k]? = some second →
        Raced { run with phase := .committed w.steps summaryId } second →
        ¬∃ step id, second.phase = .committed step id := by
      rintro k second hk ⟨hkey, hids, -, hbegan⟩ ⟨step, id, hsecond⟩
      have hraced : Raced second run := by
        refine ⟨hkey.symm, hids.symm, hbegan, fun step' id' hcommitted => ?_⟩
        rw [hphase] at hcommitted
        cases hcommitted
      exact h.not_held hc hk hrun ⟨step, id, hsecond⟩ hphase hraced hcommit.snapshotHeld
    rintro j k first second hj hk hne hraced ⟨step, id, step', id', hfirst, hsecond⟩
    rcases Log.getElem?_set_cases hj with ⟨rfl, rfl⟩ | ⟨-, hjOld⟩
    · rcases Log.getElem?_set_cases hk with ⟨rfl, -⟩ | ⟨-, hkOld⟩
      · exact hne rfl
      · exact hnew k second hkOld hraced ⟨step', id', hsecond⟩
    · rcases Log.getElem?_set_cases hk with ⟨-, rfl⟩ | ⟨-, hkOld⟩
      · exact hnew j first hjOld hraced.symm ⟨step, id, hfirst⟩
      · exact h.oneWinner j k first second hjOld hkOld hne hraced
          ⟨step, id, step', id', hfirst, hsecond⟩

end Commit

theorem racesLost_advance {config : TreeConfig} {w : World} {label : Label} (h : RacesLost w)
    (hc : Conserved w) (hfresh : MintsFresh w label) (hreturn : NoReturn w label) :
    RacesLost (advance config w label) := by
  have hstep := advance_step config w label
  generalize advance config w label = next at hstep ⊢
  cases hstep with
  | idle => exact h.idle
  | append happend => exact h.append happend hreturn
  | snapshot hinputs => exact h.snapshot
  | abort hrun => exact h.abort hrun
  | commit hrun hphase hcommit =>
      obtain ⟨hchunk, hsummary⟩ := hfresh
      exact h.commit hc hrun hphase hcommit hchunk hsummary

/-- In every run over persisted rows and fresh ids nothing is ever lost; and when no append of the run
puts back what a rival took from a seal in flight, no race ever has two winners. -/
theorem sealing_conserves (config : TreeConfig) (trees : List Tree) (chunks : List Chunk)
    (labels : List Label)
    (henv : (sealing config trees chunks).AllSteps
      (fun w label => AppendsRows w label ∧ MintsFresh w label) labels) :
    (sealing config trees chunks).Throughout NothingLost labels ∧
      ((sealing config trees chunks).AllSteps NoReturn labels →
        (sealing config trees chunks).Throughout OneWinner labels) := by
  refine ⟨Machine.throughout_of_steps _ (conserved_empty trees chunks)
    (fun w label h hok => conserved_advance h hok.1 hok.2) (fun w h => h.kept) henv, fun hreturn => ?_⟩
  have hboth : (sealing config trees chunks).AllSteps
      (fun w label => (AppendsRows w label ∧ MintsFresh w label) ∧ NoReturn w label) labels :=
    fun done label rest heq => ⟨henv done label rest heq, hreturn done label rest heq⟩
  have hstep : ∀ w label, Conserved w ∧ RacesLost w →
      (AppendsRows w label ∧ MintsFresh w label) ∧ NoReturn w label →
      Conserved (advance config w label) ∧ RacesLost (advance config w label) := by
    rintro w label ⟨hc, hr⟩ ⟨⟨hrows, hfresh⟩, hreturn⟩
    exact ⟨conserved_advance hc hrows hfresh, racesLost_advance hr hc hfresh hreturn⟩
  exact Machine.throughout_of_steps _ ⟨conserved_empty trees chunks, racesLost_empty trees chunks⟩
    hstep (fun w h => h.2.oneWinner) hboth

/-- Two seals race on a one-leaf buffer; the leaf is delivered again before the second one commits. -/
def leafReturnsDuringRace : List Label :=
  [.append "tree-1" 0 "leaf-1" 10 0, .snapshot "tree-1" 0, .snapshot "tree-1" 0,
    .commit 0 "summary-1" 5 1 false, .append "tree-1" 0 "leaf-1" 10 0,
    .commit 1 "summary-2" 5 2 false]

/-- One active tree over one chunk. -/
def oneLeaf : Machine World Label :=
  sealing ⟨10, 10, 2⟩ [⟨"tree-1", .source, "scope", none, 0, .active, none⟩]
    [⟨"leaf-1", .chat, "source", none, 0, 0, 0, 10, 0, .admitted⟩]

theorem sealing_conserves_oneLeaf :
    oneLeaf.Throughout NothingLost leafReturnsDuringRace ∧
      (oneLeaf.AllSteps NoReturn leafReturnsDuringRace →
        oneLeaf.Throughout OneWinner leafReturnsDuringRace) := by
  refine sealing_conserves _ _ _ leafReturnsDuringRace (Machine.allSteps_iff_stepsFrom _ |>.mpr ?_)
  decide

/-- Both seals of the race commit a summary of the same leaf. -/
theorem leafReturnsDuringRace_twoWinners :
    ¬∀ config trees chunks labels, (sealing config trees chunks).AllSteps
      (fun w label => AppendsRows w label ∧ MintsFresh w label) labels →
      (sealing config trees chunks).Throughout OneWinner labels := by
  intro hall
  have henv : oneLeaf.AllSteps (fun w label => AppendsRows w label ∧ MintsFresh w label)
      leafReturnsDuringRace := oneLeaf.allSteps_iff_stepsFrom.mpr (by decide)
  have hone := hall _ _ _ leafReturnsDuringRace henv leafReturnsDuringRace List.prefix_rfl
  refine hone 0 1 _ _ rfl rfl (by decide) ⟨rfl, rfl, ?_, ?_⟩ ⟨_, _, _, _, rfl, rfl⟩
  · rintro step id ⟨⟩
    decide
  · rintro step id ⟨⟩
    decide

end TinyCortex.SummaryTree
