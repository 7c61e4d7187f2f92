import TinyCortex.Tree.Conservation

/-! Redelivered appends. An append is de-duplicated against the level-0 buffer only, so a leaf that a
seal has already moved under a summary enters the buffer again when it is delivered again. -/

namespace TinyCortex.SummaryTree

open Table Chunks

/-- Every item of the level is in one place: at most once in the buffer, under at most one summary one
level up, and never both. -/
structure Db.Once (db : Db) (treeId : String) (level : Nat) : Prop where
  nodup : (db.buffered treeId level).Nodup
  apart : ∀ item, ¬(db.Holds treeId (level + 1) item ∧ item ∈ db.buffered treeId level)
  oneParent : ∀ item, ∀ row ∈ db.summaries, ∀ row' ∈ db.summaries, row.treeId = treeId →
    row'.treeId = treeId → row.level = level + 1 → row'.level = level + 1 → item ∈ row.childIds →
    item ∈ row'.childIds → row.id = row'.id

theorem Db.Once.append {db next : Db} {treeId treeId' itemId : String} {level level' : Nat}
    {tokenDelta itemTs : Int} (h : db.Once treeId' level')
    (happend : appendToBuffer treeId level itemId tokenDelta itemTs db = .ok next)
    (hnew : treeId' = treeId → level' = level → itemId ∉ db.buffered treeId level →
      ¬db.Holds treeId (level + 1) itemId) : next.Once treeId' level' := by
  obtain ⟨-, -, hsum⟩ := appendToBuffer_frame happend
  refine ⟨?_, fun item hitem => ?_, by rw [hsum]; exact h.oneParent⟩
  · rw [appendToBuffer_buffered happend]
    split_ifs with hc
    · obtain ⟨rfl, rfl, hnot⟩ := hc
      refine List.nodup_append.mpr ⟨h.nodup, List.nodup_singleton _, fun a ha b hb => ?_⟩
      rw [List.mem_singleton] at hb
      rintro rfl
      exact hnot (hb ▸ ha)
    · exact h.nodup
  · obtain ⟨hholds, hbuf⟩ := hitem
    rw [holds_congr hsum] at hholds
    rw [appendToBuffer_buffered happend] at hbuf
    split_ifs at hbuf with hc
    · obtain ⟨rfl, rfl, hnot⟩ := hc
      rcases List.mem_append.mp hbuf with hold | hlast
      · exact h.apart item ⟨hholds, hold⟩
      · rw [List.mem_singleton.mp hlast] at hholds
        exact hnew rfl rfl hnot hholds
    · exact h.apart item ⟨hholds, hbuf⟩

/-- A commit that folds nothing but its snapshot, and queues a node that stands nowhere yet, keeps
every item in one place. -/
theorem Committed.once {config : TreeConfig} {snapshot : Buffer} {node : SummaryNode} {nowMs : Int}
    {enqueueFollowUps : Bool} {db next : Db} {followUp : Option Queue.SealPayload}
    (hcommit : Committed config snapshot node nowMs enqueueFollowUps db next followUp)
    (htree : node.treeId = snapshot.treeId) (hlevel : node.level = snapshot.level + 1)
    (hchildren : node.childIds ⊆ snapshot.itemIds) {treeId : String} {level : Nat}
    (hnew : treeId = snapshot.treeId → level = snapshot.level + 1 →
      node.id ∉ db.buffered treeId level ∧ ¬next.Holds treeId (level + 1) node.id)
    (h : db.Once treeId level) : next.Once treeId level := by
  have hunsealed : ∀ item ∈ node.childIds, node.treeId = treeId → node.level = level + 1 →
      ¬db.Holds treeId (level + 1) item := by
    intro item hitem htree' hlevel' hholds
    rw [htree] at htree'
    rw [hlevel, Nat.succ_inj] at hlevel'
    refine h.apart item ⟨hholds, ?_⟩
    have hheld := hcommit.snapshotHeld.subset (hchildren hitem)
    rwa [htree', hlevel'] at hheld
  refine ⟨?_, fun item hitem => ?_, fun item => ?_⟩
  · rw [hcommit.buffered, bufferedAfterSeal]
    split_ifs with hsame hup
    · exact h.nodup.sublist (List.drop_sublist _ _)
    · refine List.nodup_append.mpr ⟨h.nodup, List.nodup_singleton _, fun a ha b hb => ?_⟩
      rintro rfl
      rw [List.mem_singleton.mp hb] at ha
      exact (hnew hup.1 hup.2).1 ha
    · exact h.nodup
  · obtain ⟨hholds, hbuf⟩ := hitem
    have hholds' := (holds_congr hcommit.summaries).mp hholds
    rw [hcommit.buffered, bufferedAfterSeal] at hbuf
    split_ifs at hbuf with hsame hup
    · rcases holds_insertSealed hholds' with hold | ⟨-, -, hchild⟩
      · exact h.apart item ⟨hold, List.mem_of_mem_drop hbuf⟩
      · obtain ⟨rest, hrest⟩ := hcommit.snapshotHeld
        obtain ⟨rfl, rfl⟩ := hsame
        have hnd := h.nodup
        rw [← hrest] at hnd hbuf
        rw [List.drop_left] at hbuf
        exact (List.nodup_append.mp hnd).2.2 item (hchildren hchild) item hbuf rfl
    · rcases List.mem_append.mp hbuf with hold | hlast
      · rcases holds_insertSealed hholds' with hholds'' | ⟨-, hlevel', -⟩
        · exact h.apart item ⟨hholds'', hold⟩
        · rw [hlevel, hup.2, Nat.succ_inj] at hlevel'
          exact absurd hlevel' (Nat.succ_ne_self _).symm
      · rw [List.mem_singleton.mp hlast] at hholds
        exact (hnew hup.1 hup.2).2 hholds
    · rcases holds_insertSealed hholds' with hold | ⟨htree', hlevel', -⟩
      · exact h.apart item ⟨hold, hbuf⟩
      · rw [hlevel, Nat.succ_inj] at hlevel'
        exact hsame ⟨htree'.symm.trans htree, hlevel'.symm⟩
  · intro row hrow row' hrow' hrowTree hrowTree' hrowLevel hrowLevel' hin hin'
    rw [hcommit.summaries] at hrow hrow'
    obtain ⟨old, hold, hsealed⟩ := mem_insertSealed hrow
    obtain ⟨old', hold', hsealed'⟩ := mem_insertSealed hrow'
    rw [hsealed] at hrowTree hrowLevel hin ⊢
    rw [hsealed'] at hrowTree' hrowLevel' hin' ⊢
    rcases hold with hold | rfl <;> rcases hold' with hold' | rfl
    · exact h.oneParent item old hold old' hold' hrowTree hrowTree' hrowLevel hrowLevel' hin hin'
    · exact absurd ⟨old, hold, hrowTree, hrowLevel, hin⟩ (hunsealed item hin' hrowTree' hrowLevel')
    · exact absurd ⟨old', hold', hrowTree', hrowLevel', hin'⟩ (hunsealed item hin hrowTree hrowLevel)
    · rfl

/-- A leaf is under at most one level-1 summary of its tree, and never there and in the buffer. -/
def NoDuplicate (w : World) : Prop :=
  ∀ treeId leaf, (∀ row ∈ w.db.summaries, ∀ row' ∈ w.db.summaries, row.treeId = treeId →
      row'.treeId = treeId → row.level = 1 → row'.level = 1 → leaf ∈ row.childIds →
      leaf ∈ row'.childIds → row.id = row'.id) ∧
    ¬(w.db.Holds treeId 1 leaf ∧ leaf ∈ w.db.buffered treeId 0)

/-- A leaf that an append puts into the level-0 buffer of an active tree is under no level-1 summary
of the tree yet. -/
def NotSealedYet (w : World) : Label → Prop
  | .append treeId 0 leaf _ _ => (∃ tree, w.db.requireActive treeId = .ok tree) →
      leaf ∉ w.db.buffered treeId 0 → ¬w.db.Holds treeId 1 leaf
  | _ => True

/-- The invariant: every leaf is in one place, and a seal in flight folds nothing but its snapshot. -/
structure LeavesOnce (w : World) : Prop where
  once : ∀ treeId, w.db.Once treeId 0
  inputs : ∀ run ∈ w.seals, run.inputs.map SummaryInput.id ⊆ run.snapshot.itemIds

theorem LeavesOnce.noDuplicate {w : World} (h : LeavesOnce w) : NoDuplicate w :=
  fun treeId leaf => ⟨(h.once treeId).oneParent leaf, (h.once treeId).apart leaf⟩

theorem leavesOnce_empty (trees : List Tree) (chunks : List Chunk) :
    LeavesOnce (World.empty trees chunks) where
  once := fun treeId =>
    ⟨List.nodup_nil, fun item hitem => absurd hitem.2 List.not_mem_nil,
      fun item row hrow => absurd hrow List.not_mem_nil⟩
  inputs := by simp [World.empty]

theorem LeavesOnce.snapshot {w : World} (h : LeavesOnce w) {treeId : String} {level : Nat}
    {inputs : List SummaryInput}
    (hinputs : sealInputs w.db (w.db.getBuffer treeId level) = .ok inputs) :
    LeavesOnce ⟨w.db, w.seals ++ [⟨w.db.getBuffer treeId level, inputs, w.steps, .summarising⟩],
      w.steps + 1, w.appended⟩ where
  once := h.once
  inputs := by
    intro run hrun
    rcases List.mem_append.mp hrun with hold | hnew
    · exact h.inputs run hold
    · rw [List.mem_singleton.mp hnew]
      exact sealInputs_ids hinputs

/-- Ending a seal leaves what each seal folds inside its snapshot. -/
theorem LeavesOnce.inputs_set {w : World} (h : LeavesOnce w) {i : Nat} {run : SealRun}
    {phase : SealPhase} (hrun : w.seals[i]? = some run) :
    ∀ r ∈ w.seals.set i { run with phase := phase },
      r.inputs.map SummaryInput.id ⊆ r.snapshot.itemIds := by
  intro r hr
  obtain ⟨old, hold, hsnap, hin, -⟩ := mem_set_phase hrun hr
  rw [hsnap, hin]
  exact h.inputs old hold

theorem leavesOnce_advance {config : TreeConfig} {w : World} {label : Label} (h : LeavesOnce w)
    (hnew : NotSealedYet w label) : LeavesOnce (advance config w label) := by
  have hstep := advance_step config w label
  generalize advance config w label = next at hstep ⊢
  cases hstep with
  | idle => exact ⟨h.once, h.inputs⟩
  | append happend =>
      refine ⟨fun treeId => (h.once treeId).append happend ?_, h.inputs⟩
      rintro - rfl hnot
      exact hnew (appendToBuffer_active happend) hnot
  | snapshot hinputs => exact h.snapshot hinputs
  | abort hrun => exact ⟨h.once, h.inputs_set hrun⟩
  | commit hrun hphase hcommit =>
      refine ⟨fun treeId => hcommit.once rfl rfl (h.inputs _ (List.mem_of_getElem? hrun)) ?_
        (h.once treeId), h.inputs_set hrun⟩
      exact fun _ hzero => absurd hzero (Nat.succ_ne_zero _).symm

/-- Delivering a sealed leaf again puts it into the buffer next to its summary. -/
theorem not_noDuplicate_advance {config : TreeConfig} {w : World} {label : Label}
    (hagain : ¬NotSealedYet w label) : ¬NoDuplicate (advance config w label) := by
  cases label with
  | snapshot | commit => exact absurd trivial hagain
  | append treeId level leaf tokenDelta itemTs =>
      cases level with
      | succ level => exact absurd trivial hagain
      | zero =>
          simp only [NotSealedYet] at hagain
          push Not at hagain
          obtain ⟨hactive, hnot, hholds⟩ := hagain
          obtain ⟨db, happend⟩ := appendToBuffer_of_active 0 leaf tokenDelta itemTs hactive
          obtain ⟨-, -, hsum⟩ := appendToBuffer_frame happend
          intro honce
          refine (honce treeId leaf).2 ?_
          simp only [advance, World.append, happend]
          refine ⟨(holds_congr hsum).mpr hholds, ?_⟩
          rw [appendToBuffer_buffered happend, if_pos ⟨rfl, rfl, hnot⟩]
          exact List.mem_append_right _ List.mem_cons_self

/-- In every run leaves stay unduplicated in every state passed exactly when no append of the run
delivers a leaf that a seal has already taken. -/
theorem noDuplicate_throughout_iff (config : TreeConfig) (trees : List Tree) (chunks : List Chunk)
    (labels : List Label) :
    (sealing config trees chunks).Throughout NoDuplicate labels ↔
      (sealing config trees chunks).AllSteps NotSealedYet labels := by
  have hbreak : ∀ w label, LeavesOnce w → ¬NotSealedYet w label →
      ¬NoDuplicate (advance config w label) := fun w label _ hagain => not_noDuplicate_advance hagain
  exact Machine.throughout_iff _ (leavesOnce_empty trees chunks)
    (fun _ _ h hnew => leavesOnce_advance h hnew) (fun _ h => h.noDuplicate) hbreak labels

/-- A leaf is delivered, sealed, and delivered again. -/
theorem noDuplicate_throughout_fails :
    ¬∀ config trees chunks labels, (sealing config trees chunks).Throughout NoDuplicate labels := by
  intro hall
  have honce := hall ⟨10, 10, 2⟩ [⟨"tree-1", .source, "scope", none, 0, .active, none⟩]
    [⟨"leaf-1", .chat, "source", none, 0, 0, 0, 10, 0, .admitted⟩]
    [.append "tree-1" 0 "leaf-1" 10 0, .snapshot "tree-1" 0, .commit 0 "summary-1" 5 1 false,
      .append "tree-1" 0 "leaf-1" 10 0] _ List.prefix_rfl
  refine (honce "tree-1" "leaf-1").2 ⟨⟨_, List.mem_cons_self, rfl, rfl, ?_⟩, ?_⟩
  · exact List.mem_cons_self
  · exact List.mem_cons_self

end TinyCortex.SummaryTree
