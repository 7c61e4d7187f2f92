import TinyCortex.Tree.Header
import TinyCortex.Tree.Workspace

/-! Archived trees. Every transaction that writes to a tree reads its status first, but for the ingest of
a pre-built summary. -/

namespace TinyCortex.SummaryTree

open Table Chunks Ingest

/-- Nothing of the tree changed: no summary in it is new, its buffers and its header are as they were,
and no summary hangs newly under one of its own. -/
structure Db.Frozen (treeId : String) (db next : Db) : Prop where
  summaries : next.nodes.filter (·.treeId == treeId) = db.nodes.filter (·.treeId == treeId)
  buffers : ∀ level, next.getBuffer treeId level = db.getBuffer treeId level
  links : ∀ parent ∈ db.nodes, parent.treeId = treeId → ∀ s ∈ next.summaries,
    s.parentId = some parent.id → s ∈ db.summaries
  header : next.getTree treeId = db.getTree treeId

section Frame

variable {db mid next : Db} {treeId : String} {node : SummaryNode}

theorem Db.Frozen.of_eq (hsummaries : next.summaries = db.summaries)
    (hbuffers : ∀ level, next.getBuffer treeId level = db.getBuffer treeId level)
    (hheader : next.getTree treeId = db.getTree treeId) : db.Frozen treeId next where
  summaries := by rw [Db.nodes, Db.nodes, hsummaries]
  buffers := hbuffers
  links := fun _ _ _ _ hs _ => hsummaries ▸ hs
  header := hheader

/-- A summary sealed into another tree, under an id of its own. -/
theorem Db.Frozen.of_insertSealed (level : Nat) (node : SummaryNode) (hother : node.treeId ≠ treeId)
    (hfresh : node.id ∉ db.nodeIds) (hparent : node.parentId = none)
    (hsummaries : next.summaries = (insertSealed level node db).summaries)
    (hbuffers : ∀ level, next.getBuffer treeId level = db.getBuffer treeId level)
    (hheader : next.getTree treeId = db.getTree treeId) : db.Frozen treeId next where
  summaries := by
    have hnodes : next.nodes = db.nodes ++ [node.bare] := by
      rw [← Db.nodes_insertSealed level node hfresh, Db.nodes, Db.nodes, hsummaries]
    rw [hnodes, List.filter_append]
    have hnone : [node.bare].filter (·.treeId == treeId) = [] := by simp [hother]
    rw [hnone, List.append_nil]
  buffers := hbuffers
  links := by
    intro parent hmem _ s hs hlink
    rw [hsummaries, insertSealed] at hs
    have hne : parent.id ≠ node.id := fun heq => hfresh (heq ▸ List.mem_map_of_mem hmem)
    have hinserted : s ∈ (db.insertSummary node).summaries → s ∈ db.summaries := by
      intro h
      rcases mem_insertOrIgnore h with hold | rfl
      · exact hold
      · rw [hparent] at hlink
        cases hlink
    split_ifs at hs
    · exact hinserted hs
    · rcases mem_update.mp hs with ⟨old, -, -, rfl⟩ | ⟨hold, -⟩
      · exact absurd (Option.some.inj hlink).symm hne
      · exact hinserted hold
  header := hheader

theorem Db.Frozen.refl : db.Frozen treeId db := .of_eq rfl (fun _ => rfl) rfl

theorem getTree_append {tree : Tree} (h : db.getTree treeId = some tree) (trees : List Tree) :
    ({ db with trees := db.trees ++ trees } : Db).getTree treeId = some tree :=
  lookup_append_of_some h trees

theorem getTree_archiveTree (target : String) :
    (Workspace.archiveTree target db).getTree treeId =
      (db.getTree treeId).map fun tree =>
        if tree.id == target then { tree with status := .archived } else tree :=
  lookup_update fun _ => rfl

/-- The tree is there and archived. -/
def Db.Archived (db : Db) (treeId : String) : Prop :=
  ∃ tree, db.getTree treeId = some tree ∧ tree.status = .archived

theorem Db.Archived.ne_of_active {other : String} {tree : Tree} (h : db.Archived treeId)
    (hactive : db.requireActive other = .ok tree) : other ≠ treeId := by
  rintro rfl
  obtain ⟨hfound, hstatus⟩ := requireActive_ok_iff.mp hactive
  obtain ⟨archived, harchived, hstatus'⟩ := h
  obtain rfl := Option.some.inj (hfound.symm.trans harchived)
  rw [hstatus] at hstatus'
  cases hstatus'

theorem getTree_update_of_ne {target rootId : String} (hne : target ≠ treeId) (maxLevel : Nat)
    (nowMs : Int) : (db.updateTreeAfterSeal target rootId maxLevel nowMs).getTree treeId =
      db.getTree treeId := by
  rw [getTree_updateTreeAfterSeal]
  cases htree : db.getTree treeId with
  | none => rfl
  | some tree =>
      have hid : ¬(tree.id == target) = true := by
        rw [getTree_id htree, beq_iff_eq]
        exact hne.symm
      rw [Option.map_some, if_neg hid]

theorem getTree_raiseHeader_of_ne (hother : node.treeId ≠ treeId) (currentMax : Nat) (nowMs : Int) :
    (raiseHeader currentMax node nowMs db).getTree treeId = db.getTree treeId := by
  unfold raiseHeader
  split_ifs
  · exact getTree_update_of_ne hother _ _
  · rw [getTree_refreshLastSealed]
    cases htree : db.getTree treeId with
    | none => rfl
    | some tree =>
        have hid : ¬(tree.id == node.treeId) = true := by
          rw [getTree_id htree, beq_iff_eq]
          exact hother.symm
        rw [Option.map_some, if_neg hid]

theorem getTree_congr (h : next.trees = db.trees) : next.getTree treeId = db.getTree treeId := by
  rw [Db.getTree, Db.getTree, h]

/-! ### The transactions on other trees -/

theorem frozen_append {other itemId : String} {level : Nat} {tokenDelta itemTs : Int}
    (harchived : db.Archived treeId)
    (h : appendToBuffer other level itemId tokenDelta itemTs db = .ok next) : db.Frozen treeId next := by
  obtain ⟨tree, hactive⟩ := appendToBuffer_active h
  have hne := harchived.ne_of_active hactive
  rcases appendToBuffer_cases h with ⟨-, rfl⟩ | ⟨-, buf, hkey, -, rfl⟩
  · exact .refl
  · refine .of_eq rfl (fun level' => ?_) rfl
    apply Db.getBuffer_upsertBuffer_of_ne
    rw [hkey]
    exact fun heq => hne (congrArg Prod.fst heq)

theorem frozen_commit {config : TreeConfig} {minted : Minted} {enqueueFollowUps : Bool}
    {flight : Flight} (harchived : db.Archived treeId) (hfresh : minted.id ∉ db.nodeIds)
    (h : flight.commit config minted enqueueFollowUps db = .ok next) :
    flight.treeId ≠ treeId ∧ db.Frozen treeId next := by
  cases flight with
  | bucket snapshot inputs =>
      obtain ⟨⟨committed, followUp⟩, hseal, rfl⟩ := Fallible.map_ok_iff.mp h
      have hcommitted := commitSeal_ok hseal rfl rfl
      obtain ⟨tree, hfound, hstatus, htrees⟩ := hcommitted.header
      have hne : snapshot.treeId ≠ treeId :=
        harchived.ne_of_active (requireActive_ok_iff.mpr ⟨hfound, hstatus⟩)
      refine ⟨hne, .of_insertSealed snapshot.level _ hne hfresh rfl hcommitted.summaries
        (fun level => hcommitted.untouched treeId level fun hc => hne hc.1.symm) ?_⟩
      rw [getTree_congr htrees, getTree_raiseHeader_of_ne hne]
  | batch doc level childIds inputs =>
      obtain ⟨tree, hactive, h⟩ := Fallible.bind_ok_iff.mp h
      obtain rfl := Except.ok.inj h
      have hne : doc.treeId ≠ treeId := harchived.ne_of_active hactive
      obtain ⟨hbuffers, htrees, -⟩ := insertSealed_frame level
        (explicitNode config doc level childIds inputs minted) db
      exact ⟨hne, .of_insertSealed level _ hne hfresh rfl rfl
        (fun level => Db.getBuffer_congr hbuffers treeId level) (getTree_congr htrees)⟩

theorem frozen_moveHeader {other : String} {tree : Tree} {root : SummaryNode} {nowMs : Int}
    (harchived : db.Archived treeId) (h : db.requireActive other = .ok tree) :
    db.Frozen treeId (moveHeader tree root nowMs db) := by
  have hne : tree.id ≠ treeId := by
    rw [getTree_id (requireActive_ok_iff.mp h).1]
    exact harchived.ne_of_active h
  unfold moveHeader
  split_ifs
  · exact .of_eq rfl (fun _ => rfl) (getTree_update_of_ne hne _ _)
  · exact .refl

theorem frozen_ingestSummary {input : SummaryIngest} {summaryId : String} {nowMs : Int}
    (hne : input.treeId ≠ treeId) (hfresh : summaryId ∉ db.nodeIds)
    (h : ingestSummary input summaryId nowMs db = .ok next) : db.Frozen treeId next := by
  obtain ⟨tree, pushed, -, hcase, hnext⟩ := ingestSummary_cases h
  have hpushed : db.Frozen treeId pushed := by
    rcases hcase with rfl | rfl
    · exact .of_insertSealed 0 _ hne hfresh rfl rfl (fun _ => rfl) rfl
    · obtain ⟨buf, hkey, -, heq⟩ := pushParent_eq (ingestedNode input summaryId nowMs)
        (db.insertSummary (ingestedNode input summaryId nowMs))
      rw [heq]
      refine .of_insertSealed 0 _ hne hfresh rfl rfl (fun level => ?_) rfl
      apply Db.getBuffer_upsertBuffer_of_ne
      rw [hkey]
      exact fun hc => hne (congrArg Prod.fst hc)
  rw [hnext]
  split_ifs
  · exact ⟨hpushed.summaries, hpushed.buffers, hpushed.links,
      (getTree_update_of_ne hne 1 nowMs).trans hpushed.header⟩
  · exact hpushed

end Frame

namespace Workspace

variable {config : TreeConfig} {w next : Workspace} {label : Label} {treeId : String}

/-- Nothing of the tree changed, and no chunk hangs newly under one of its summaries. -/
structure Frozen (treeId : String) (w next : Workspace) : Prop where
  tables : w.db.Frozen treeId next.db
  chunks : ∀ parent ∈ w.db.nodes, parent.treeId = treeId → ∀ id,
    next.chunkParents id = some parent.id → w.chunkParents id = some parent.id

/-- Sealed nodes get ids of their own, and nothing is deleted. -/
def Grows (w : Workspace) (label : Label) : Prop :=
  Mints w label ∧ ∀ request, label ≠ .delete request

/-- A step leaves archived trees as they are, and fails when it would write to one. -/
def KeepsArchived (config : TreeConfig) (w : Workspace) (label : Label) : Prop :=
  ∀ treeId, w.db.Archived treeId → Frozen treeId w (step config w label).1 ∧
    (w.target label = some treeId → ∃ error, (step config w label).2 = .error error)

/-- No pre-built summary goes into an archived tree. -/
def NotIntoArchived (w : Workspace) : Label → Prop
  | .ingestSummary input _ _ => ¬w.db.Archived input.treeId
  | _ => True

theorem Frozen.of_tables (h : w.db.Frozen treeId next.db) (hchunks : next.chunkParents = w.chunkParents) :
    Frozen treeId w next :=
  ⟨h, fun _ _ _ _ hlink => hchunks ▸ hlink⟩

theorem linkChunks_frozen {flight : Flight} {node parent : SummaryNode} {chunks : List Chunk}
    {parents : String → Option String} {id : String} (hne : node.id ≠ parent.id)
    (h : flight.linkChunks node chunks parents id = some parent.id) : parents id = some parent.id := by
  cases flight with
  | bucket snapshot inputs | batch doc level childIds inputs =>
      simp only [Flight.linkChunks] at h
      split_ifs at h
      · exact absurd (Option.some.inj h) hne
      · exact h

/-- A step that ends well leaves an archived tree alone and does not write to it. -/
theorem Step.frozen {result : Except TreeError Unit} (hgrows : Grows w label)
    (hinto : NotIntoArchived w label) (harchived : w.db.Archived treeId)
    (h : Step config w label next result) : Frozen treeId w next ∧
      (w.target label = some treeId → ∃ error, result = .error error) := by
  cases h with
  | idle label htarget =>
      refine ⟨.of_tables .refl rfl, fun h => ?_⟩
      rw [htarget] at h
      cases h
  | refused error hflights => exact ⟨.of_tables .refl rfl, fun _ => ⟨error, rfl⟩⟩
  | ingest | setLifecycle | snapshot | hydrate =>
      exact ⟨.of_tables (.of_eq rfl (fun _ => rfl) rfl) rfl, fun h => nomatch h⟩
  | createTree hscope hid =>
      obtain ⟨tree, htree, -⟩ := harchived
      refine ⟨.of_tables (.of_eq rfl (fun _ => rfl) ?_) rfl, fun h => nomatch h⟩
      exact (getTree_append htree _).trans htree.symm
  | archive other =>
      obtain ⟨tree, htree, hstatus⟩ := harchived
      refine ⟨.of_tables (.of_eq rfl (fun _ => rfl) ?_) rfl, fun h => nomatch h⟩
      rw [withDb_db, getTree_archiveTree, htree, Option.map_some, ← hstatus, ite_self]
  | append happend =>
      obtain ⟨tree, hactive⟩ := appendToBuffer_active happend
      refine ⟨.of_tables (frozen_append harchived happend) rfl, fun h => ?_⟩
      exact absurd (Option.some.inj h) (harchived.ne_of_active hactive)
  | @commit i minted enqueueFollowUps flight db hflight hcommit =>
      obtain ⟨hne, hfrozen⟩ := frozen_commit harchived hgrows.1 hcommit
      refine ⟨⟨hfrozen, fun parent hmem _ id hlink => linkChunks_frozen ?_ hlink⟩, fun h => ?_⟩
      · have hid : (flight.node config minted).id = minted.id := by cases flight <;> rfl
        rw [hid]
        exact fun heq => hgrows.1 (heq ▸ List.mem_map_of_mem hmem)
      · rw [target, hflight] at h
        exact absurd (Option.some.inj h) hne
  | moveHeader hactive =>
      refine ⟨.of_tables (frozen_moveHeader harchived hactive) rfl, fun h => ?_⟩
      exact absurd (Option.some.inj h) (harchived.ne_of_active hactive)
  | @ingestSummary input summaryId nowMs db hingest =>
      have hne : input.treeId ≠ treeId := fun heq => hinto (heq ▸ harchived)
      refine ⟨.of_tables (frozen_ingestSummary hne hgrows.1 hingest) rfl, fun h => ?_⟩
      exact absurd (Option.some.inj h) hne
  | delete request => exact absurd rfl (hgrows.2 request)

/-- The ingest of a pre-built summary never fails on a tree that is there. -/
theorem step_ingestSummary {input : SummaryIngest} {summaryId : String} {nowMs : Int}
    (h : w.db.Archived input.treeId) :
    (step config w (.ingestSummary input summaryId nowMs)).2 = .ok () := by
  obtain ⟨tree, htree, -⟩ := h
  simp only [step, SummaryTree.ingestSummary, htree, transact]

/-- Along a run that mints fresh ids and deletes nothing, every step leaves the archived trees frozen
exactly when no pre-built summary goes into one. -/
theorem archived_frozen_iff (config : TreeConfig) (labels : List Label)
    (hgrows : (machine config).AllSteps Grows labels) :
    (machine config).AllSteps (KeepsArchived config) labels ↔
      (machine config).AllSteps NotIntoArchived labels := by
  refine (machine config).allSteps_iff_of_guard (fun _ => True) trivial ?_ ?_ hgrows
  · intro w label _ hgrows hinto
    exact ⟨trivial, fun treeId harchived =>
      (step_step config w label).frozen hgrows hinto harchived⟩
  · intro w label _ _ hinto hkeeps
    cases label with
    | ingestSummary input summaryId nowMs =>
        have harchived := not_not.mp hinto
        obtain ⟨error, herror⟩ := (hkeeps input.treeId harchived).2 rfl
        rw [step_ingestSummary harchived] at herror
        cases herror
    | _ => exact hinto trivial

/-- A tree is created and archived, and then a pre-built summary comes in. -/
def summaryAfterArchive : List Label :=
  [.createTree "t" .source "s", .archive "t", .ingestSummary ⟨"t", 5, 0, 1, ["day"]⟩ "s1" 9]

theorem summaryAfterArchive_grows (config : TreeConfig) :
    (machine config).AllSteps Grows summaryAfterArchive := by
  rw [Machine.allSteps_iff_stepsFrom]
  refine ⟨⟨trivial, ?_⟩, ⟨trivial, ?_⟩, ⟨?_, ?_⟩, trivial⟩
  · simp
  · simp
  · exact List.not_mem_nil
  · simp

/-- The summary lands in the archived tree. -/
theorem summaryAfterArchive_thaws :
    (machine ⟨50000, 5000, 10⟩).AllSteps Grows summaryAfterArchive ∧
      ¬(machine ⟨50000, 5000, 10⟩).AllSteps (KeepsArchived ⟨50000, 5000, 10⟩) summaryAfterArchive := by
  refine ⟨summaryAfterArchive_grows ⟨50000, 5000, 10⟩, fun hkeeps => ?_⟩
  have harchived : ((machine ⟨50000, 5000, 10⟩).run (summaryAfterArchive.take 2)).db.Archived "t" := ⟨_, rfl, rfl⟩
  obtain ⟨error, herror⟩ := (hkeeps (summaryAfterArchive.take 2) _ [] rfl "t" harchived).2 rfl
  cases herror

/-- An append comes too late for an archived tree. -/
theorem archived_frozen_iff_lateAppend :
    (machine ⟨50000, 5000, 10⟩).AllSteps (KeepsArchived ⟨50000, 5000, 10⟩)
      [.createTree "t" .source "s", .append "t" 0 "c" 10 1, .archive "t", .append "t" 0 "d" 10 2] := by
  refine (archived_frozen_iff ⟨50000, 5000, 10⟩ _ ?_).mpr ?_
  · rw [Machine.allSteps_iff_stepsFrom]
    refine ⟨⟨trivial, ?_⟩, ⟨trivial, ?_⟩, ⟨trivial, ?_⟩, ⟨trivial, ?_⟩, trivial⟩
    all_goals simp
  · rw [Machine.allSteps_iff_stepsFrom]
    exact ⟨trivial, trivial, trivial, trivial, trivial⟩

end Workspace
end TinyCortex.SummaryTree
