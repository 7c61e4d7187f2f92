import TinyCortex.Tree.DocumentSeal

/-! Everything that grows summary trees, as one machine: leaves are appended, buckets snapshotted and
sealed, pre-built summaries ingested (`tree/direct_ingest.rs`), documents sealed and chunks persisted,
in any order and on any number of trees. `append_leaf`, the cascades and the flushes are sequences of
these steps. -/

namespace TinyCortex.SummaryTree

open Table Chunks

/-- The header of a tree that nothing has been sealed into (`tree/registry.rs`). -/
def Tree.fresh (id : String) (kind : TreeKind) (scope : String) : Tree :=
  ⟨id, kind, scope, none, 0, .active, none⟩

/-- A pre-built level-1 summary. -/
structure SummaryIngest where
  treeId : String
  tokenCount : Nat
  timeRangeStartMs : Int
  timeRangeEndMs : Int
  childLabels : List String
  deriving DecidableEq, Repr

def ingestedNode (input : SummaryIngest) (summaryId : String) (nowMs : Int) : SummaryNode where
  id := summaryId
  treeId := input.treeId
  level := 1
  parentId := none
  childIds := input.childLabels
  tokenCount := input.tokenCount
  timeRangeStartMs := input.timeRangeStartMs
  timeRangeEndMs := input.timeRangeEndMs
  sealedAtMs := nowMs
  deleted := false
  docId := none
  versionMs := none

/-- The transaction of `ingest_summary`. It does not look at the status of the tree. -/
def ingestSummary (input : SummaryIngest) (summaryId : String) (nowMs : Int) (db : Db) :
    Except TreeError Db :=
  match db.getTree input.treeId with
  | none => .error (.noTree input.treeId)
  | some tree =>
      let node := ingestedNode input summaryId nowMs
      let inserted := db.insertSummary node
      let pushed :=
        if summaryId ∈ inserted.buffered input.treeId 1 then inserted else pushParent node inserted
      .ok (if tree.maxLevel < 1 then pushed.updateTreeAfterSeal input.treeId summaryId 1 nowMs
        else pushed)

/-- A document seal that ran to its end: the version and the chunks it sealed. -/
structure SealedDocument where
  treeId : String
  docId : String
  versionMs : Option Int
  chunkIds : List String
  deriving DecidableEq, Repr

/-- The bucket machine, and the document seals that completed. -/
structure Forest where
  base : World
  completed : List SealedDocument
  deriving DecidableEq, Repr

namespace Forest

def db (w : Forest) : Db := w.base.db

inductive Label
  | append (treeId leaf : String) (tokenDelta itemTs : Int)
  | snapshot (treeId : String) (level : Nat)
  | commit (run : Nat) (summaryId : String) (tokenCount : Nat) (nowMs : Int)
      (enqueueFollowUps : Bool)
  | ingest (input : SummaryIngest) (summaryId : String) (nowMs : Int)
  | document (doc : DocumentSeal) (supply : List (Option Minted)) (nowMs : Int)
      (crash : Option Crash)
  | persist (chunk : Chunk)
  deriving DecidableEq, Repr

def withDb (w : Forest) (db : Db) : Forest := { w with base := { w.base with db := db } }

/-- A bucket step of the machine, as the bucket machine takes it. -/
def bucket (config : TreeConfig) (w : Forest) (label : SummaryTree.Label) : Forest :=
  { w with base := SummaryTree.advance config w.base label }

def advance (config : TreeConfig) (w : Forest) : Label → Forest
  | .append treeId leaf tokenDelta itemTs =>
      w.bucket config (.append treeId 0 leaf tokenDelta itemTs)
  | .snapshot treeId level => w.bucket config (.snapshot treeId level)
  | .commit i summaryId tokenCount nowMs enqueueFollowUps =>
      w.bucket config (.commit i summaryId tokenCount nowMs enqueueFollowUps)
  | .ingest input summaryId nowMs =>
      match ingestSummary input summaryId nowMs w.db with
      | .ok db => w.withDb db
      | .error _ => w
  | .document doc supply nowMs crash =>
      match sealDocument config doc supply nowMs crash w.db with
      | (db, .ok _) =>
          { w.withDb db with
            completed := w.completed ++
              [⟨doc.treeId, doc.docId, doc.versionMs, resolvable w.db doc.chunkIds⟩] }
      | (db, .error _) => w.withDb db
  | .persist chunk => w.withDb { w.db with chunks := upsert Chunk.id chunk w.db.chunks }

end Forest

/-- What a forest is grown from: the ids, kinds and scopes of its trees. -/
def Forest.empty (trees : List (String × TreeKind × String)) : Forest :=
  ⟨World.empty (trees.map fun (id, kind, scope) => Tree.fresh id kind scope) [], []⟩

/-- Everything that grows trees, in any order, on freshly created trees. -/
def growing (config : TreeConfig) (trees : List (String × TreeKind × String)) :
    Machine Forest Forest.Label := ⟨Forest.empty trees, Forest.advance config⟩

namespace Forest

/-- Every sealed node gets an id of its own. -/
def Mints (w : Forest) : Label → Prop
  | .commit _ summaryId _ _ _ => summaryId ∉ w.db.nodeIds
  | .ingest _ summaryId _ => summaryId ∉ w.db.nodeIds
  | .document _ supply _ _ => FreshSupply supply w.db
  | _ => True

instance (w : Forest) : ∀ label, Decidable (Mints w label)
  | .commit _ _ _ _ _ => inferInstanceAs (Decidable (_ ∉ _))
  | .ingest _ _ _ => inferInstanceAs (Decidable (_ ∉ _))
  | .document _ _ _ _ => inferInstanceAs (Decidable (FreshSupply _ _))
  | .append _ _ _ _ | .snapshot _ _ | .persist _ => isTrue trivial

end Forest

/-- What an ingested summary does to its tree. -/
structure Ingested (input : SummaryIngest) (node : SummaryNode) (nowMs : Int) (db next : Db) : Prop where
  nodes : next.nodes = db.nodes ++ [node]
  buffered : ∀ treeId level, next.buffered treeId level =
    if treeId = input.treeId ∧ level = 1 then db.buffered treeId level ++ [node.id]
    else db.buffered treeId level
  header : ∃ tree, db.getTree input.treeId = some tree ∧ next.trees =
    if tree.maxLevel < 1 then (db.updateTreeAfterSeal input.treeId node.id 1 nowMs).trees
    else db.trees

/-- An ingested summary is inserted, pushed onto its buffer unless it is there, and may become the root. -/
theorem ingestSummary_cases {input : SummaryIngest} {summaryId : String} {nowMs : Int} {db next : Db}
    (h : ingestSummary input summaryId nowMs db = .ok next) :
    ∃ tree pushed, db.getTree input.treeId = some tree ∧
      (pushed = db.insertSummary (ingestedNode input summaryId nowMs) ∨
        pushed = pushParent (ingestedNode input summaryId nowMs)
          (db.insertSummary (ingestedNode input summaryId nowMs))) ∧
      next = if tree.maxLevel < 1 then pushed.updateTreeAfterSeal input.treeId summaryId 1 nowMs
        else pushed := by
  unfold ingestSummary at h
  split at h
  · cases h
  · rename_i tree htree
    refine ⟨tree, _, htree, ?_, (Except.ok.inj h).symm⟩
    split_ifs
    · exact Or.inl rfl
    · exact Or.inr rfl

theorem ingestSummary_nodes {input : SummaryIngest} {summaryId : String} {nowMs : Int} {db next : Db}
    (hfresh : summaryId ∉ db.nodeIds) (h : ingestSummary input summaryId nowMs db = .ok next) :
    next.nodes = db.nodes ++ [ingestedNode input summaryId nowMs] ∧ next.chunks = db.chunks := by
  obtain ⟨tree, pushed, -, hpushed, rfl⟩ := ingestSummary_cases h
  have hinserted : pushed.nodes = db.nodes ++ [ingestedNode input summaryId nowMs] ∧
      pushed.chunks = db.chunks := by
    rcases hpushed with rfl | rfl
    · exact ⟨Db.nodes_insertSealed 0 _ hfresh, rfl⟩
    · exact ⟨Db.nodes_insertSealed 0 _ hfresh, rfl⟩
  split_ifs
  · exact hinserted
  · exact hinserted

theorem ingestSummary_ok {input : SummaryIngest} {summaryId : String} {nowMs : Int} {db next : Db}
    (hclosed : db.Closed) (hfresh : summaryId ∉ db.nodeIds)
    (h : ingestSummary input summaryId nowMs db = .ok next) :
    Ingested input (ingestedNode input summaryId nowMs) nowMs db next := by
  unfold ingestSummary at h
  split at h
  · cases h
  · rename_i tree htree
    let node := ingestedNode input summaryId nowMs
    have hnot : summaryId ∉ (db.insertSummary node).buffered input.treeId 1 :=
      fun hmem => hfresh (hclosed.buffered input.treeId 1 (by decide) summaryId hmem)
    obtain ⟨buf, hkey, hitems, hpush⟩ := pushParent_eq node (db.insertSummary node)
    dsimp only at h
    rw [if_neg hnot, hpush] at h
    have hnodes : (db.insertSummary node).nodes = db.nodes ++ [node] :=
      Db.nodes_insertSealed 0 node hfresh
    have hbuffered : ∀ treeId level, ((db.insertSummary node).upsertBuffer buf).buffered treeId level =
        if treeId = input.treeId ∧ level = 1 then db.buffered treeId level ++ [node.id]
        else db.buffered treeId level := by
      intro treeId level
      rw [Db.buffered_upsertBuffer hkey, hitems]
      by_cases heq : treeId = input.treeId ∧ level = 1
      · obtain ⟨rfl, rfl⟩ := heq
        rfl
      · rw [if_neg heq]
        exact if_neg heq
    split_ifs at h with hlow
    · obtain rfl := Except.ok.inj h
      exact ⟨hnodes, hbuffered, tree, htree, (if_pos hlow).symm⟩
    · obtain rfl := Except.ok.inj h
      exact ⟨hnodes, hbuffered, tree, htree, (if_neg hlow).symm⟩

namespace Forest

/-- What every reachable forest satisfies: ids resolve, nodes are live and above the leaves, and a seal
in flight above level 0 has hydrated its whole snapshot. -/
structure Sound (w : Forest) : Prop where
  closed : w.db.Closed
  live : ∀ node ∈ w.db.nodes, node.deleted = false ∧ 0 < node.level
  inputs : ∀ run ∈ w.base.seals, 0 < run.snapshot.level →
    run.inputs.map SummaryInput.id = run.snapshot.itemIds

/-- Nothing above the leaves moved. -/
structure Quiet (w next : Forest) : Prop where
  nodes : next.db.nodes = w.db.nodes
  trees : next.db.trees = w.db.trees
  buffered : ∀ treeId level, 0 < level → next.db.buffered treeId level = w.db.buffered treeId level
  inputs : ∀ run ∈ next.base.seals, (∃ old ∈ w.base.seals, run.snapshot = old.snapshot ∧
    run.inputs = old.inputs) ∨ (∃ treeId level, run.snapshot = w.db.getBuffer treeId level) ∧
      sealInputs w.db run.snapshot = .ok run.inputs
  completed : next.completed = w.completed

/-- What one step can do. -/
inductive Step (config : TreeConfig) (w : Forest) : Label → Forest → Prop
  | quiet {label next} (h : Quiet w next)
      (hlabel : ∀ doc supply nowMs crash, label ≠ .document doc supply nowMs crash) :
      Step config w label next
  | commit {i run summaryId tokenCount nowMs enqueueFollowUps next followUp}
      (hrun : run ∈ w.base.seals)
      (hcommit : Committed config run.snapshot
        (sealedNode run.snapshot run.inputs summaryId tokenCount nowMs) nowMs enqueueFollowUps w.db
        next.db followUp)
      (hseals : ∀ run ∈ next.base.seals, ∃ old ∈ w.base.seals, run.snapshot = old.snapshot ∧
        run.inputs = old.inputs)
      (hcompleted : next.completed = w.completed) :
      Step config w (.commit i summaryId tokenCount nowMs enqueueFollowUps) next
  | ingest {input summaryId nowMs db}
      (h : Ingested input (ingestedNode input summaryId nowMs) nowMs w.db db) :
      Step config w (.ingest input summaryId nowMs) (w.withDb db)
  | built {doc supply nowMs crash db added} (hnone : attaching config doc supply crash w.db = none)
      (hgrown : Grown doc supply added w.db db)
      (hparts : ∀ node ∈ added, PartOf (leafBatches config doc w.db) 0 added node) :
      Step config w (.document doc supply nowMs crash) (w.withDb db)
  | attached {doc supply nowMs crash db added root next}
      (hroot : attaching config doc supply crash w.db = some root)
      (h : Attached config doc supply nowMs crash w.db added root db)
      (hbase : next.base = (w.withDb db).base)
      (hcompleted : next.completed = if crash = some .beforeHeader then w.completed else
        w.completed ++ [⟨doc.treeId, doc.docId, doc.versionMs, resolvable w.db doc.chunkIds⟩]) :
      Step config w (.document doc supply nowMs crash) next

theorem Quiet.refl (w : Forest) : Quiet w w :=
  ⟨rfl, rfl, fun _ _ _ => rfl, fun run hrun => Or.inl ⟨run, hrun, rfl, rfl⟩, rfl⟩

theorem seals_set {w : Forest} {i : Nat} {run : SealRun} {phase : SealPhase}
    (hrun : w.base.seals[i]? = some run) :
    ∀ other ∈ w.base.seals.set i { run with phase := phase }, ∃ old ∈ w.base.seals,
      other.snapshot = old.snapshot ∧ other.inputs = old.inputs := by
  intro other hother
  rcases List.mem_or_eq_of_mem_set hother with hold | rfl
  · exact ⟨other, hold, rfl, rfl⟩
  · exact ⟨run, List.mem_of_getElem? hrun, rfl, rfl⟩

/-- A bucket step is quiet, or it is a commit. -/
theorem bucket_step (config : TreeConfig) (w : Forest) (label : SummaryTree.Label)
    (hlevel : ∀ treeId level leaf tokenDelta itemTs,
      label = .append treeId level leaf tokenDelta itemTs → level = 0) :
    Quiet w (w.bucket config label) ∨
    ∃ i run summaryId tokenCount nowMs enqueueFollowUps followUp,
      label = .commit i summaryId tokenCount nowMs enqueueFollowUps ∧ run ∈ w.base.seals ∧
      Committed config run.snapshot
        (sealedNode run.snapshot run.inputs summaryId tokenCount nowMs) nowMs enqueueFollowUps w.db
        (w.bucket config label).db followUp ∧
      ∀ run ∈ (w.bucket config label).base.seals, ∃ old ∈ w.base.seals,
        run.snapshot = old.snapshot ∧ run.inputs = old.inputs := by
  unfold bucket
  have hstep := advance_step config w.base label
  generalize SummaryTree.advance config w.base label = next at hstep ⊢
  cases hstep with
  | idle =>
      exact Or.inl ⟨rfl, rfl, fun _ _ _ => rfl, fun run hrun => Or.inl ⟨run, hrun, rfl, rfl⟩, rfl⟩
  | @append treeId level leaf tokenDelta itemTs db happend =>
      obtain rfl := hlevel treeId level leaf tokenDelta itemTs rfl
      obtain ⟨htrees, -, hsummaries⟩ := appendToBuffer_frame happend
      refine Or.inl ⟨congrArg (List.map _) hsummaries, htrees, fun treeId' level' hpos => ?_,
        fun run hrun => Or.inl ⟨run, hrun, rfl, rfl⟩, rfl⟩
      refine (appendToBuffer_buffered happend treeId' level').trans (if_neg fun hc => ?_)
      exact hpos.ne' hc.2.1
  | @snapshot treeId level inputs hinputs =>
      refine Or.inl ⟨rfl, rfl, fun _ _ _ => rfl, fun run hrun => ?_, rfl⟩
      rcases List.mem_append.mp hrun with hold | hnew
      · exact Or.inl ⟨run, hold, rfl, rfl⟩
      · obtain rfl := List.mem_singleton.mp hnew
        exact Or.inr ⟨⟨treeId, level, rfl⟩, hinputs⟩
  | abort hrun _ =>
      exact Or.inl ⟨rfl, rfl, fun _ _ _ => rfl, fun run hmem => Or.inl (seals_set hrun run hmem), rfl⟩
  | commit hrun _ hcommit =>
      exact Or.inr ⟨_, _, _, _, _, _, _, rfl, List.mem_of_getElem? hrun, hcommit, seals_set hrun⟩

theorem advance_step (config : TreeConfig) {w : Forest} {label : Label} (hsound : Sound w)
    (hmints : Mints w label) : Step config w label (advance config w label) := by
  cases label with
  | append treeId leaf tokenDelta itemTs =>
      rcases bucket_step config w (.append treeId 0 leaf tokenDelta itemTs)
        (by rintro _ _ _ _ _ ⟨⟩; rfl) with hquiet | ⟨_, _, _, _, _, _, _, heq, -⟩
      · exact .quiet hquiet nofun
      · cases heq
  | snapshot treeId level =>
      rcases bucket_step config w (.snapshot treeId level) (by rintro _ _ _ _ _ ⟨⟩)
        with hquiet | ⟨_, _, _, _, _, _, _, heq, -⟩
      · exact .quiet hquiet nofun
      · cases heq
  | commit i summaryId tokenCount nowMs enqueueFollowUps =>
      rcases bucket_step config w
        (.commit i summaryId tokenCount nowMs enqueueFollowUps) (by rintro _ _ _ _ _ ⟨⟩)
        with hquiet | ⟨_, run, _, _, _, _, _, heq, hrun, hcommit, hseals⟩
      · exact .quiet hquiet nofun
      · cases heq
        exact .commit hrun hcommit hseals rfl
  | ingest input summaryId nowMs =>
      rw [advance]
      split
      · rename_i db hok
        exact .ingest (ingestSummary_ok hsound.closed hmints hok)
      · exact .quiet (Quiet.refl w) nofun
  | document doc supply nowMs crash =>
      rcases hseal : sealDocument config doc supply nowMs crash w.db with ⟨db, result⟩
      rw [advance, hseal]
      rcases sealDocument_cases hsound.closed hmints hseal with
        ⟨hnone, hnot, added, hgrown, hparts⟩ | ⟨added, root, hroot, hattached, rfl⟩
      · cases result with
        | ok id => exact absurd rfl (hnot id)
        | error halt => exact .built hnone hgrown hparts
      · split_ifs with hcrash
        · exact .attached hroot hattached rfl (if_pos hcrash).symm
        · exact .attached hroot hattached rfl (if_neg hcrash).symm
  | persist chunk =>
      exact .quiet
        ⟨rfl, rfl, fun _ _ _ => rfl, fun run hrun => Or.inl ⟨run, hrun, rfl, rfl⟩, rfl⟩ nofun

end Forest

/-! ### What each step makes reachable -/

section Reaching

variable {db next : Db} {treeId id : String}

theorem Committed.nodes {config : TreeConfig} {snapshot : Buffer} {node : SummaryNode} {nowMs : Int}
    {enqueueFollowUps : Bool} {followUp : Option Queue.SealPayload}
    (h : Committed config snapshot node nowMs enqueueFollowUps db next followUp)
    (hfresh : node.id ∉ db.nodeIds) : next.nodes = db.nodes ++ [node.bare] := by
  rw [Db.nodes, h.summaries, ← Db.nodes, Db.nodes_insertSealed _ _ hfresh]

/-- A seal queues its node one level up, and the node keeps what it took from the buffer. -/
theorem Committed.reaches_iff {config : TreeConfig} {snapshot : Buffer} {node : SummaryNode}
    {nowMs : Int} {enqueueFollowUps : Bool} {followUp : Option Queue.SealPayload}
    (h : Committed config snapshot node nowMs enqueueFollowUps db next followUp)
    (hclosed : db.Closed) (hfresh : node.id ∉ db.nodeIds) (hlevel : node.level = snapshot.level + 1)
    (hchildren : 0 < snapshot.level → node.childIds = snapshot.itemIds) :
    next.Reaches treeId id ↔ db.Reaches treeId id ∨ treeId = snapshot.treeId ∧ id = node.id := by
  have hself : next.Reaches snapshot.treeId node.id := by
    refine .buffered (Nat.succ_pos snapshot.level) ?_
    rw [h.buffered, bufferedAfterSeal, if_neg (by simp), if_pos ⟨rfl, rfl⟩]
    exact List.mem_append_right _ List.mem_cons_self
  constructor
  · intro hreach
    have hof := Db.Reaches.of_grow (if treeId = snapshot.treeId then [node.id] else [])
      hclosed (h.nodes hfresh) ?_ ?_ ?_ ?_ hreach
    · split_ifs at hof with htree
      · exact hof.imp_right fun hmem => ⟨htree, List.mem_singleton.mp hmem⟩
      · exact Or.inl (hof.resolve_right List.not_mem_nil)
    · intro other hother
      rw [List.mem_singleton.mp hother]
      exact hfresh
    · intro other hother
      split_ifs at hother
      · rw [List.mem_singleton.mp hother]
        exact hfresh
      · exact absurd hother List.not_mem_nil
    · intro level hpos other hmem
      rw [h.buffered, bufferedAfterSeal] at hmem
      split_ifs at hmem with hsame hup
      · exact Or.inl (.buffered hpos (List.mem_of_mem_drop hmem))
      · rw [if_pos hup.1]
        rcases List.mem_append.mp hmem with hold | hnew
        · exact Or.inl (.buffered hpos hold)
        · exact Or.inr hnew
      · exact Or.inl (.buffered hpos hmem)
    · intro other hother habove hin child hchild
      obtain rfl := List.mem_singleton.mp hother
      have hpos : 0 < snapshot.level := by
        rw [SummaryNode.bare_level, hlevel] at habove
        omega
      split_ifs at hin with htree
      · rw [SummaryNode.bare_childIds, hchildren hpos] at hchild
        exact Or.inl (.buffered hpos (htree ▸ h.snapshotHeld.subset hchild))
      · exact absurd hin List.not_mem_nil
  · rintro (hreach | ⟨rfl, rfl⟩)
    · refine Db.Reaches.grow (h.nodes hfresh) (fun level hpos other hmem => ?_) hreach
      by_cases hsame : treeId = snapshot.treeId ∧ level = snapshot.level
      · obtain ⟨rfl, rfl⟩ := hsame
        obtain ⟨rest, hrest⟩ := h.snapshotHeld
        rw [← hrest] at hmem
        rcases List.mem_append.mp hmem with hconsumed | hleft
        · have hmem : node.bare ∈ next.nodes := by
            rw [h.nodes hfresh]
            exact List.mem_append_right _ List.mem_cons_self
          refine .child hmem hself ?_ ?_
          · rw [SummaryNode.bare_level, hlevel]
            omega
          · rw [SummaryNode.bare_childIds, hchildren hpos]
            exact hconsumed
        · refine .buffered hpos ?_
          rw [h.buffered, bufferedAfterSeal, if_pos ⟨rfl, rfl⟩, ← hrest, List.drop_left]
          exact hleft
      · refine .buffered hpos ?_
        rw [h.buffered, bufferedAfterSeal, if_neg hsame]
        split_ifs
        · exact List.mem_append_left _ hmem
        · exact hmem
    · exact hself

theorem Ingested.reaches_iff {input : SummaryIngest} {node : SummaryNode} {nowMs : Int}
    (h : Ingested input node nowMs db next) (hclosed : db.Closed) (hfresh : node.id ∉ db.nodeIds)
    (hlevel : node.level = 1) :
    next.Reaches treeId id ↔ db.Reaches treeId id ∨ treeId = input.treeId ∧ id = node.id := by
  constructor
  · intro hreach
    have hof := Db.Reaches.of_grow (if treeId = input.treeId then [node.id] else [])
      hclosed h.nodes ?_ ?_ ?_ ?_ hreach
    · split_ifs at hof with htree
      · exact hof.imp_right fun hmem => ⟨htree, List.mem_singleton.mp hmem⟩
      · exact Or.inl (hof.resolve_right List.not_mem_nil)
    · intro other hother
      rw [List.mem_singleton.mp hother]
      exact hfresh
    · intro other hother
      split_ifs at hother
      · rw [List.mem_singleton.mp hother]
        exact hfresh
      · exact absurd hother List.not_mem_nil
    · intro level hpos other hmem
      rw [h.buffered] at hmem
      split_ifs at hmem with hsame
      · rw [if_pos hsame.1]
        rcases List.mem_append.mp hmem with hold | hnew
        · exact Or.inl (.buffered hpos hold)
        · exact Or.inr hnew
      · exact Or.inl (.buffered hpos hmem)
    · intro other hother habove
      rw [List.mem_singleton.mp hother, hlevel] at habove
      exact absurd habove (lt_irrefl 1)
  · rintro (hreach | ⟨rfl, rfl⟩)
    · refine Db.Reaches.grow h.nodes (fun level hpos other hmem => .buffered hpos ?_) hreach
      rw [h.buffered]
      split_ifs
      · exact List.mem_append_left _ hmem
      · exact hmem
    · refine .buffered Nat.one_pos ?_
      rw [h.buffered, if_pos ⟨rfl, rfl⟩]
      exact List.mem_append_right _ List.mem_cons_self

/-- Nodes that no buffer mentions are not reachable. -/
theorem Grown.reaches_iff {doc : DocumentSeal} {supply : List (Option Minted)}
    {added : List SummaryNode} (h : Grown doc supply added db next) (hclosed : db.Closed)
    (hfresh : FreshSupply supply db) : next.Reaches treeId id ↔ db.Reaches treeId id := by
  have hbuffered : ∀ level, next.buffered treeId level = db.buffered treeId level :=
    fun level => congrArg Buffer.itemIds (Db.getBuffer_congr h.buffers treeId level)
  constructor
  · intro hreach
    have hof := Db.Reaches.of_grow [] hclosed h.nodes (h.fresh hfresh)
      (fun _ hmem => absurd hmem List.not_mem_nil)
      (fun level hpos other hmem => Or.inl (.buffered hpos (hbuffered level ▸ hmem)))
      (fun _ _ _ hmem => absurd hmem List.not_mem_nil) hreach
    exact hof.resolve_right List.not_mem_nil
  · exact Db.Reaches.grow h.nodes fun level hpos other hmem =>
      .buffered hpos ((hbuffered level).symm ▸ hmem)

section Attach

variable {config : TreeConfig} {doc : DocumentSeal} {supply : List (Option Minted)} {nowMs : Int}
  {crash : Option Crash} {added : List SummaryNode} {root : SummaryNode}

theorem Attached.fresh (h : Attached config doc supply nowMs crash db added root next)
    (hfresh : FreshSupply supply db) : ∀ node ∈ added, node.id ∉ db.nodeIds :=
  fun _ hnode => hfresh.unused _ (h.ids.subset (List.mem_map_of_mem hnode))

theorem Attached.reaches_root (h : Attached config doc supply nowMs crash db added root next) :
    next.Reaches doc.treeId root.id := by
  refine .buffered (show 0 < mergeLevelBase by decide) ?_
  rw [h.buffered, if_pos ⟨rfl, rfl⟩]
  exact List.mem_append_right _ List.mem_cons_self

theorem Attached.reaches_of_old (h : Attached config doc supply nowMs crash db added root next)
    (hreach : db.Reaches treeId id) : next.Reaches treeId id := by
  refine Db.Reaches.grow h.nodes (fun level hpos other hmem => .buffered hpos ?_) hreach
  rw [h.buffered]
  split_ifs
  · exact List.mem_append_left _ hmem
  · exact hmem

/-- Only nodes of the attached subtree become reachable, and only in its tree. -/
theorem Attached.reaches_cases (h : Attached config doc supply nowMs crash db added root next)
    (hclosed : db.Closed) (hfresh : FreshSupply supply db) (hreach : next.Reaches treeId id) :
    db.Reaches treeId id ∨ treeId = doc.treeId ∧ id ∈ added.map SummaryNode.id := by
  have hnew := h.fresh hfresh
  have hids : ∀ id ∈ added.map SummaryNode.id, id ∉ db.nodeIds := by
    intro id hid
    obtain ⟨node, hnode, rfl⟩ := List.mem_map.mp hid
    exact hnew node hnode
  have hof := Db.Reaches.of_grow
    (if treeId = doc.treeId then added.map SummaryNode.id else []) hclosed h.nodes hnew
    ?_ ?_ ?_ hreach
  · split_ifs at hof with htree
    · exact hof.imp_right fun hmem => ⟨htree, hmem⟩
    · exact Or.inl (hof.resolve_right List.not_mem_nil)
  · intro other hother
    split_ifs at hother
    · exact hids other hother
    · exact absurd hother List.not_mem_nil
  · intro level hpos other hmem
    rw [h.buffered] at hmem
    split_ifs at hmem with hsame
    · rw [if_pos hsame.1]
      rcases List.mem_append.mp hmem with hold | hroot
      · exact Or.inl (.buffered hpos hold)
      · rw [List.mem_singleton.mp hroot]
        exact Or.inr (List.mem_map_of_mem h.built.mem)
    · exact Or.inl (.buffered hpos hmem)
  · intro node hnode habove hin child hchild
    split_ifs at hin ⊢
    · obtain ⟨part, hpart, rfl, -⟩ := (h.parts node hnode).upper habove child hchild
      exact Or.inr (List.mem_map_of_mem hpart)
    · exact absurd hin List.not_mem_nil

end Attach
end Reaching

namespace Forest

theorem sound_empty (trees : List (String × TreeKind × String)) : Sound (Forest.empty trees) where
  closed :=
    ⟨List.nodup_nil, fun _ _ _ _ hmem => absurd hmem List.not_mem_nil,
      fun _ hmem => absurd hmem List.not_mem_nil⟩
  live := fun _ hmem => absurd hmem List.not_mem_nil
  inputs := fun _ hmem => absurd hmem List.not_mem_nil

theorem Sound.of_quiet {w next : Forest} (h : Sound w) (hquiet : Quiet w next) : Sound next where
  closed := h.closed.congr hquiet.nodes hquiet.buffered
  live := hquiet.nodes ▸ h.live
  inputs := by
    intro run hrun hpos
    rcases hquiet.inputs run hrun with ⟨old, hold, hsnap, hin⟩ | ⟨⟨treeId, level, hsnap⟩, hseal⟩
    · rw [hsnap, hin]
      exact h.inputs old hold (hsnap ▸ hpos)
    · unfold sealInputs at hseal
      dsimp only at hseal
      split_ifs at hseal
      rw [← Except.ok.inj hseal]
      refine hydrateInputs_ids_of_resolves fun id hid => ?_
      rw [Db.Resolves, if_neg hpos.ne', ← Db.nodeIds_eq]
      rw [hsnap] at hid hpos
      rw [Db.getBuffer_level] at hpos
      exact h.closed.buffered treeId level hpos id hid

/-- A sealed bucket above level 0 holds exactly what its snapshot took from the buffer. -/
theorem Sound.sealedNode_childIds {w : Forest} (h : Sound w) {run : SealRun}
    (hrun : run ∈ w.base.seals) (summaryId : String) (tokenCount : Nat) (nowMs : Int)
    (hpos : 0 < run.snapshot.level) :
    (sealedNode run.snapshot run.inputs summaryId tokenCount nowMs).childIds =
      run.snapshot.itemIds := h.inputs run hrun hpos

theorem live_concat {w next : Forest} {added : List SummaryNode} (h : Sound w)
    (hnodes : next.db.nodes = w.db.nodes ++ added)
    (hadded : ∀ node ∈ added, node.deleted = false ∧ 0 < node.level) :
    ∀ node ∈ next.db.nodes, node.deleted = false ∧ 0 < node.level := by
  intro node hnode
  rw [hnodes] at hnode
  exact (List.mem_append.mp hnode).elim (h.live node) (hadded node)

theorem Sound.step {config : TreeConfig} {w next : Forest} {label : Label} (h : Sound w)
    (hmints : Mints w label) (hstep : Step config w label next) : Sound next := by
  cases hstep with
  | quiet hquiet _ => exact h.of_quiet hquiet
  | @commit i run summaryId tokenCount nowMs _ next followUp hrun hcommit hseals _ =>
      let node := sealedNode run.snapshot run.inputs summaryId tokenCount nowMs
      have hnodes := hcommit.nodes hmints
      have hgrow : w.db.nodeIds ⊆ next.db.nodeIds := by
        rw [Db.nodeIds, Db.nodeIds, hnodes, List.map_append]
        exact List.subset_append_left _ _
      have hself : node.id ∈ next.db.nodeIds := by
        rw [Db.nodeIds, hnodes, List.map_append]
        exact List.mem_append_right _ List.mem_cons_self
      refine ⟨h.closed.grow hnodes (List.nodup_singleton _) ?_ ?_ ?_, ?_, ?_⟩
      · intro other hother
        rw [List.mem_singleton.mp hother]
        exact hmints
      · intro treeId level hpos id hid
        rw [hcommit.buffered, bufferedAfterSeal] at hid
        split_ifs at hid
        · exact hgrow (h.closed.buffered treeId level hpos id (List.mem_of_mem_drop hid))
        · rcases List.mem_append.mp hid with hold | hnew
          · exact hgrow (h.closed.buffered treeId level hpos id hold)
          · exact List.mem_singleton.mp hnew ▸ hself
        · exact hgrow (h.closed.buffered treeId level hpos id hid)
      · intro other hother habove id hid
        obtain rfl := List.mem_singleton.mp hother
        have hpos : 0 < run.snapshot.level := Nat.lt_of_succ_lt_succ habove
        have hitem : id ∈ run.snapshot.itemIds :=
          h.sealedNode_childIds hrun summaryId tokenCount nowMs hpos ▸ hid
        exact hgrow (h.closed.buffered _ _ hpos id (hcommit.snapshotHeld.subset hitem))
      · refine live_concat h hnodes fun other hother => ?_
        obtain rfl := List.mem_singleton.mp hother
        exact ⟨rfl, Nat.succ_pos _⟩
      · intro other hother hpos
        obtain ⟨old, hold, hsnap, hin⟩ := hseals other hother
        rw [hsnap, hin]
        exact h.inputs old hold (hsnap ▸ hpos)
  | @ingest input summaryId nowMs db hingest =>
      have hgrow : w.db.nodeIds ⊆ db.nodeIds := by
        rw [Db.nodeIds, Db.nodeIds, hingest.nodes, List.map_append]
        exact List.subset_append_left _ _
      have hself : summaryId ∈ db.nodeIds := by
        rw [Db.nodeIds, hingest.nodes, List.map_append]
        exact List.mem_append_right _ List.mem_cons_self
      refine ⟨h.closed.grow hingest.nodes (List.nodup_singleton _) ?_ ?_ ?_, ?_, h.inputs⟩
      · intro other hother
        rw [List.mem_singleton.mp hother]
        exact hmints
      · intro treeId level hpos id hid
        change id ∈ db.buffered treeId level at hid
        rw [hingest.buffered] at hid
        split_ifs at hid
        · rcases List.mem_append.mp hid with hold | hnew
          · exact hgrow (h.closed.buffered treeId level hpos id hold)
          · exact List.mem_singleton.mp hnew ▸ hself
        · exact hgrow (h.closed.buffered treeId level hpos id hid)
      · intro other hother habove
        obtain rfl := List.mem_singleton.mp hother
        exact absurd habove (lt_irrefl 1)
      · refine live_concat h hingest.nodes fun other hother => ?_
        obtain rfl := List.mem_singleton.mp hother
        exact ⟨rfl, Nat.one_pos⟩
  | @built doc supply nowMs crash db added _ hgrown hparts =>
      have hnodeIds := hgrown.nodeIds
      refine ⟨h.closed.grow hgrown.nodes (hmints.nodup.sublist hgrown.ids) (hgrown.fresh hmints) ?_ ?_,
        ?_, h.inputs⟩
      · intro treeId level hpos id hid
        change id ∈ db.buffered treeId level at hid
        rw [Db.buffered, Db.getBuffer_congr hgrown.buffers] at hid
        exact hnodeIds ▸ List.mem_append_left _ (h.closed.buffered treeId level hpos id hid)
      · intro node hnode habove id hid
        obtain ⟨part, hpart, rfl, -⟩ := (hparts node hnode).upper habove id hid
        exact hnodeIds ▸ List.mem_append_right _ (List.mem_map_of_mem hpart)
      · exact live_concat h hgrown.nodes fun node hnode =>
          ⟨(hgrown.owned node hnode).deleted, (hparts node hnode).above⟩
  | @attached doc supply nowMs crash db added root next _ hattached hbase _ =>
      have hdb : next.db = db := congrArg World.db hbase
      have hnodes : next.db.nodes = w.db.nodes ++ added := hdb ▸ hattached.nodes
      have hnodeIds : next.db.nodeIds = w.db.nodeIds ++ added.map SummaryNode.id := by
        rw [Db.nodeIds, hnodes, List.map_append]
        rfl
      refine ⟨h.closed.grow hnodes (hmints.nodup.sublist hattached.ids) (hattached.fresh hmints) ?_ ?_,
        ?_, ?_⟩
      · intro treeId level hpos id hid
        rw [hdb, hattached.buffered] at hid
        rw [hnodeIds]
        split_ifs at hid
        · rcases List.mem_append.mp hid with hold | hnew
          · exact List.mem_append_left _ (h.closed.buffered treeId level hpos id hold)
          · rw [List.mem_singleton.mp hnew]
            exact List.mem_append_right _ (List.mem_map_of_mem hattached.built.mem)
        · exact List.mem_append_left _ (h.closed.buffered treeId level hpos id hid)
      · intro node hnode habove id hid
        obtain ⟨part, hpart, rfl, -⟩ := (hattached.parts node hnode).upper habove id hid
        exact hnodeIds ▸ List.mem_append_right _ (List.mem_map_of_mem hpart)
      · exact live_concat h hnodes fun node hnode =>
          ⟨(hattached.owned node hnode).deleted, (hattached.parts node hnode).above⟩
      · rw [hbase]
        exact h.inputs

theorem sound_advance {config : TreeConfig} {w : Forest} {label : Label} (h : Sound w)
    (hmints : Mints w label) : Sound (advance config w label) :=
  h.step hmints (advance_step config h hmints)

end Forest

end TinyCortex.SummaryTree
