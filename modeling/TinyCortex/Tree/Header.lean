import TinyCortex.Tree.Forest

/-! The header of a tree. Bucket seals and ingested summaries move it up only. A document seal moves it
to the root of the document whatever stood there before, so it goes backwards when the document's own
subtree is lower than the tree; and a call that dies between its two transactions leaves a root above
the header behind. -/

namespace TinyCortex.SummaryTree

open Table

/-- `maxLevel` is the highest level of a live summary that the tree reaches, and `rootId` names one. -/
structure HeaderConsistent (db : Db) (tree : Tree) : Prop where
  bound : ∀ node ∈ db.nodes, db.Reaches tree.id node.id → node.deleted = false →
    node.level ≤ tree.maxLevel
  root : match tree.rootId with
    | none => tree.maxLevel = 0
    | some rootId => ∃ node ∈ db.nodes, node.id = rootId ∧ db.Reaches tree.id node.id ∧
        node.deleted = false ∧ node.level = tree.maxLevel

namespace Forest

def HeadersConsistent (w : Forest) : Prop :=
  ∀ treeId tree, w.db.getTree treeId = some tree → HeaderConsistent w.db tree

/-- No step takes a header down. -/
def NeverDecreases (config : TreeConfig) (w : Forest) (label : Label) : Prop :=
  ∀ treeId tree, w.db.getTree treeId = some tree →
    ∃ tree', (advance config w label).db.getTree treeId = some tree' ∧ tree.maxLevel ≤ tree'.maxLevel

/-- The height of the subtree over a document's chunks. -/
def documentHeight (config : TreeConfig) (doc : DocumentSeal) (db : Db) : Nat :=
  subtreeHeight (leafBatches config doc db).length (leafBatches config doc db).length

/-- A document that gets attached is at least as high as its tree, unless the call dies before it moves
the header: then it is at most as high. -/
def KeepsHeader (config : TreeConfig) (w : Forest) : Label → Prop
  | .document doc supply _ crash => (attaching config doc supply crash w.db).isSome →
      ∀ tree, w.db.getTree doc.treeId = some tree →
        if crash = some .beforeHeader then documentHeight config doc w.db ≤ tree.maxLevel
        else tree.maxLevel ≤ documentHeight config doc w.db
  | _ => True

instance (config : TreeConfig) (w : Forest) : ∀ label, Decidable (KeepsHeader config w label)
  | .document doc _ _ _ =>
      inferInstanceAs (Decidable (_ → ∀ tree ∈ w.db.getTree doc.treeId, _))
  | .append _ _ _ _ | .snapshot _ _ | .commit _ _ _ _ _ | .ingest _ _ _ | .persist _ => isTrue trivial

end Forest

section Trees

variable {db next : Db} {treeId : String} {tree : Tree}

theorem getTree_id (h : db.getTree treeId = some tree) : tree.id = treeId := (lookup_mem h).2

theorem getTree_updateTreeAfterSeal (target rootId : String) (maxLevel : Nat) (nowMs : Int) :
    (db.updateTreeAfterSeal target rootId maxLevel nowMs).getTree treeId =
      (db.getTree treeId).map fun t => if t.id == target then
        { t with rootId := some rootId, maxLevel := maxLevel, lastSealedAtMs := some nowMs } else t :=
  lookup_update fun _ => rfl

theorem getTree_refreshLastSealed (target : String) (nowMs : Int) :
    (db.refreshLastSealed target nowMs).getTree treeId =
      (db.getTree treeId).map fun t =>
        if t.id == target then { t with lastSealedAtMs := some nowMs } else t :=
  lookup_update fun _ => rfl

/-- The header keeps its root and level, or moves to `node`. -/
inductive HeaderStep (node : SummaryNode) (tree tree' : Tree) : Prop
  | keep (hid : tree'.id = tree.id) (hroot : tree'.rootId = tree.rootId)
      (hmax : tree'.maxLevel = tree.maxLevel)
      (hle : tree.id = node.treeId → node.level ≤ tree.maxLevel)
  | move (hid : tree'.id = tree.id) (htree : tree.id = node.treeId)
      (hroot : tree'.rootId = some node.id) (hmax : tree'.maxLevel = node.level)
      (hle : tree.maxLevel ≤ node.level)

/-- A consistent header stays so when it moves to a new node, or keeps its node and the new nodes are
no higher. -/
theorem HeaderConsistent.grow {added : List SummaryNode} {node : SummaryNode} {tree' : Tree}
    (h : HeaderConsistent db tree) (hstep : HeaderStep node tree tree')
    (hnodes : next.nodes = db.nodes ++ added)
    (hold : ∀ id, db.Reaches tree.id id → next.Reaches tree.id id)
    (hnew : ∀ other ∈ next.nodes, next.Reaches tree.id other.id →
      (other ∈ db.nodes ∧ db.Reaches tree.id other.id) ∨
        (tree.id = node.treeId ∧ other.level ≤ node.level))
    (hnode : tree.id = node.treeId → node ∈ next.nodes ∧ next.Reaches tree.id node.id ∧
      node.deleted = false) : HeaderConsistent next tree' := by
  cases hstep with
  | keep hid hroot hmax hle =>
      refine ⟨fun other hother hreach hlive => ?_, ?_⟩
      · rw [hid] at hreach
        rw [hmax]
        rcases hnew other hother hreach with ⟨hmem, hreach⟩ | ⟨htree, hlow⟩
        · exact h.bound other hmem hreach hlive
        · exact hlow.trans (hle htree)
      · have hbefore := h.root
        rw [hroot, hmax, hid]
        cases htop : tree.rootId with
        | none => rwa [htop] at hbefore
        | some rootId =>
            rw [htop] at hbefore
            obtain ⟨top, hmem, heq, hreach, hlive⟩ := hbefore
            exact ⟨top, hnodes ▸ List.mem_append_left _ hmem, heq, hold _ hreach, hlive⟩
  | move hid htree hroot hmax hle =>
      obtain ⟨hmem, hreach, hlive⟩ := hnode htree
      refine ⟨fun other hother hreach' hlive' => ?_, ?_⟩
      · rw [hid] at hreach'
        rw [hmax]
        rcases hnew other hother hreach' with ⟨hmem', hreach'⟩ | ⟨-, hlow⟩
        · exact (h.bound other hmem' hreach' hlive').trans hle
        · exact hlow
      · rw [hroot, hid]
        exact ⟨node, hmem, rfl, hreach, hlive, hmax.symm⟩

/-- The trees of a database, each before and after a step that may move headers to `node`. -/
def HeaderSteps (node : SummaryNode) (db next : Db) : Prop :=
  ∀ treeId, Option.Rel (HeaderStep node) (db.getTree treeId) (next.getTree treeId)

theorem headerStep_refresh {node : SummaryNode} (nowMs : Int)
    (hle : tree.id = node.treeId → node.level ≤ tree.maxLevel) :
    HeaderStep node tree
      (if tree.id == node.treeId then { tree with lastSealedAtMs := some nowMs } else tree) := by
  split_ifs
  · exact .keep rfl rfl rfl hle
  · exact .keep rfl rfl rfl hle

theorem headerStep_move (node : SummaryNode) (nowMs : Int)
    (hle : tree.id = node.treeId → tree.maxLevel ≤ node.level) :
    HeaderStep node tree
      (if tree.id == node.treeId then
        { tree with
          rootId := some node.id, maxLevel := node.level, lastSealedAtMs := some nowMs }
      else tree) := by
  split_ifs with h
  · have htree := beq_iff_eq.mp h
    exact .move rfl htree rfl rfl (hle htree)
  · exact .keep rfl rfl rfl fun htree => absurd (beq_iff_eq.mpr htree) h

theorem optionRel_map {α : Type*} {R : α → α → Prop} {x : Option α} {f : α → α}
    (h : ∀ a, x = some a → R a (f a)) : Option.Rel R x (x.map f) := by
  cases x with
  | none => exact .none
  | some a => exact .some (h a rfl)

theorem Committed.headerSteps {config : TreeConfig} {snapshot : Buffer} {node : SummaryNode}
    {nowMs : Int} {enqueueFollowUps : Bool} {followUp : Option Queue.SealPayload}
    (h : Committed config snapshot node nowMs enqueueFollowUps db next followUp)
    (hnode : node.treeId = snapshot.treeId) : HeaderSteps node db next := by
  obtain ⟨top, htop, -, htrees⟩ := h.header
  have hsame : ∀ {treeId tree}, db.getTree treeId = some tree → tree.id = node.treeId →
      tree = top := by
    intro treeId tree htree hid
    rw [← getTree_id htree, hid, hnode, htop] at htree
    exact (Option.some.inj htree).symm
  intro treeId
  have hget : next.getTree treeId = (raiseHeader top.maxLevel node nowMs db).getTree treeId := by
    rw [Db.getTree, htrees, ← Db.getTree]
  rw [hget, raiseHeader]
  split_ifs with hlow
  · rw [getTree_updateTreeAfterSeal]
    exact optionRel_map fun tree htree => headerStep_move _ nowMs fun hid => by
      rw [hsame htree hid]
      exact hlow.le
  · rw [getTree_refreshLastSealed]
    exact optionRel_map fun tree htree => headerStep_refresh nowMs fun hid => by
      rw [hsame htree hid]
      exact Nat.le_of_not_lt hlow

theorem Ingested.headerSteps {input : SummaryIngest} {summaryId : String} {nowMs : Int}
    (h : Ingested input (ingestedNode input summaryId nowMs) nowMs db next) :
    HeaderSteps (ingestedNode input summaryId nowMs) db next := by
  obtain ⟨top, htop, htrees⟩ := h.header
  have hsame : ∀ {treeId tree}, db.getTree treeId = some tree → tree.id = input.treeId →
      tree = top := by
    intro treeId tree htree hid
    rw [← getTree_id htree, hid, htop] at htree
    exact (Option.some.inj htree).symm
  intro treeId
  split_ifs at htrees with hlow
  · have hget : next.getTree treeId =
        (db.updateTreeAfterSeal input.treeId summaryId 1 nowMs).getTree treeId := by
      rw [Db.getTree, htrees, ← Db.getTree]
      rfl
    rw [hget, getTree_updateTreeAfterSeal]
    exact optionRel_map fun tree htree =>
      headerStep_move (ingestedNode input summaryId nowMs) nowMs fun hid => by
        rw [hsame htree hid]
        exact hlow.le
  · have hget : next.getTree treeId = db.getTree treeId := by rw [Db.getTree, htrees, ← Db.getTree]
    rw [hget]
    cases htree : db.getTree treeId with
    | none => exact .none
    | some tree =>
        refine .some (.keep rfl rfl rfl fun hid => ?_)
        rw [hsame htree hid]
        exact Nat.le_of_not_lt hlow

theorem Attached.headerSteps {config : TreeConfig} {doc : DocumentSeal}
    {supply : List (Option Minted)} {nowMs : Int} {crash : Option Crash} {added : List SummaryNode}
    {root : SummaryNode} (h : Attached config doc supply nowMs crash db added root next)
    (hkeeps : ∀ tree, db.getTree doc.treeId = some tree →
      if crash = some .beforeHeader then root.level ≤ tree.maxLevel else tree.maxLevel ≤ root.level)
    (hroot : ∀ tree, db.getTree doc.treeId = some tree → tree.rootId ≠ some root.id) :
    HeaderSteps root db next := by
  obtain ⟨top, htop, htrees⟩ := h.header
  have howned := (h.owned root h.built.mem).treeId
  have hsame : ∀ {treeId tree}, db.getTree treeId = some tree → tree.id = root.treeId →
      tree = top := by
    intro treeId tree htree hid
    rw [← getTree_id htree, hid, howned, htop] at htree
    exact (Option.some.inj htree).symm
  have hle := hkeeps top htop
  intro treeId
  split_ifs at htrees hle with hcrash
  · have hget : next.getTree treeId = db.getTree treeId := by rw [Db.getTree, htrees, ← Db.getTree]
    rw [hget]
    cases htree : db.getTree treeId with
    | none => exact .none
    | some tree =>
        refine .some (.keep rfl rfl rfl fun hid => ?_)
        rw [hsame htree hid]
        exact hle
  · rw [moveHeader, if_pos (Or.inl (hroot top htop)), getTree_id htop, ← howned] at htrees
    have hget : next.getTree treeId =
        (db.updateTreeAfterSeal root.treeId root.id root.level nowMs).getTree treeId := by
      rw [Db.getTree, htrees, ← Db.getTree]
    rw [hget, getTree_updateTreeAfterSeal]
    exact optionRel_map fun tree htree => headerStep_move _ nowMs fun hid => by
      rw [hsame htree hid]
      exact hle

/-- A step that moves no header and makes nothing else reachable keeps headers consistent. -/
theorem HeaderConsistent.frame {added : List SummaryNode} (h : HeaderConsistent db tree)
    (hclosed : db.Closed) (hnodes : next.nodes = db.nodes ++ added)
    (hfresh : ∀ node ∈ added, node.id ∉ db.nodeIds)
    (hreaches : ∀ id, next.Reaches tree.id id ↔ db.Reaches tree.id id) :
    HeaderConsistent next tree := by
  refine ⟨fun other hother hreach hlive => ?_, ?_⟩
  · rw [hreaches] at hreach
    rw [hnodes] at hother
    rcases List.mem_append.mp hother with hold | hnew
    · exact h.bound other hold hreach hlive
    · exact absurd (hclosed.mem_of_reaches hreach) (hfresh other hnew)
  · have hbefore := h.root
    cases htop : tree.rootId with
    | none => rwa [htop] at hbefore
    | some rootId =>
        rw [htop] at hbefore
        obtain ⟨top, hmem, heq, hreach, hlive⟩ := hbefore
        exact ⟨top, hnodes ▸ List.mem_append_left _ hmem, heq, (hreaches _).mpr hreach, hlive⟩

end Trees

namespace Forest

variable {config : TreeConfig} {w next : Forest} {label : Label}

/-- The headers after a step are consistent and none went down. -/
def HeadersKept (w next : Forest) : Prop :=
  HeadersConsistent next ∧ ∀ treeId tree, w.db.getTree treeId = some tree →
    ∃ tree', next.db.getTree treeId = some tree' ∧ tree.maxLevel ≤ tree'.maxLevel

theorem headersKept_of_steps {node : SummaryNode} (hsteps : HeaderSteps node w.db next.db)
    (h : ∀ treeId tree tree', w.db.getTree treeId = some tree → HeaderStep node tree tree' →
      HeaderConsistent next.db tree') : HeadersKept w next := by
  refine ⟨fun treeId tree' htree' => ?_, fun treeId tree htree => ?_⟩
  · have hrel := hsteps treeId
    rw [htree'] at hrel
    cases htree : w.db.getTree treeId with
    | none =>
        rw [htree] at hrel
        cases hrel
    | some tree =>
        rw [htree] at hrel
        cases hrel with
        | some hstep => exact h treeId tree tree' htree hstep
  · have hrel := hsteps treeId
    rw [htree] at hrel
    cases htree' : next.db.getTree treeId with
    | none =>
        rw [htree'] at hrel
        cases hrel
    | some tree' =>
        rw [htree'] at hrel
        cases hrel with
        | some hstep =>
            refine ⟨tree', rfl, ?_⟩
            cases hstep with
            | keep _ _ hmax _ => exact hmax.ge
            | move _ _ _ hmax hle => exact hmax ▸ hle

theorem headersKept_of_frame {added : List SummaryNode} (hsound : Sound w)
    (hconsistent : HeadersConsistent w) (htrees : next.db.trees = w.db.trees)
    (hnodes : next.db.nodes = w.db.nodes ++ added) (hfresh : ∀ node ∈ added, node.id ∉ w.db.nodeIds)
    (hreaches : ∀ treeId id, next.db.Reaches treeId id ↔ w.db.Reaches treeId id) :
    HeadersKept w next := by
  have hget : ∀ treeId, next.db.getTree treeId = w.db.getTree treeId := by
    intro treeId
    rw [Db.getTree, htrees, ← Db.getTree]
  refine ⟨fun treeId tree htree => ?_, fun treeId tree htree => ⟨tree, hget treeId ▸ htree, le_rfl⟩⟩
  exact (hconsistent treeId tree (hget treeId ▸ htree)).frame hsound.closed hnodes hfresh
    (hreaches tree.id)

theorem Quiet.reaches_iff (h : Quiet w next) {treeId id : String} :
    next.db.Reaches treeId id ↔ w.db.Reaches treeId id := by
  have hnil : next.db.nodes = w.db.nodes ++ [] := h.nodes.trans (List.append_nil _).symm
  have hback : w.db.nodes = next.db.nodes ++ [] := h.nodes.symm.trans (List.append_nil _).symm
  constructor
  · exact Db.Reaches.grow hback fun level hpos other hmem =>
      .buffered hpos (h.buffered treeId level hpos ▸ hmem)
  · exact Db.Reaches.grow hnil fun level hpos other hmem =>
      .buffered hpos ((h.buffered treeId level hpos).symm ▸ hmem)

/-- The root of an attached document stands at the height its chunks give it. -/
theorem attached_height {doc : DocumentSeal} {supply : List (Option Minted)} {nowMs : Int}
    {crash : Option Crash} {db db' : Db} {added : List SummaryNode} {root : SummaryNode}
    (h : Attached config doc supply nowMs crash db added root db') :
    root.level = documentHeight config doc db := h.built.height.trans (Nat.zero_add _)

/-- No tree has a fresh node for its root yet. -/
theorem rootId_ne (hconsistent : HeadersConsistent w) {treeId id : String} {tree : Tree}
    (htree : w.db.getTree treeId = some tree) (hfresh : id ∉ w.db.nodeIds) :
    tree.rootId ≠ some id := by
  intro heq
  have hroot := (hconsistent treeId tree htree).root
  rw [heq] at hroot
  obtain ⟨top, hmem, rfl, -⟩ := hroot
  exact hfresh (List.mem_map_of_mem hmem)

theorem headers_step (hsound : Sound w) (hmints : Mints w label) (hconsistent : HeadersConsistent w)
    (hkeeps : KeepsHeader config w label) (hstep : Step config w label next) :
    HeadersKept w next := by
  cases hstep with
  | quiet hquiet _ =>
      exact headersKept_of_frame hsound hconsistent hquiet.trees
        (hquiet.nodes.trans (List.append_nil _).symm) (fun _ hmem => absurd hmem List.not_mem_nil)
        fun treeId id => hquiet.reaches_iff
  | @commit i run summaryId tokenCount nowMs _ next followUp hrun hcommit hseals _ =>
      let node := sealedNode run.snapshot run.inputs summaryId tokenCount nowMs
      have hnodes := hcommit.nodes hmints
      have hreaches : ∀ {treeId id}, next.db.Reaches treeId id ↔
          w.db.Reaches treeId id ∨ treeId = run.snapshot.treeId ∧ id = node.id :=
        hcommit.reaches_iff hsound.closed hmints rfl
          (hsound.sealedNode_childIds hrun summaryId tokenCount nowMs)
      refine headersKept_of_steps (hcommit.headerSteps rfl) fun treeId tree tree' htree hstep => ?_
      refine (hconsistent treeId tree htree).grow hstep hnodes
        (fun id hreach => hreaches.mpr (Or.inl hreach)) ?_ ?_
      · intro other hother hreach
        rw [hnodes] at hother
        rcases hreaches.mp hreach with hold | ⟨htreeId, hid⟩
        · refine Or.inl ⟨(List.mem_append.mp hother).resolve_right fun hnew => ?_, hold⟩
          rw [List.mem_singleton.mp hnew] at hold
          exact hmints (hsound.closed.mem_of_reaches hold)
        · rcases List.mem_append.mp hother with hmem | hnew
          · have hid' : other.id = summaryId := hid
            exact absurd (hid' ▸ List.mem_map_of_mem hmem : summaryId ∈ w.db.nodeIds) hmints
          · rw [List.mem_singleton.mp hnew]
            exact Or.inr ⟨htreeId, le_rfl⟩
      · intro htreeId
        exact ⟨hnodes ▸ List.mem_append_right _ List.mem_cons_self,
          hreaches.mpr (Or.inr ⟨htreeId, rfl⟩), rfl⟩
  | @ingest input summaryId nowMs db hingest =>
      let node := ingestedNode input summaryId nowMs
      have hreaches : ∀ {treeId id}, db.Reaches treeId id ↔
          w.db.Reaches treeId id ∨ treeId = input.treeId ∧ id = node.id :=
        hingest.reaches_iff hsound.closed hmints rfl
      refine headersKept_of_steps hingest.headerSteps fun treeId tree tree' htree hstep => ?_
      refine (hconsistent treeId tree htree).grow hstep hingest.nodes
        (fun id hreach => hreaches.mpr (Or.inl hreach)) ?_ ?_
      · intro other hother hreach
        have hother' : other ∈ w.db.nodes ++ [node] := hingest.nodes ▸ hother
        rcases hreaches.mp hreach with hold | ⟨htreeId, hid⟩
        · refine Or.inl ⟨(List.mem_append.mp hother').resolve_right fun hnew => ?_, hold⟩
          rw [List.mem_singleton.mp hnew] at hold
          exact hmints (hsound.closed.mem_of_reaches hold)
        · rcases List.mem_append.mp hother' with hmem | hnew
          · have hid' : other.id = summaryId := hid
            exact absurd (hid' ▸ List.mem_map_of_mem hmem : summaryId ∈ w.db.nodeIds) hmints
          · rw [List.mem_singleton.mp hnew]
            exact Or.inr ⟨htreeId, le_rfl⟩
      · intro htreeId
        have hmem : node ∈ db.nodes := hingest.nodes ▸ List.mem_append_right _ List.mem_cons_self
        exact ⟨hmem, hreaches.mpr (Or.inr ⟨htreeId, rfl⟩), rfl⟩
  | @built doc supply nowMs crash db added _ hgrown _ =>
      exact headersKept_of_frame hsound hconsistent hgrown.trees hgrown.nodes (hgrown.fresh hmints)
        fun treeId id => hgrown.reaches_iff hsound.closed hmints
  | @attached doc supply nowMs crash db added root next hroot hattached hbase _ =>
      have hdb : next.db = db := congrArg World.db hbase
      have hfresh := hattached.fresh hmints
      have howned := (hattached.owned root hattached.built.mem)
      have hlevels : ∀ tree, w.db.getTree doc.treeId = some tree →
          if crash = some .beforeHeader then root.level ≤ tree.maxLevel
          else tree.maxLevel ≤ root.level := by
        rw [attached_height hattached]
        exact hkeeps (hroot ▸ rfl)
      refine headersKept_of_steps (hdb ▸ hattached.headerSteps hlevels fun tree htree =>
        rootId_ne hconsistent htree (hfresh root hattached.built.mem)) ?_
      rw [hdb]
      intro treeId tree tree' htree hstep
      refine (hconsistent treeId tree htree).grow hstep hattached.nodes
        (fun id hreach => hattached.reaches_of_old hreach) ?_ ?_
      · intro other hother hreach
        rw [hattached.nodes] at hother
        rcases hattached.reaches_cases hsound.closed hmints hreach with hold | ⟨htreeId, hid⟩
        · refine Or.inl ⟨(List.mem_append.mp hother).resolve_right fun hnew => ?_, hold⟩
          exact hfresh other hnew (hsound.closed.mem_of_reaches hold)
        · rcases List.mem_append.mp hother with hmem | hnew
          · obtain ⟨part, hpart, heq⟩ := List.mem_map.mp hid
            exact absurd (heq ▸ List.mem_map_of_mem hmem : part.id ∈ w.db.nodeIds)
              (hfresh part hpart)
          · exact Or.inr ⟨htreeId.trans howned.treeId.symm, hattached.built.top other hnew⟩
      · intro htreeId
        refine ⟨hattached.nodes ▸ List.mem_append_right _ hattached.built.mem, ?_, howned.deleted⟩
        rw [htreeId, howned.treeId]
        exact hattached.reaches_root

/-- A document attached below the header takes it down; one that dies above it leaves it behind. -/
theorem headers_broken (hmints : Mints w label) (hconsistent : HeadersConsistent w) (hbad : ¬KeepsHeader config w label)
    (hstep : Step config w label next) : ¬HeadersKept w next := by
  cases hstep with
  | quiet _ hlabel =>
      refine absurd ?_ hbad
      cases label with
      | document doc supply nowMs crash => exact absurd rfl (hlabel doc supply nowMs crash)
      | append | snapshot | commit | ingest | persist => exact trivial
  | commit | ingest => exact absurd trivial hbad
  | built hnone _ _ =>
      refine absurd (fun hsome => ?_) hbad
      rw [hnone] at hsome
      cases hsome
  | @attached doc supply nowMs crash db added root next hroot hattached hbase _ =>
      have hdb : next.db = db := congrArg World.db hbase
      have hheight := attached_height hattached
      have hfresh := hattached.fresh hmints
      simp only [KeepsHeader, ← hheight] at hbad
      push Not at hbad
      obtain ⟨-, tree, htree, hlevel⟩ := hbad
      rintro ⟨hafter, hup⟩
      obtain ⟨tree', htree', hle⟩ := hup doc.treeId tree htree
      rw [hdb] at htree'
      obtain ⟨top, htop, htrees⟩ := hattached.header
      obtain rfl := Option.some.inj (htree.symm.trans htop)
      split_ifs at hlevel htrees with hcrash
      · have hsame : db.getTree doc.treeId = some tree := by rw [Db.getTree, htrees, ← Db.getTree, htree]
        have hbound := (hafter doc.treeId tree (hdb.symm ▸ hsame)).bound root ?_ ?_ ?_
        · exact hlevel hbound
        · rw [hdb, hattached.nodes]
          exact List.mem_append_right _ hattached.built.mem
        · rw [hdb, getTree_id htree]
          exact hattached.reaches_root
        · exact (hattached.owned root hattached.built.mem).deleted
      · have hmoved : moveHeader tree root nowMs w.db =
            w.db.updateTreeAfterSeal tree.id root.id root.level nowMs :=
          if_pos (Or.inl (rootId_ne hconsistent htree (hfresh root hattached.built.mem)))
        rw [hmoved] at htrees
        have hget : db.getTree doc.treeId =
            (w.db.updateTreeAfterSeal tree.id root.id root.level nowMs).getTree doc.treeId := by
          rw [Db.getTree, htrees, ← Db.getTree]
        rw [hget, getTree_updateTreeAfterSeal, htree, Option.map_some, if_pos (beq_self_eq_true _)]
          at htree'
        obtain rfl := Option.some.inj htree'
        exact hlevel hle

theorem headersConsistent_empty (trees : List (String × TreeKind × String)) :
    HeadersConsistent (Forest.empty trees) := by
  intro treeId tree htree
  obtain ⟨entry, -, rfl⟩ := List.mem_map.mp (lookup_mem htree).1
  exact ⟨fun node hnode => absurd hnode List.not_mem_nil, rfl⟩

/-- In every run the headers stay consistent and never go down exactly when every document that gets
attached is at least as high as its tree, or at most as high when its call dies before the header
moves. -/
theorem headers_run_iff (config : TreeConfig) (trees : List (String × TreeKind × String))
    (labels : List Label) (hmints : (growing config trees).AllSteps Mints labels) :
    ((growing config trees).Throughout HeadersConsistent labels ∧
      (growing config trees).AllSteps (NeverDecreases config) labels) ↔
    (growing config trees).AllSteps (KeepsHeader config) labels := by
  have hkept : (growing config trees).AllSteps
      (fun w label => HeadersKept w (advance config w label)) labels ↔
      (growing config trees).AllSteps (KeepsHeader config) labels := by
    refine (growing config trees).allSteps_iff_of_guard (fun w => Sound w ∧ HeadersConsistent w)
      ⟨sound_empty trees, headersConsistent_empty trees⟩ ?_ ?_ hmints
    · rintro w label ⟨hsound, hconsistent⟩ hlegal hkeeps
      have h := headers_step hsound hlegal hconsistent hkeeps (advance_step config hsound hlegal)
      exact ⟨⟨sound_advance hsound hlegal, h.1⟩, h⟩
    · rintro w label ⟨hsound, hconsistent⟩ hlegal hbad
      exact headers_broken hlegal hconsistent hbad (advance_step config hsound hlegal)
  rw [← hkept, (growing config trees).throughout_iff_allSteps]
  constructor
  · rintro ⟨⟨-, hconsistent⟩, hup⟩ done label rest heq
    exact ⟨hconsistent done label rest heq, hup done label rest heq⟩
  · intro h
    exact ⟨⟨headersConsistent_empty trees, fun done label rest heq => (h done label rest heq).1⟩,
      fun done label rest heq => (h done label rest heq).2⟩

/-- One tree, sealed at two siblings. -/
def oneTree : Machine Forest Label := growing ⟨10, 10, 2⟩ [("tree-1", .source, "scope")]

def chunk (id : String) : Chunks.Chunk := ⟨id, .document, "doc-1", none, 0, 0, 0, 10, 0, .admitted⟩

/-- Two ingested summaries seal into one at level 2, and a document of one chunk follows. -/
def documentBelowHeader : List Label :=
  [.persist (chunk "chunk-1"), .ingest ⟨"tree-1", 5, 0, 0, []⟩ "summary-1" 1,
    .ingest ⟨"tree-1", 5, 0, 0, []⟩ "summary-2" 2, .snapshot "tree-1" 1,
    .commit 0 "summary-3" 5 3 false,
    .document ⟨"tree-1", "doc-1", some 1, ["chunk-1"]⟩ [some ⟨"summary-4", 5, 4⟩] 4 none]

/-- The same document sealed on a tree that is no higher. -/
def documentAtHeader : List Label :=
  [.persist (chunk "chunk-1"), .ingest ⟨"tree-1", 5, 0, 0, []⟩ "summary-1" 1,
    .document ⟨"tree-1", "doc-1", some 1, ["chunk-1"]⟩ [some ⟨"summary-4", 5, 4⟩] 4 none]

theorem headers_run_documentAtHeader :
    oneTree.Throughout HeadersConsistent documentAtHeader ∧
      oneTree.AllSteps (NeverDecreases ⟨10, 10, 2⟩) documentAtHeader := by
  refine (headers_run_iff _ _ documentAtHeader (Machine.allSteps_iff_stepsFrom _ |>.mpr ?_)).mpr
    (Machine.allSteps_iff_stepsFrom _ |>.mpr ?_)
  · decide
  · decide

/-- The document takes the header from level 2 down to level 1. -/
theorem documentBelowHeader_decreases :
    ¬∀ config trees labels, (growing config trees).AllSteps Mints labels →
      (growing config trees).Throughout HeadersConsistent labels ∧
        (growing config trees).AllSteps (NeverDecreases config) labels := by
  intro hall
  have hmints : oneTree.AllSteps Mints documentBelowHeader :=
    oneTree.allSteps_iff_stepsFrom.mpr (by decide)
  obtain ⟨-, hup⟩ := hall _ _ documentBelowHeader hmints
  obtain ⟨tree, htree, hle⟩ := hup (documentBelowHeader.take 5) _ [] rfl "tree-1" _ rfl
  obtain rfl := Option.some.inj htree
  exact absurd hle (by decide)

end Forest

end TinyCortex.SummaryTree
