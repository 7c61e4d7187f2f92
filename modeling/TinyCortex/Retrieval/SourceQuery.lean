import TinyCortex.Retrieval.Types
import TinyCortex.Tree.Header

/-! The summaries that `query_source` gathers (`retrieval/source.rs`), before they are ordered and limited.
Without a window the levels are those up to the header's; with a window the time range decides. Embeddings are
left out; how a text is lowercased comes from outside. -/

namespace TinyCortex.SummaryTree

/-- Nothing is sealed into the tree, as its header has it. -/
def Tree.Unsealed (tree : Tree) : Prop := tree.maxLevel = 0 ∧ tree.rootId = none

instance (tree : Tree) : Decidable tree.Unsealed := inferInstanceAs (Decidable (_ ∧ _))

/-- No summary of the tree is above the level. -/
def Db.Tops (db : Db) (treeId : String) (level : Nat) : Prop :=
  ∀ node ∈ db.nodes, node.treeId = treeId → node.level ≤ level

instance (db : Db) (treeId : String) (level : Nat) : Decidable (db.Tops treeId level) :=
  inferInstanceAs (Decidable (∀ node ∈ db.nodes, _))

end TinyCortex.SummaryTree

namespace TinyCortex.Retrieval

open Chunks SummaryTree Table

section Select

variable (toLowercase : String → String)

/-- The platforms and the kinds of their sources. -/
def platformKinds : List (String × String) :=
  [("slack", "chat"), ("discord", "chat"), ("telegram", "chat"), ("whatsapp", "chat"), ("irc", "chat"),
    ("matrix", "chat"), ("mattermost", "chat"), ("lark", "chat"), ("signal", "chat"), ("imessage", "chat"),
    ("teams", "chat"),
    ("gmail", "email"), ("imap", "email"), ("outlook", "email"), ("fastmail", "email"),
    ("protonmail", "email"),
    ("notion", "document"), ("linear", "document"), ("drive", "document"), ("googledoc", "document"),
    ("doc", "document"), ("dropbox", "document"), ("confluence", "document")]

def scopeMatchesKind (scope kindPrefix : String) : Bool :=
  let startsWith := fun start : String => start.toList.isPrefixOf (toLowercase scope).toList
  startsWith (kindPrefix ++ ":") ||
    (kindPrefix == SourceKind.document.asStr && startsWith "mem_src:") ||
    platformKinds.any fun (platform, kind) => kind == kindPrefix && startsWith (platform ++ ":")

def selectTrees (db : Db) (sourceId : Option String) (sourceKind : Option SourceKind) : List Tree :=
  match sourceId with
  | some id => (getTreeByScope db .source id).toList
  | none =>
      let all := db.trees.filter fun tree => tree.kind == .source
      match sourceKind with
      | some kind => all.filter fun tree => scopeMatchesKind toLowercase tree.scope kind.asStr
      | none => all

def listSummariesAtLevel (db : Db) (treeId : String) (level : Nat) : List SummaryNode :=
  (db.summaries.filter fun s => s.treeId == treeId && s.level == level && !s.deleted).mergeSort
    fun a b => decide (a.sealedAtMs ≤ b.sealedAtMs)

def listSummariesOverlappingWindow (db : Db) (treeId : String) (sinceMs untilMs : Int) : List SummaryNode :=
  (db.summaries.filter fun s => s.treeId == treeId && !s.deleted && decide (1 ≤ s.level) &&
      decide (sinceMs ≤ s.timeRangeEndMs) && decide (s.timeRangeStartMs ≤ untilMs)).mergeSort
    fun a b => decide (a.level < b.level) ||
      (a.level == b.level && decide (a.timeRangeStartMs ≤ b.timeRangeStartMs))

/-- The summaries of one tree that are gathered. -/
def treeSummaries (db : Db) (tree : Tree) (windowMs : Option (Int × Int)) : List SummaryNode :=
  if tree.Unsealed then []
  else
    match windowMs with
    | some (sinceMs, untilMs) =>
        (listSummariesOverlappingWindow db tree.id sinceMs untilMs).filter fun node => !node.deleted
    | none =>
        (List.range' 1 tree.maxLevel).flatMap fun level =>
          (listSummariesAtLevel db tree.id level).filter fun node => !node.deleted

def collectSourceHits (db : Db) (sourceId : Option String) (sourceKind : Option SourceKind)
    (windowMs : Option (Int × Int)) : List RetrievalHit :=
  (selectTrees toLowercase db sourceId sourceKind).flatMap fun tree =>
    (treeSummaries db tree windowMs).map fun node => hitFromSummary node tree.scope

/-- What is gathered for a window is gathered, or is below something that is gathered, without one. -/
def Restricts (db : Db) : Prop :=
  ∀ sourceId sourceKind sinceMs untilMs,
    ∀ hit ∈ collectSourceHits toLowercase db sourceId sourceKind (some (sinceMs, untilMs)),
      ∃ top ∈ collectSourceHits toLowercase db sourceId sourceKind none,
        ∃ depth, hit.nodeId ∈ db.descend depth top.nodeId

end Select

theorem selectTrees_source {toLowercase : String → String} {db : Db} {sourceId : Option String}
    {sourceKind : Option SourceKind} {tree : Tree} (h : tree ∈ selectTrees toLowercase db sourceId sourceKind) :
    tree ∈ db.trees ∧ tree.kind = .source := by
  cases sourceId with
  | some id =>
      obtain ⟨hmem, hkind, -⟩ := getTreeByScope_some (Option.mem_toList.mp h)
      exact ⟨hmem, hkind⟩
  | none =>
      have hall : ∀ tree ∈ db.trees.filter fun tree => tree.kind == .source,
          tree ∈ db.trees ∧ tree.kind = .source := by
        intro tree htree
        obtain ⟨hmem, hkind⟩ := List.mem_filter.mp htree
        exact ⟨hmem, beq_iff_eq.mp hkind⟩
      cases sourceKind with
      | none => exact hall tree h
      | some kind => exact hall tree (List.mem_of_mem_filter h)

theorem mem_treeSummaries_window {db : Db} {tree : Tree} {sinceMs untilMs : Int} {node : SummaryNode} :
    node ∈ treeSummaries db tree (some (sinceMs, untilMs)) ↔
      ¬tree.Unsealed ∧ node ∈ db.summaries ∧ node.treeId = tree.id ∧ node.deleted = false ∧ 1 ≤ node.level ∧
        sinceMs ≤ node.timeRangeEndMs ∧ node.timeRangeStartMs ≤ untilMs := by
  rw [treeSummaries]
  split_ifs with hunsealed
  · exact iff_of_false List.not_mem_nil fun h => h.1 hunsealed
  · show node ∈ List.filter _ (List.mergeSort (List.filter _ db.summaries) _) ↔ _
    rw [List.mem_filter, List.mem_mergeSort, List.mem_filter]
    simp only [Bool.and_eq_true, beq_iff_eq, Bool.not_eq_true', decide_eq_true_eq]
    tauto

theorem mem_treeSummaries {db : Db} {tree : Tree} {node : SummaryNode} :
    node ∈ treeSummaries db tree none ↔ ¬tree.Unsealed ∧ node ∈ db.summaries ∧ node.treeId = tree.id ∧
      node.deleted = false ∧ 1 ≤ node.level ∧ node.level ≤ tree.maxLevel := by
  rw [treeSummaries]
  split_ifs with hunsealed
  · exact iff_of_false List.not_mem_nil fun h => h.1 hunsealed
  · rw [List.mem_flatMap]
    constructor
    · intro h
      obtain ⟨level, hlevel, hnode⟩ := h
      have hlist := List.mem_mergeSort.mp (List.mem_of_mem_filter hnode)
      obtain ⟨hmem, hwhere⟩ := List.mem_filter.mp hlist
      simp only [Bool.and_eq_true, beq_iff_eq, Bool.not_eq_true'] at hwhere
      have hrange := List.mem_range'_1.mp hlevel
      obtain ⟨⟨htree, rfl⟩, hlive⟩ := hwhere
      exact ⟨hunsealed, hmem, htree, hlive, hrange.1, by omega⟩
    · intro h
      obtain ⟨-, hmem, htree, hlive, hlow, hhigh⟩ := h
      refine ⟨node.level, List.mem_range'_1.mpr ⟨hlow, by omega⟩, List.mem_filter.mpr ⟨?_, ?_⟩⟩
      · refine List.mem_mergeSort.mpr (List.mem_filter.mpr ⟨hmem, ?_⟩)
        simp only [Bool.and_eq_true, beq_iff_eq, Bool.not_eq_true']
        exact ⟨⟨htree, trivial⟩, hlive⟩
      · rw [hlive]
        rfl

/-- The header of each source tree that something is sealed into is as high as its summaries. -/
def Headed (db : Db) : Prop :=
  ∀ treeId tree, db.getTree treeId = some tree → tree.kind = .source →
    tree.Unsealed ∨ db.Tops treeId tree.maxLevel

theorem Headed.restricts {db : Db} (h : Headed db) (hids : (db.trees.map Tree.id).Nodup)
    (toLowercase : String → String) : Restricts toLowercase db := by
  intro sourceId sourceKind sinceMs untilMs hit hhit
  obtain ⟨tree, htree, hhit⟩ := List.mem_flatMap.mp hhit
  obtain ⟨node, hnode, rfl⟩ := List.mem_map.mp hhit
  obtain ⟨hsealed, hmem, hid, hlive, hlow, -, -⟩ := mem_treeSummaries_window.mp hnode
  obtain ⟨hrow, hkind⟩ := selectTrees_source htree
  have htops := (h tree.id tree (lookup_of_mem hids hrow) hkind).resolve_left hsealed
  have hhigh := htops node.bare (List.mem_map_of_mem hmem) hid
  refine ⟨_, List.mem_flatMap.mpr ⟨tree, htree, List.mem_map_of_mem
    (mem_treeSummaries.mpr ⟨hsealed, hmem, hid, hlive, hlow, hhigh⟩)⟩, 0, ?_⟩
  exact List.mem_singleton_self _

end TinyCortex.Retrieval

/-! Windowed source retrieval over runs of a forest. A document seal that moves the header below another
summary, or that ends above the header before it gets to move it, leaves summaries that only a window finds;
so does the first seal of a tree below what such a call left there. -/

namespace TinyCortex.SummaryTree.Forest

open Retrieval Table

/-- The steps after which a header is as high as the summaries of its source tree. -/
def KeepsTop (config : TreeConfig) (w : Forest) : Label → Prop
  | .commit i summaryId tokenCount nowMs enqueueFollowUps =>
      ∀ run ∈ w.base.seals[i]?, run.phase = .summarising →
        (commitSeal config run.snapshot (sealedNode run.snapshot run.inputs summaryId tokenCount nowMs) nowMs
          enqueueFollowUps w.db).toBool →
        ∀ tree ∈ w.db.getTree run.snapshot.treeId, tree.kind = .source → tree.Unsealed →
          w.db.Tops run.snapshot.treeId (run.snapshot.level + 1)
  | .ingest input _ _ =>
      ∀ tree ∈ w.db.getTree input.treeId, tree.kind = .source → tree.Unsealed → w.db.Tops input.treeId 1
  | .document doc supply _ crash =>
      ∀ tree ∈ w.db.getTree doc.treeId, tree.kind = .source →
        if (attaching config doc supply crash w.db).isSome ∧ crash ≠ some .beforeHeader then
          w.db.Tops doc.treeId (documentHeight config doc w.db)
        else tree.Unsealed ∨ (buildSubtree config doc supply w.db).1.Tops doc.treeId tree.maxLevel
  | _ => True

/-- Each tree after a step was there before, with the same kind; only the target's header moved. -/
def HeadersBut (target : String) (db next : Db) : Prop :=
  ∀ treeId tree', next.getTree treeId = some tree' → ∃ tree, db.getTree treeId = some tree ∧
    tree'.kind = tree.kind ∧
      (treeId ≠ target → tree'.rootId = tree.rootId ∧ tree'.maxLevel = tree.maxLevel)

theorem headersBut_of_trees {target : String} {db next : Db} (h : next.trees = db.trees) :
    HeadersBut target db next := by
  intro treeId tree' htree
  rw [Db.getTree, h, ← Db.getTree] at htree
  exact ⟨tree', htree, rfl, fun _ => ⟨rfl, rfl⟩⟩

theorem headersBut_of_update {target : String} {db next : Db} {f : Tree → Tree}
    (hid : ∀ tree, (f tree).id = tree.id) (hkind : ∀ tree, (f tree).kind = tree.kind)
    (h : next.trees = update (·.id == target) f db.trees) : HeadersBut target db next := by
  intro treeId tree' htree
  rw [Db.getTree, h, lookup_update hid] at htree
  obtain ⟨tree, hfound, rfl⟩ := Option.map_eq_some_iff.mp htree
  refine ⟨tree, hfound, ?_, fun hne => ?_⟩
  · split_ifs
    · exact hkind tree
    · rfl
  · rw [if_neg]
    · exact ⟨rfl, rfl⟩
    · rw [getTree_id hfound]
      exact fun heq => hne (beq_iff_eq.mp heq)

/-- A step that adds summaries to one tree keeps headers on top when it does so for that tree. -/
theorem headed_of_target {target : String} {db next : Db} {added : List SummaryNode} (h : Headed db)
    (hnodes : next.nodes = db.nodes ++ added) (hadded : ∀ node ∈ added, node.treeId = target)
    (hheaders : HeadersBut target db next)
    (htarget : ∀ tree', next.getTree target = some tree' → tree'.kind = .source →
      tree'.Unsealed ∨ next.Tops target tree'.maxLevel) : Headed next := by
  intro treeId tree' htree' hkind
  by_cases htree : treeId = target
  · subst htree
    exact htarget tree' htree' hkind
  obtain ⟨tree, hfound, hsame, hheader⟩ := hheaders treeId tree' htree'
  obtain ⟨hroot, hmax⟩ := hheader htree
  rw [Tree.Unsealed, hroot, hmax]
  refine (h treeId tree hfound (hsame ▸ hkind)).imp_right fun htops node hnode hid => ?_
  rw [hnodes] at hnode
  rcases List.mem_append.mp hnode with hold | hnew
  · exact htops node hold hid
  · exact absurd (hid.symm.trans (hadded node hnew)) htree

theorem tops_append {db next : Db} {added : List SummaryNode} {treeId : String} {level : Nat}
    (hnodes : next.nodes = db.nodes ++ added) (hold : db.Tops treeId level)
    (hnew : ∀ node ∈ added, node.level ≤ level) : next.Tops treeId level := by
  intro node hnode hid
  rw [hnodes] at hnode
  exact (List.mem_append.mp hnode).elim (fun h => hold node h hid) (hnew node)

/-- A node is added to a tree whose header rises to it if it stands lower. -/
theorem headed_of_raise {db next : Db} {node : SummaryNode} {f : Tree → Tree} {top : Tree} (h : Headed db)
    (hnodes : next.nodes = db.nodes ++ [node]) (htop : db.getTree node.treeId = some top)
    (hid : ∀ tree, (f tree).id = tree.id) (hkind : ∀ tree, (f tree).kind = tree.kind)
    (htrees : next.trees = update (·.id == node.treeId) f db.trees)
    (hmax : (f top).maxLevel = max top.maxLevel node.level)
    (hkeeps : top.kind = .source → top.Unsealed → db.Tops node.treeId node.level) : Headed next := by
  refine headed_of_target h hnodes (fun other hother => by rw [List.mem_singleton.mp hother])
    (headersBut_of_update hid hkind htrees) fun tree' htree' hsource => Or.inr ?_
  rw [Db.getTree, htrees, lookup_update hid, ← Db.getTree, htop, Option.map_some,
    if_pos (beq_iff_eq.mpr (getTree_id htop))] at htree'
  obtain rfl := Option.some.inj htree'
  rw [hkind] at hsource
  rw [hmax]
  refine tops_append hnodes (fun other hother hother' => ?_) fun other hother => ?_
  · by_cases hunsealed : top.Unsealed
    · exact (hkeeps hsource hunsealed other hother hother').trans (le_max_right _ _)
    · have hbound := (h node.treeId top htop hsource).resolve_left hunsealed
      exact (hbound other hother hother').trans (le_max_left _ _)
  · rw [List.mem_singleton.mp hother]
    exact le_max_right _ _

theorem headed_commit {config : TreeConfig} {w : Forest} {next : Db} {run : SealRun} {summaryId : String}
    {tokenCount : Nat} {nowMs : Int} {enqueueFollowUps : Bool} {followUp : Option Queue.SealPayload}
    (h : Headed w.db) (hfresh : summaryId ∉ w.db.nodeIds)
    (hcommit : Committed config run.snapshot (sealedNode run.snapshot run.inputs summaryId tokenCount nowMs)
      nowMs enqueueFollowUps w.db next followUp)
    (hkeeps : ∀ tree ∈ w.db.getTree run.snapshot.treeId, tree.kind = .source → tree.Unsealed →
      w.db.Tops run.snapshot.treeId (run.snapshot.level + 1)) : Headed next := by
  obtain ⟨top, htop, -, htrees⟩ := hcommit.header
  have hnodes := hcommit.nodes hfresh
  rw [raiseHeader] at htrees
  by_cases hlow : top.maxLevel < (sealedNode run.snapshot run.inputs summaryId tokenCount nowMs).level
  · rw [if_pos hlow] at htrees
    refine headed_of_raise h hnodes htop ?_ ?_ htrees ?_ (hkeeps top htop)
    · exact fun _ => rfl
    · exact fun _ => rfl
    · exact (Nat.max_eq_right hlow.le).symm
  · rw [if_neg hlow] at htrees
    refine headed_of_raise h hnodes htop ?_ ?_ htrees ?_ (hkeeps top htop)
    · exact fun _ => rfl
    · exact fun _ => rfl
    · exact (Nat.max_eq_left (Nat.le_of_not_lt hlow)).symm

theorem headed_ingest {db next : Db} {input : SummaryIngest} {summaryId : String} {nowMs : Int} (h : Headed db)
    (hingest : Ingested input (ingestedNode input summaryId nowMs) nowMs db next)
    (hkeeps : ∀ tree ∈ db.getTree input.treeId, tree.kind = .source → tree.Unsealed →
      db.Tops input.treeId 1) : Headed next := by
  obtain ⟨top, htop, htrees⟩ := hingest.header
  by_cases hlow : top.maxLevel < 1
  · rw [if_pos hlow] at htrees
    refine headed_of_raise h hingest.nodes htop ?_ ?_ htrees ?_ (hkeeps top htop)
    · exact fun _ => rfl
    · exact fun _ => rfl
    · exact (Nat.max_eq_right hlow.le).symm
  · rw [if_neg hlow] at htrees
    have hsame : next.trees = update (·.id == input.treeId) id db.trees := by
      rw [htrees, update]
      simp
    refine headed_of_raise h hingest.nodes htop ?_ ?_ hsame ?_ (hkeeps top htop)
    · exact fun _ => rfl
    · exact fun _ => rfl
    · exact (Nat.max_eq_left (Nat.le_of_not_lt hlow)).symm

/-- What is done after the subtree is built adds no summary. -/
theorem sealDocument_nodes (config : TreeConfig) (doc : DocumentSeal) (supply : List (Option Minted))
    (nowMs : Int) (crash : Option Crash) (db : Db) :
    (sealDocument config doc supply nowMs crash db).1.nodes = (buildSubtree config doc supply db).1.nodes := by
  rw [sealDocument]
  rcases buildSubtree config doc supply db with ⟨mid, result⟩
  cases result with
  | error halt => rfl
  | ok root =>
      dsimp only
      rw [attachRoot]
      by_cases hcrash : crash = some .beforeAppend
      · rw [if_pos hcrash]
      rw [if_neg hcrash]
      cases happend : appendToBuffer doc.treeId mergeLevelBase root.id root.tokenCount root.timeRangeStartMs mid with
      | error error => rfl
      | ok appended =>
          have hsummaries := (appendToBuffer_frame happend).2.2
          have hnodes : appended.nodes = mid.nodes := congrArg (List.map SummaryNode.bare) hsummaries
          dsimp only
          by_cases hheader : crash = some .beforeHeader
          · rw [if_pos hheader, hnodes]
          rw [if_neg hheader]
          cases appended.requireActive doc.treeId with
          | error error => exact hnodes
          | ok tree =>
              have hmoved := (moveHeader_frame tree root nowMs appended).1
              exact (congrArg (List.map SummaryNode.bare) hmoved).trans hnodes

/-- A document call that moves no header. -/
theorem headed_document {db next built : Db} {doc : DocumentSeal} {added : List SummaryNode} (h : Headed db)
    (hnodes : next.nodes = db.nodes ++ added) (howned : ∀ node ∈ added, doc.Owns node)
    (hbuilt : next.nodes = built.nodes) (htrees : next.trees = db.trees)
    (hkeeps : ∀ tree ∈ db.getTree doc.treeId, tree.kind = .source →
      tree.Unsealed ∨ built.Tops doc.treeId tree.maxLevel) : Headed next := by
  refine headed_of_target h hnodes (fun node hnode => (howned node hnode).treeId)
    (headersBut_of_trees htrees) fun tree htree hkind => ?_
  rw [Db.getTree, htrees, ← Db.getTree] at htree
  refine (hkeeps tree htree hkind).imp_right fun htops => ?_
  rw [Db.Tops, hbuilt]
  exact htops

/-- A document call that moves the header to a root above which there is nothing. -/
theorem headed_attached {config : TreeConfig} {doc : DocumentSeal} {supply : List (Option Minted)} {nowMs : Int}
    {crash : Option Crash} {db next : Db} {added : List SummaryNode} {root : SummaryNode} (h : Headed db)
    (hattached : Attached config doc supply nowMs crash db added root next)
    (hcrash : crash ≠ some .beforeHeader)
    (hkeeps : ∀ tree ∈ db.getTree doc.treeId, tree.kind = .source →
      db.Tops doc.treeId (documentHeight config doc db)) : Headed next := by
  obtain ⟨top, htop, htrees⟩ := hattached.header
  rw [if_neg hcrash, moveHeader] at htrees
  have hnew : ∀ node ∈ added, node.level ≤ root.level := hattached.built.top
  have howned : ∀ node ∈ added, node.treeId = doc.treeId := fun node hnode => (hattached.owned node hnode).treeId
  by_cases hmoves : top.rootId ≠ some root.id ∨ top.maxLevel < root.level
  · rw [if_pos hmoves, getTree_id htop] at htrees
    have hget : next.getTree doc.treeId = (db.updateTreeAfterSeal doc.treeId root.id root.level nowMs).getTree
        doc.treeId := by
      rw [Db.getTree, htrees, ← Db.getTree]
    rw [getTree_updateTreeAfterSeal, htop, Option.map_some, if_pos (beq_iff_eq.mpr (getTree_id htop))] at hget
    refine headed_of_target h hattached.nodes howned (headersBut_of_update ?_ ?_ htrees)
      fun tree' htree' hkind => Or.inr ?_
    · exact fun _ => rfl
    · exact fun _ => rfl
    obtain rfl := Option.some.inj (hget.symm.trans htree')
    have htops := hkeeps top htop hkind
    rw [← attached_height hattached] at htops
    exact tops_append hattached.nodes htops hnew
  · -- the header names the root already, and is at least as high
    rw [if_neg hmoves] at htrees
    obtain ⟨hroot, hle⟩ := not_or.mp hmoves
    refine headed_of_target h hattached.nodes howned (headersBut_of_trees htrees) fun tree' htree' hkind =>
      Or.inr ?_
    rw [Db.getTree, htrees, ← Db.getTree, htop] at htree'
    obtain rfl := Option.some.inj htree'
    have hsealed : ¬top.Unsealed := by
      rw [Tree.Unsealed, not_not.mp hroot]
      exact fun hunsealed => Option.some_ne_none _ hunsealed.2
    have htops := (h doc.treeId top htop hkind).resolve_left hsealed
    exact tops_append hattached.nodes htops fun node hnode => (hnew node hnode).trans (Nat.le_of_not_lt hle)

/-- A forest whose headers are on top of their source trees. -/
structure Topped (w : Forest) : Prop where
  sound : Sound w
  ids : (w.db.trees.map Tree.id).Nodup
  headed : Headed w.db

theorem treeIds_raiseHeader (currentMax : Nat) (node : SummaryNode) (nowMs : Int) (db : Db) :
    (raiseHeader currentMax node nowMs db).trees.map Tree.id = db.trees.map Tree.id := by
  rw [raiseHeader]
  split_ifs
  · apply map_update
    exact fun _ => rfl
  · apply map_update
    exact fun _ => rfl

theorem treeIds_moveHeader (tree : Tree) (root : SummaryNode) (nowMs : Int) (db : Db) :
    (moveHeader tree root nowMs db).trees.map Tree.id = db.trees.map Tree.id := by
  rw [moveHeader]
  split_ifs
  · apply map_update
    exact fun _ => rfl
  · rfl

theorem Ingested.treeIds {input : SummaryIngest} {node : SummaryNode} {nowMs : Int} {db next : Db}
    (h : Ingested input node nowMs db next) : next.trees.map Tree.id = db.trees.map Tree.id := by
  obtain ⟨top, -, htrees⟩ := h.header
  rw [htrees]
  split_ifs
  · apply map_update
    exact fun _ => rfl
  · rfl

theorem Attached.treeIds {config : TreeConfig} {doc : DocumentSeal} {supply : List (Option Minted)} {nowMs : Int}
    {crash : Option Crash} {db next : Db} {added : List SummaryNode} {root : SummaryNode}
    (h : Attached config doc supply nowMs crash db added root next) :
    next.trees.map Tree.id = db.trees.map Tree.id := by
  obtain ⟨top, -, htrees⟩ := h.header
  rw [htrees]
  split_ifs
  · rfl
  · exact treeIds_moveHeader top root nowMs db

/-- No step adds, drops or renames a tree. -/
theorem Step.treeIds {config : TreeConfig} {w next : Forest} {label : Label} (h : Step config w label next) :
    next.db.trees.map Tree.id = w.db.trees.map Tree.id := by
  cases h with
  | quiet hquiet => rw [hquiet.trees]
  | commit _ hcommit =>
      obtain ⟨top, -, -, htrees⟩ := hcommit.header
      rw [htrees]
      exact treeIds_raiseHeader _ _ _ _
  | ingest hingest => exact Ingested.treeIds hingest
  | built _ hgrown => exact congrArg (List.map Tree.id) hgrown.trees
  | attached _ hattached hbase =>
      rw [db, hbase]
      exact Attached.treeIds hattached

theorem Quiet.headed {w next : Forest} (h : Quiet w next) (hheaded : Headed w.db) : Headed next.db := by
  intro treeId tree htree hkind
  rw [Db.getTree, h.trees, ← Db.getTree] at htree
  rw [Db.Tops, h.nodes]
  exact hheaded treeId tree htree hkind

theorem headed_commit_step {config : TreeConfig} {w : Forest} {i : Nat} {summaryId : String} {tokenCount : Nat}
    {nowMs : Int} {enqueueFollowUps : Bool} (h : Headed w.db) (hfresh : summaryId ∉ w.db.nodeIds)
    (hkeeps : KeepsTop config w (.commit i summaryId tokenCount nowMs enqueueFollowUps)) :
    Headed (advance config w (.commit i summaryId tokenCount nowMs enqueueFollowUps)).db := by
  show Headed (SummaryTree.advance config w.base (.commit i summaryId tokenCount nowMs enqueueFollowUps)).db
  simp only [SummaryTree.advance]
  cases hrun : w.base.seals[i]? with
  | none => exact h
  | some run =>
      by_cases hphase : run.phase = SealPhase.summarising
      · simp only [if_pos hphase, World.commit]
        cases hcommit : commitSeal config run.snapshot
            (sealedNode run.snapshot run.inputs summaryId tokenCount nowMs) nowMs enqueueFollowUps w.base.db with
        | error error => exact h
        | ok done =>
            refine headed_commit h hfresh (commitSeal_ok hcommit rfl rfl) (hkeeps run hrun hphase ?_)
            rw [db, hcommit]
            rfl
      · simp only [if_neg hphase]
        exact h

theorem headed_document_step {config : TreeConfig} {w : Forest} {doc : DocumentSeal}
    {supply : List (Option Minted)} {nowMs : Int} {crash : Option Crash} (hsound : Sound w) (h : Headed w.db)
    (hfresh : FreshSupply supply w.db) (hkeeps : KeepsTop config w (.document doc supply nowMs crash)) :
    Headed (advance config w (.document doc supply nowMs crash)).db := by
  rcases hseal : sealDocument config doc supply nowMs crash w.db with ⟨next, result⟩
  have hdb : (advance config w (.document doc supply nowMs crash)).db = next := by
    rw [advance, hseal]
    cases result with
    | ok id => rfl
    | error halt => rfl
  have hbuilt : next.nodes = (buildSubtree config doc supply w.db).1.nodes := by
    have hnodes := sealDocument_nodes config doc supply nowMs crash w.db
    rwa [hseal] at hnodes
  rw [hdb]
  rcases sealDocument_cases hsound.closed hfresh hseal with
    ⟨hnone, -, added, hgrown, -⟩ | ⟨added, root, hroot, hattached, -⟩
  · refine headed_document h hgrown.nodes hgrown.owned hbuilt hgrown.trees fun tree htree hkind => ?_
    have hleft := hkeeps tree htree hkind
    rwa [if_neg (by simp [hnone])] at hleft
  · by_cases hcrash : crash = some .beforeHeader
    · obtain ⟨top, -, htrees⟩ := hattached.header
      rw [if_pos hcrash] at htrees
      refine headed_document h hattached.nodes hattached.owned hbuilt htrees fun tree htree hkind => ?_
      have hleft := hkeeps tree htree hkind
      rwa [if_neg fun hattaches => hattaches.2 hcrash] at hleft
    · refine headed_attached h hattached hcrash fun tree htree hkind => ?_
      have htops := hkeeps tree htree hkind
      rwa [if_pos ⟨by simp [hroot], hcrash⟩] at htops

theorem Topped.step {config : TreeConfig} {w : Forest} {label : Label} (h : Topped w) (hmints : Mints w label)
    (hkeeps : KeepsTop config w label) : Topped (advance config w label) := by
  have hstep := advance_step config h.sound hmints
  refine ⟨sound_advance h.sound hmints, by rw [hstep.treeIds]; exact h.ids, ?_⟩
  cases label with
  | append treeId leaf tokenDelta itemTs =>
      cases hstep with
      | quiet hquiet => exact hquiet.headed h.headed
  | snapshot treeId level =>
      cases hstep with
      | quiet hquiet => exact hquiet.headed h.headed
  | commit i summaryId tokenCount nowMs enqueueFollowUps => exact headed_commit_step h.headed hmints hkeeps
  | ingest input summaryId nowMs =>
      rw [advance]
      split
      · rename_i next hok
        exact headed_ingest h.headed (ingestSummary_ok h.sound.closed hmints hok) hkeeps
      · exact h.headed
  | document doc supply nowMs crash => exact headed_document_step h.sound h.headed hmints hkeeps
  | persist chunk => exact h.headed

theorem topped_empty {trees : List (String × TreeKind × String)} (hids : (trees.map Prod.fst).Nodup) :
    Topped (Forest.empty trees) := by
  refine ⟨sound_empty trees, ?_, fun treeId tree htree _ => Or.inr ?_⟩
  · have hfresh : (Forest.empty trees).db.trees.map Tree.id = trees.map Prod.fst := List.map_map.trans rfl
    rwa [hfresh]
  · exact fun node hnode => absurd hnode List.not_mem_nil

/-- In every run whose steps keep headers on top, windowed source retrieval is a restriction of unwindowed
source retrieval in every state. -/
theorem restricts_run (config : TreeConfig) (trees : List (String × TreeKind × String)) (labels : List Label)
    (hids : (trees.map Prod.fst).Nodup) (hmints : (growing config trees).AllSteps Mints labels)
    (hkeeps : (growing config trees).AllSteps (KeepsTop config) labels) :
    (growing config trees).Throughout (fun w => ∀ toLowercase, Restricts toLowercase w.db) labels := by
  have hboth : (growing config trees).AllSteps (fun w label => Mints w label ∧ KeepsTop config w label) labels :=
    fun before label rest heq => ⟨hmints before label rest heq, hkeeps before label rest heq⟩
  refine (growing config trees).throughout_of_steps (topped_empty hids) ?_ ?_ hboth
  · exact fun w label h hok => h.step hok.1 hok.2
  · exact fun w h toLowercase => h.headed.restricts h.ids toLowercase

theorem restricts_documentAtHeader :
    oneTree.Throughout (fun w => ∀ toLowercase, Restricts toLowercase w.db) documentAtHeader := by
  refine restricts_run _ _ documentAtHeader (by decide) (Machine.allSteps_iff_stepsFrom _ |>.mpr ?_)
    (Machine.allSteps_iff_stepsFrom _ |>.mpr ?_)
  · decide
  · refine ⟨trivial, ?_, ?_, trivial⟩
    · intro tree htree hkind hunsealed node hnode
      exact absurd hnode List.not_mem_nil
    · intro tree htree hkind
      obtain rfl := Option.some.inj htree
      decide

/-- The header goes from level 2 down to level 1, and only a window still finds the summary at level 2. -/
theorem documentBelowHeader_hides :
    ¬∀ config trees labels, (trees.map Prod.fst).Nodup → (growing config trees).AllSteps Mints labels →
      (growing config trees).Throughout (fun w => ∀ toLowercase, Restricts toLowercase w.db) labels := by
  intro hall
  have hmints : oneTree.AllSteps Mints documentBelowHeader :=
    oneTree.allSteps_iff_stepsFrom.mpr (by decide)
  have hlast := hall _ _ documentBelowHeader (by decide) hmints documentBelowHeader List.prefix_rfl id
  let db := (oneTree.run documentBelowHeader).db
  let top : Tree := ⟨"tree-1", .source, "scope", some "summary-4", 1, .active, some 4⟩
  have htrees : selectTrees id db none none = [top] := by decide
  -- what is as low as the header has chunks below it only
  have hchildren : ∀ node ∈ db.summaries, node.level ≤ 1 →
      node.id ≠ "summary-3" ∧ db.childIdsOf node.id ⊆ ["chunk-1"] := by decide
  have hchunk : db.childIdsOf "chunk-1" = [] := by decide
  have hsealed : ∃ node ∈ db.summaries, node.id = "summary-3" ∧ node.treeId = "tree-1" ∧ node.deleted = false ∧
      1 ≤ node.level ∧ 0 ≤ node.timeRangeEndMs ∧ node.timeRangeStartMs ≤ 0 := by decide
  obtain ⟨node, hnode, hid, hwhere⟩ := hsealed
  have hit : hitFromSummary node top.scope ∈ collectSourceHits id db none none (some (0, 0)) := by
    rw [collectSourceHits, htrees, List.flatMap_singleton]
    exact List.mem_map_of_mem (mem_treeSummaries_window.mpr ⟨by decide, hnode, hwhere⟩)
  obtain ⟨above, habove, depth, hbelow⟩ := hlast none none 0 0 _ hit
  rw [show (hitFromSummary node top.scope).nodeId = "summary-3" from hid] at hbelow
  have hlow : above ∈ collectSourceHits id db none none none := habove
  rw [collectSourceHits, htrees, List.flatMap_singleton] at hlow
  obtain ⟨other, hother, rfl⟩ := List.mem_map.mp hlow
  obtain ⟨-, hmem, -, -, -, hlevel⟩ := mem_treeSummaries.mp hother
  obtain ⟨hne, hsub⟩ := hchildren other hmem hlevel
  cases depth with
  | zero => exact hne (List.mem_singleton.mp hbelow).symm
  | succ depth =>
      obtain ⟨child, hchild, hbelow⟩ := List.mem_flatMap.mp hbelow
      obtain rfl := List.mem_singleton.mp (hsub hchild)
      cases depth with
      | zero => exact absurd (List.mem_singleton.mp hbelow) (by decide)
      | succ depth =>
          obtain ⟨child, hchild, -⟩ := List.mem_flatMap.mp hbelow
          have hempty : child ∈ db.childIdsOf "chunk-1" := hchild
          rw [hchunk] at hempty
          exact List.not_mem_nil hempty

end TinyCortex.SummaryTree.Forest
