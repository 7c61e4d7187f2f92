import TinyCortex.Content.Paths
import TinyCortex.Lib.Text
import TinyCortex.Tree.Frozen
import TinyCortex.Tree.Texts

/-! The compiled profile of a flavoured tree (`tree/flavoured.rs`): its root, trimmed and clamped, in one
file per scope. No table tracks the file. The cascade writes it anew when it sealed anything, and nothing
else does, while the root moves under document seals, ingested summaries and single seals too. -/

namespace TinyCortex.SummaryTree

open Table Chunks Content Text

/-- `seal_one_level_with_services`: without anything minted the summariser failed. -/
def sealOneLevel (config : TreeConfig) (buf : Buffer) (minted : Option Minted) (db : Db) :
    Except Halt Db :=
  match sealInputs db buf, minted with
  | .error error, _ => .error (.failed error)
  | .ok _, none => .error .crashed
  | .ok inputs, some minted =>
      let node := sealedNode buf inputs minted.id minted.tokenCount minted.nowMs
      match commitSeal config buf node minted.nowMs false db with
      | .error error => .error (.failed error)
      | .ok (next, _) => .ok next

/-- The loop of `cascade_all_from`, and the number of its seals. Only the first level is forced. -/
def cascadeFrom (config : TreeConfig) (treeId : String) :
    Nat → Nat → Bool → List (Option Minted) → Db → Db × Except Halt Nat
  | 0, _, _, _, db => (db, .ok 0)
  | depth + 1, level, force, supply, db =>
      let buf := db.getBuffer treeId level
      if (force = false ∧ shouldSeal config buf = false) ∨ buf.itemIds = [] then (db, .ok 0)
      else
        match sealOneLevel config buf supply.head?.join db with
        | .error halt => (db, .error halt)
        | .ok next =>
            let rest := cascadeFrom config treeId depth (level + 1) false supply.tail next
            (rest.1, rest.2.map (· + 1))

def cascadeAllFrom (config : TreeConfig) (treeId : String) (startLevel : Nat) (force : Bool)
    (supply : List (Option Minted)) (db : Db) : Db × Except Halt Nat :=
  cascadeFrom config treeId maxCascadeDepth startLevel force supply db

/-- What a profile is compiled with: the budgets, the token estimate of the chunker, and the text that was
sealed under each summary id. -/
structure ProfileEnv where
  config : TreeConfig
  flavourRootTokenBudget : Nat
  approxTokenCount : String → Nat
  textOf : String → String

/-- Truncate a text to at most `budget` approximate tokens; its estimate. -/
def clampToBudget (env : ProfileEnv) (text : String) (budget : Nat) : String × Nat :=
  if env.approxTokenCount text ≤ budget then (text, env.approxTokenCount text)
  else
    let truncated := String.ofList (text.toList.take (budget * 4))
    (truncated, env.approxTokenCount truncated)

/-- What a compiled artifact says (`FlavouredRootMeta`). -/
structure FlavouredRoot where
  treeId : String
  scope : String
  rootId : Option String
  sealedAtMs : Option Int
  leavesFolded : Nat
  tokenEstimate : Nat
  tokenBudget : Nat
  body : String
  deriving DecidableEq, Repr

inductive CompileError
  /-- `no tree with id {tree_id}` -/
  | noTree (treeId : String)
  /-- `compile_flavoured_root: tree {tree_id} is {}, not flavoured` -/
  | notFlavoured (treeId : String) (kind : TreeKind)
  /-- `flavoured tree {tree_id} root {root_id} missing` -/
  | rootMissing (treeId rootId : String)
  deriving DecidableEq, Repr

def flavouredRootRelPath (scope : String) : String := "flavoured/" ++ slugifySourceId scope ++ ".md"

/-- The content column of the root, which is a preview of its text, and the number of its children. -/
def rootContent (env : ProfileEnv) (tree : Tree) (db : Db) : Except CompileError (String × Nat) :=
  match tree.rootId with
  | none => .ok ("", 0)
  | some rootId =>
      match db.getSummary rootId with
      | none => .error (.rootMissing tree.id rootId)
      | some node => .ok (preview (env.textOf node.id), node.childIds.length)

def compileFlavouredRoot (env : ProfileEnv) (treeId : String) (db : Db) :
    Except CompileError FlavouredRoot :=
  match db.getTree treeId with
  | none => .error (.noTree treeId)
  | some tree =>
      if tree.kind = .flavoured then do
        let content ← rootContent env tree db
        let clamped := clampToBudget env (trim content.1) env.flavourRootTokenBudget
        .ok
          { treeId := tree.id
            scope := tree.scope
            rootId := tree.rootId
            sealedAtMs := tree.lastSealedAtMs
            leavesFolded := content.2
            tokenEstimate := clamped.2
            tokenBudget := env.flavourRootTokenBudget
            body := clamped.1 }
      else .error (.notFlavoured treeId tree.kind)

/-- The tree tables and the artifacts by path. -/
structure Profiles where
  db : Db
  artifacts : String → Option FlavouredRoot

namespace Profiles

inductive Op
  | createTree (treeId : String) (kind : TreeKind) (scope : String)
  | persist (chunk : Chunks.Chunk)
  | appendLeaf (treeId chunkId : String) (tokenCount : Nat) (timestampMs : Int)
      (supply : List (Option Minted))
  | appendLeafDeferred (treeId chunkId : String) (tokenCount : Nat) (timestampMs : Int)
  | sealLevel (treeId : String) (level : Nat) (minted : Option Minted)
  | flush (treeId : String) (level : Nat) (supply : List (Option Minted))
  | document (doc : DocumentSeal) (nowMs : Int) (supply merges : List (Option Minted))
  | ingestSummary (input : SummaryIngest) (minted : Minted) (supply : List (Option Minted))
  deriving DecidableEq, Repr

/-- What the operation may mint. -/
def Op.supply : Op → List (Option Minted)
  | .createTree _ _ _ | .persist _ | .appendLeafDeferred _ _ _ _ => []
  | .appendLeaf _ _ _ _ supply | .flush _ _ supply => supply
  | .sealLevel _ _ minted => [minted]
  | .document _ _ supply merges => supply ++ merges
  | .ingestSummary _ minted supply => some minted :: supply

/-- The tables after a cascade, and the tree that it recompiles: one that was sealed without an error. -/
def hooked (treeId : String) : Db × Except Halt Nat → Db × Option String
  | (db, .ok (_ + 1)) => (db, some treeId)
  | (db, .ok 0) | (db, .error _) => (db, none)

/-- What an operation does to the tables, and the tree that its cascade recompiles. A flush of stale
buffers is one of these operations for each of them. -/
def transact (config : TreeConfig) (db : Db) : Op → Db × Option String
  | .createTree treeId kind scope => (Workspace.createTree treeId kind scope db, none)
  | .persist chunk => ({ db with chunks := upsert Chunk.id chunk db.chunks }, none)
  | .appendLeaf treeId chunkId tokenCount timestampMs supply =>
      match appendToBuffer treeId 0 chunkId tokenCount timestampMs db with
      | .error _ => (db, none)
      | .ok next => hooked treeId (cascadeAllFrom config treeId 0 false supply next)
  | .appendLeafDeferred treeId chunkId tokenCount timestampMs =>
      match appendLeafDeferred config treeId chunkId tokenCount timestampMs db with
      | .error _ => (db, none)
      | .ok (next, _) => (next, none)
  | .sealLevel treeId level minted =>
      match sealOneLevel config (db.getBuffer treeId level) minted db with
      | .error _ => (db, none)
      | .ok next => (next, none)
  | .flush treeId level supply => hooked treeId (cascadeAllFrom config treeId level true supply db)
  | .document doc nowMs supply merges =>
      match sealDocument config doc supply nowMs none db with
      | (next, .error _) => (next, none)
      | (next, .ok _) =>
          hooked doc.treeId (cascadeAllFrom config doc.treeId mergeLevelBase false merges next)
  | .ingestSummary input minted supply =>
      match ingestSummary input minted.id minted.nowMs db with
      | .error _ => (db, none)
      | .ok next => hooked input.treeId (cascadeAllFrom config input.treeId 1 false supply next)

/-- The hook of the cascade. A compilation that fails is logged. -/
def refresh (env : ProfileEnv) (s : Profiles) : Option String → Profiles
  | none => s
  | some treeId =>
      match compileFlavouredRoot env treeId s.db with
      | .error _ => s
      | .ok root =>
          { s with
            artifacts := Function.update s.artifacts (flavouredRootRelPath root.scope) (some root) }

def step (env : ProfileEnv) (s : Profiles) (op : Op) : Profiles :=
  refresh env { s with db := (transact env.config s.db op).1 } (transact env.config s.db op).2

def empty : Profiles := ⟨⟨[], [], [], []⟩, fun _ => none⟩

def machine (env : ProfileEnv) : Machine Profiles Op := ⟨empty, step env⟩

/-- Every sealed node gets an id of its own. -/
def Mints (s : Profiles) (op : Op) : Prop := FreshSupply op.supply s.db

instance (s : Profiles) (op : Op) : Decidable (Mints s op) :=
  inferInstanceAs (Decidable (FreshSupply _ _))

/-- The body of a profile over a text. -/
def profileBody (env : ProfileEnv) (text : String) : String :=
  (clampToBudget env (trim text) env.flavourRootTokenBudget).1

/-- A flavoured tree with a root. -/
def Rooted (tree : Tree) : Prop := tree.kind = .flavoured ∧ tree.rootId.isSome

instance (tree : Tree) : Decidable (Rooted tree) := inferInstanceAs (Decidable (_ ∧ _))

/-- The artifact is the profile of the tree with its current root, over the whole text of the root. -/
structure ProfileOf (env : ProfileEnv) (tree : Tree) (root : String) (artifact : FlavouredRoot) : Prop where
  treeId : artifact.treeId = tree.id
  scope : artifact.scope = tree.scope
  rootId : artifact.rootId = some root
  body : artifact.body = profileBody env (env.textOf root)

/-- Every flavoured tree that has a root has its profile at its path, and no path serves two scopes. -/
structure Compiled (env : ProfileEnv) (s : Profiles) : Prop where
  current : ∀ tree ∈ s.db.trees, tree.kind = .flavoured → ∀ rootId, tree.rootId = some rootId →
    ∃ artifact, s.artifacts (flavouredRootRelPath tree.scope) = some artifact ∧
      ProfileOf env tree rootId artifact
  apart : ∀ tree ∈ s.db.trees, Rooted tree → ∀ other ∈ s.db.trees, Rooted other →
    tree.scope ≠ other.scope → flavouredRootRelPath tree.scope ≠ flavouredRootRelPath other.scope

/-- The branches that leave a profile behind are not taken: a root moves only in an operation whose cascade
seals and ends without an error; such a cascade leaves a root whose preview has all of the profile, and a
scope whose path no other tree with a root has. -/
def KeepsCompiled (env : ProfileEnv) (s : Profiles) (op : Op) : Prop :=
  ∀ tree ∈ (transact env.config s.db op).1.trees, tree.kind = .flavoured →
    if (transact env.config s.db op).2 = some tree.id then
      (∀ rootId ∈ tree.rootId,
        profileBody env (preview (env.textOf rootId)) = profileBody env (env.textOf rootId)) ∧
      ∀ other ∈ (transact env.config s.db op).1.trees, Rooted other → other.id ≠ tree.id →
        flavouredRootRelPath other.scope ≠ flavouredRootRelPath tree.scope
    else tree.rootId = (s.db.getTree tree.id).bind Tree.rootId

instance (env : ProfileEnv) (s : Profiles) (op : Op) : Decidable (KeepsCompiled env s op) :=
  inferInstanceAs (Decidable (∀ tree ∈ (transact env.config s.db op).1.trees, tree.kind = .flavoured →
    if (transact env.config s.db op).2 = some tree.id then _ else _))

end Profiles

/-! ### What an operation does to the trees -/

section Climb

variable {config : TreeConfig} {db mid next : Db} {supply rest : List (Option Minted)} {treeId : String}

/-- A tree before and after an operation: it keeps its root, or gets a node of the operation. -/
structure Moved (db next : Db) (tree tree' : Tree) : Prop where
  id : tree'.id = tree.id
  kind : tree'.kind = tree.kind
  scope : tree'.scope = tree.scope
  root : tree'.rootId = tree.rootId ∨
    ∃ rootId, tree'.rootId = some rootId ∧ rootId ∈ next.nodeIds ∧ rootId ∉ db.nodeIds

/-- Nodes were added under ids of the supply, and no tree got another root than one of them. -/
structure Climbs (supply : List (Option Minted)) (db next : Db) : Prop where
  nodeIds : ∃ added, next.nodeIds = db.nodeIds ++ added ∧ added.Sublist (supplyIds supply)
  treeIds : next.trees.map Tree.id = db.trees.map Tree.id
  trees : ∀ tree' ∈ next.trees, ∃ tree ∈ db.trees, Moved db next tree tree'

theorem Moved.refl (db next : Db) (tree : Tree) : Moved db next tree tree := ⟨rfl, rfl, rfl, Or.inl rfl⟩

theorem Climbs.subset (h : Climbs supply db next) : db.nodeIds ⊆ next.nodeIds := by
  obtain ⟨added, hnodes, -⟩ := h.nodeIds
  rw [hnodes]
  exact List.subset_append_left _ _

theorem Climbs.nodup (h : Climbs supply db next) (hfresh : FreshSupply supply db)
    (hnodup : db.nodeIds.Nodup) : next.nodeIds.Nodup := by
  obtain ⟨added, hnodes, hadded⟩ := h.nodeIds
  rw [hnodes, List.nodup_append]
  refine ⟨hnodup, hfresh.nodup.sublist hadded, fun id hid id' hid' heq => ?_⟩
  exact hfresh.unused id (hadded.subset (heq ▸ hid')) hid

theorem Climbs.freshSupply (h : Climbs supply db next) (hfresh : FreshSupply (supply ++ rest) db) :
    FreshSupply rest next := by
  obtain ⟨added, hnodes, hadded⟩ := h.nodeIds
  have hids : supplyIds (supply ++ rest) = supplyIds supply ++ supplyIds rest := List.filterMap_append
  have hnodup := hfresh.nodup
  rw [hids, List.nodup_append] at hnodup
  refine ⟨hnodup.2.1, fun id hid => ?_⟩
  rw [hnodes, List.mem_append, not_or]
  refine ⟨hfresh.unused id (hids ▸ List.mem_append_right _ hid), fun hmem => ?_⟩
  exact hnodup.2.2 id (hadded.subset hmem) id hid rfl

theorem Climbs.refl (supply : List (Option Minted)) (db : Db) : Climbs supply db db where
  nodeIds := ⟨[], (List.append_nil _).symm, List.nil_sublist _⟩
  treeIds := rfl
  trees := fun tree htree => ⟨tree, htree, .refl db db tree⟩

/-- The tables of the trees and summaries stayed. -/
theorem Climbs.of_eq (htrees : next.trees = db.trees) (hsummaries : next.summaries = db.summaries) :
    Climbs supply db next where
  nodeIds := ⟨[], by rw [Db.nodeIds, Db.nodes, hsummaries, List.append_nil]; rfl, List.nil_sublist _⟩
  treeIds := congrArg (List.map Tree.id) htrees
  trees := fun tree htree => ⟨tree, htrees ▸ htree, .refl db next tree⟩

theorem Climbs.trans (h : Climbs supply db mid) (h' : Climbs rest mid next) :
    Climbs (supply ++ rest) db next where
  nodeIds := by
    obtain ⟨added, hnodes, hadded⟩ := h.nodeIds
    obtain ⟨more, hnodes', hmore⟩ := h'.nodeIds
    refine ⟨added ++ more, by rw [hnodes', hnodes, List.append_assoc], ?_⟩
    rw [supplyIds, List.filterMap_append]
    exact hadded.append hmore
  treeIds := h'.treeIds.trans h.treeIds
  trees := by
    intro tree'' htree''
    obtain ⟨tree', htree', hmoved'⟩ := h'.trees tree'' htree''
    obtain ⟨tree, htree, hmoved⟩ := h.trees tree' htree'
    refine ⟨tree, htree, hmoved'.id.trans hmoved.id, hmoved'.kind.trans hmoved.kind,
      hmoved'.scope.trans hmoved.scope, ?_⟩
    rcases hmoved'.root with hsame | ⟨rootId, hroot, hmem, hnew⟩
    · rw [hsame]
      rcases hmoved.root with hkept | ⟨rootId, hroot, hmem, hnew⟩
      · exact Or.inl hkept
      · exact Or.inr ⟨rootId, hroot, h'.subset hmem, hnew⟩
    · exact Or.inr ⟨rootId, hroot, hmem, fun hold => hnew (h.subset hold)⟩

/-- Nodes were added, and one of them may have become the root of its tree. -/
theorem Climbs.of_update {added : List String} {f : Tree → Tree} {root : String}
    (hnodes : next.nodeIds = db.nodeIds ++ added) (hadded : added.Sublist (supplyIds supply))
    (htrees : next.trees = update (·.id == treeId) f db.trees)
    (hf : ∀ tree, (f tree).id = tree.id ∧ (f tree).kind = tree.kind ∧ (f tree).scope = tree.scope ∧
      ((f tree).rootId = tree.rootId ∨ (f tree).rootId = some root))
    (hroot : root ∈ added) (hnew : root ∉ db.nodeIds) : Climbs supply db next where
  nodeIds := ⟨added, hnodes, hadded⟩
  treeIds := by
    rw [htrees]
    exact map_update (fun tree => (hf tree).1) _
  trees := by
    intro tree' htree'
    rw [htrees] at htree'
    rcases mem_update.mp htree' with ⟨tree, htree, -, rfl⟩ | ⟨htree, -⟩
    · obtain ⟨hid, hkind, hscope, hsame | hmoved⟩ := hf tree
      · exact ⟨tree, htree, hid, hkind, hscope, Or.inl hsame⟩
      · exact ⟨tree, htree, hid, hkind, hscope,
          Or.inr ⟨root, hmoved, hnodes ▸ List.mem_append_right _ hroot, hnew⟩⟩
    · exact ⟨tree', htree, .refl db next tree'⟩

theorem sealOneLevel_climbs {buf : Buffer} {minted : Option Minted} (hfresh : FreshSupply [minted] db)
    (h : sealOneLevel config buf minted db = .ok next) : Climbs [minted] db next := by
  unfold sealOneLevel at h
  split at h
  · cases h
  · cases h
  · rename_i inputs minted hinputs
    dsimp only at h
    split at h
    · cases h
    · rename_i committed followUp hcommit
      obtain rfl := Except.ok.inj h
      have hnew : minted.id ∉ db.nodeIds := hfresh.unused minted.id List.mem_cons_self
      have hdone := commitSeal_ok hcommit rfl rfl
      obtain ⟨tree, -, -, htrees⟩ := hdone.header
      have hnodes := congrArg (List.map SummaryNode.id) (hdone.nodes hnew)
      rw [List.map_append] at hnodes
      unfold raiseHeader at htrees
      split_ifs at htrees
      · exact .of_update hnodes (List.Sublist.refl _) htrees
          (fun _ => ⟨rfl, rfl, rfl, Or.inr rfl⟩) List.mem_cons_self hnew
      · exact .of_update hnodes (List.Sublist.refl _) htrees
          (fun _ => ⟨rfl, rfl, rfl, Or.inl rfl⟩) List.mem_cons_self hnew

theorem cascadeFrom_climbs {depth level : Nat} {force : Bool} (hfresh : FreshSupply supply db) :
    Climbs supply db (cascadeFrom config treeId depth level force supply db).1 := by
  induction depth generalizing level force supply db with
  | zero => exact .refl supply db
  | succ depth ih =>
      unfold cascadeFrom
      dsimp only
      split_ifs
      · exact .refl supply db
      · split
        · exact .refl supply db
        · rename_i next hseal
          have hids : supplyIds ([supply.head?.join] ++ supply.tail) = supplyIds supply := by
            rw [supplyIds_cons supply]
            exact List.filterMap_append
          have hboth : FreshSupply ([supply.head?.join] ++ supply.tail) db :=
            ⟨hids ▸ hfresh.nodup, fun id hid => hfresh.unused id (hids ▸ hid)⟩
          have hfirst := sealOneLevel_climbs (hboth.take 1) hseal
          have hrest : Climbs supply.tail next
              (cascadeFrom config treeId depth (level + 1) false supply.tail next).1 :=
            ih (hfirst.freshSupply hboth)
          have hall := hfirst.trans hrest
          exact ⟨hids ▸ hall.nodeIds, hall.treeIds, hall.trees⟩

theorem sealDocument_climbs {doc : DocumentSeal} {nowMs : Int} {result : Except Halt String}
    (hfresh : FreshSupply supply db) (hnodup : db.nodeIds.Nodup)
    (h : sealDocument config doc supply nowMs none db = (next, result)) : Climbs supply db next := by
  rcases hbuild : buildSubtree config doc supply db with ⟨built, r⟩
  obtain ⟨added, hgrown, -, hroot⟩ := buildSubtree_cases hfresh hnodup hbuild
  have hstays : ∀ {next' : Db}, next'.trees = built.trees → next'.summaries = built.summaries →
      Climbs supply db next' := by
    intro next' htrees hsummaries
    refine ⟨⟨_, ?_, hgrown.ids⟩, congrArg (List.map Tree.id) (htrees.trans hgrown.trees), ?_⟩
    · rw [← hgrown.nodeIds, Db.nodeIds, Db.nodes, hsummaries]
      rfl
    · intro tree htree
      rw [htrees, hgrown.trees] at htree
      exact ⟨tree, htree, .refl db next' tree⟩
  rw [sealDocument, hbuild] at h
  cases r with
  | error halt =>
      obtain ⟨rfl, -⟩ := Prod.mk.inj h
      exact hstays rfl rfl
  | ok root =>
      have hmem : root.id ∈ added.map SummaryNode.id := List.mem_map_of_mem (hroot root rfl).mem
      dsimp only at h
      unfold attachRoot at h
      rw [if_neg (by decide)] at h
      split at h
      · obtain ⟨rfl, -⟩ := Prod.mk.inj h
        exact hstays rfl rfl
      · rename_i appended happend
        obtain ⟨htrees, -, hsummaries⟩ := appendToBuffer_frame happend
        rw [if_neg (by decide)] at h
        split at h
        · obtain ⟨rfl, -⟩ := Prod.mk.inj h
          exact hstays htrees hsummaries
        · rename_i tree htree
          obtain ⟨rfl, -⟩ := Prod.mk.inj h
          unfold moveHeader
          split_ifs
          · have hupdate : (appended.updateTreeAfterSeal tree.id root.id root.level nowMs).trees =
                (db.updateTreeAfterSeal tree.id root.id root.level nowMs).trees := by
              rw [Db.updateTreeAfterSeal, Db.updateTreeAfterSeal, htrees, hgrown.trees]
            refine .of_update ?_ hgrown.ids hupdate (fun _ => ⟨rfl, rfl, rfl, Or.inr rfl⟩) hmem ?_
            · rw [← hgrown.nodeIds, Db.nodeIds, Db.nodes, Db.updateTreeAfterSeal, hsummaries]
              rfl
            · exact hgrown.fresh hfresh root (hroot root rfl).mem
          · exact hstays htrees hsummaries

theorem ingestSummary_climbs {input : SummaryIngest} {minted : Minted} (hfresh : minted.id ∉ db.nodeIds)
    (h : ingestSummary input minted.id minted.nowMs db = .ok next) : Climbs [some minted] db next := by
  have hnodes := congrArg (List.map SummaryNode.id) (ingestSummary_nodes hfresh h).1
  rw [List.map_append] at hnodes
  obtain ⟨tree, pushed, -, hpushed, rfl⟩ := ingestSummary_cases h
  have htrees : pushed.trees = db.trees := by
    rcases hpushed with rfl | rfl
    · rfl
    · rfl
  split_ifs at hnodes ⊢
  · have hupdate : (pushed.updateTreeAfterSeal input.treeId minted.id 1 minted.nowMs).trees =
        (db.updateTreeAfterSeal input.treeId minted.id 1 minted.nowMs).trees := by
      rw [Db.updateTreeAfterSeal, Db.updateTreeAfterSeal, htrees]
    exact .of_update hnodes (List.Sublist.refl _) hupdate (fun _ => ⟨rfl, rfl, rfl, Or.inr rfl⟩)
      List.mem_cons_self hfresh
  · exact ⟨⟨_, hnodes, List.Sublist.refl _⟩, congrArg (List.map Tree.id) htrees,
      fun tree htree => ⟨tree, htrees ▸ htree, .refl db pushed tree⟩⟩

end Climb

namespace Profiles

variable {env : ProfileEnv} {s : Profiles} {op : Op} {db next : Db}

/-- What every operation does: it adds nodes with ids of their own and keeps every tree, and a tree that
was not there before has no root. -/
structure Evolves (db next : Db) : Prop where
  subset : db.nodeIds ⊆ next.nodeIds
  nodup : next.nodeIds.Nodup
  keyed : (next.trees.map Tree.id).Nodup
  trees : ∀ tree' ∈ next.trees, (db.getTree tree'.id = none ∧ tree'.rootId = none) ∨
    ∃ tree ∈ db.trees, Moved db next tree tree'

theorem evolves_createTree (treeId : String) (kind : TreeKind) (scope : String)
    (hnodup : db.nodeIds.Nodup) (hkeyed : (db.trees.map Tree.id).Nodup) :
    Evolves db (Workspace.createTree treeId kind scope db) := by
  unfold Workspace.createTree
  split_ifs with h
  · exact ⟨List.Subset.refl _, hnodup, hkeyed, fun tree htree => Or.inr ⟨tree, htree, .refl db db tree⟩⟩
  · have hid : treeId ∉ db.trees.map Tree.id := fun hmem => h (Or.inr hmem)
    refine ⟨List.Subset.refl _, hnodup, ?_, fun tree htree => ?_⟩
    · rw [List.map_append, List.nodup_append]
      refine ⟨hkeyed, List.nodup_singleton _, fun id hmem id' hid' heq => ?_⟩
      obtain rfl := List.mem_singleton.mp hid'
      exact hid (heq ▸ hmem)
    · rcases List.mem_append.mp htree with hold | hnew
      · exact Or.inr ⟨tree, hold, rfl, rfl, rfl, Or.inl rfl⟩
      · obtain rfl := List.mem_singleton.mp hnew
        exact Or.inl ⟨lookup_eq_none_iff.mpr hid, rfl⟩

theorem Evolves.of_climbs {supply : List (Option Minted)} (h : Climbs supply db next)
    (hfresh : FreshSupply supply db) (hnodup : db.nodeIds.Nodup) (hkeyed : (db.trees.map Tree.id).Nodup) :
    Evolves db next where
  subset := h.subset
  nodup := h.nodup hfresh hnodup
  keyed := h.treeIds ▸ hkeyed
  trees := fun tree' htree' => Or.inr (h.trees tree' htree')

theorem hooked_fst (treeId : String) (cascaded : Db × Except Halt Nat) :
    (hooked treeId cascaded).1 = cascaded.1 := by
  rcases cascaded with ⟨db, _ | _ | n⟩ <;> rfl

theorem transact_evolves (config : TreeConfig) (hfresh : FreshSupply op.supply db)
    (hnodup : db.nodeIds.Nodup) (hkeyed : (db.trees.map Tree.id).Nodup) :
    Evolves db (transact config db op).1 := by
  have hclimbs : ∀ next, Climbs op.supply db next → Evolves db next :=
    fun _ h => .of_climbs h hfresh hnodup hkeyed
  cases op with
  | createTree treeId kind scope => exact evolves_createTree treeId kind scope hnodup hkeyed
  | persist chunk => exact hclimbs _ (.of_eq rfl rfl)
  | appendLeaf treeId chunkId tokenCount timestampMs supply =>
      apply hclimbs
      rw [transact]
      split
      · exact .refl _ db
      · rename_i next happend
        obtain ⟨htrees, -, hsummaries⟩ := appendToBuffer_frame happend
        have happended : Climbs [] db next := .of_eq htrees hsummaries
        rw [hooked_fst]
        exact happended.trans (cascadeFrom_climbs (happended.freshSupply hfresh))
  | appendLeafDeferred treeId chunkId tokenCount timestampMs =>
      apply hclimbs
      rw [transact]
      split
      · exact .refl _ db
      · rename_i next due hdeferred
        obtain ⟨next', happend, heq⟩ := Fallible.bind_ok_iff.mp hdeferred
        obtain ⟨rfl, -⟩ := Prod.mk.inj (Except.ok.inj heq)
        obtain ⟨htrees, -, hsummaries⟩ := appendToBuffer_frame happend
        exact .of_eq htrees hsummaries
  | sealLevel treeId level minted =>
      apply hclimbs
      rw [transact]
      split
      · exact .refl _ db
      · rename_i next hseal
        exact sealOneLevel_climbs hfresh hseal
  | flush treeId level supply =>
      apply hclimbs
      rw [transact]
      rw [hooked_fst]
      exact cascadeFrom_climbs hfresh
  | document doc nowMs supply merges =>
      apply hclimbs
      have hsupply : FreshSupply supply db := by
        refine ⟨hfresh.nodup.sublist ?_, fun id hid => hfresh.unused id ?_⟩
        · exact (List.sublist_append_left supply merges).filterMap _
        · exact ((List.sublist_append_left supply merges).filterMap _).subset hid
      rw [transact]
      split
      · rename_i next halt hseal
        have hsealed := sealDocument_climbs hsupply hnodup hseal
        exact hsealed.trans (.refl merges next)
      · rename_i next rootId hseal
        have hsealed := sealDocument_climbs hsupply hnodup hseal
        rw [hooked_fst]
        exact hsealed.trans (cascadeFrom_climbs (hsealed.freshSupply hfresh))
  | ingestSummary input minted supply =>
      apply hclimbs
      rw [transact]
      split
      · exact .refl _ db
      · rename_i next hingest
        have hingested := ingestSummary_climbs (hfresh.unused minted.id List.mem_cons_self) hingest
        rw [hooked_fst]
        exact hingested.trans (cascadeFrom_climbs (hingested.freshSupply hfresh))

/-! ### The artifacts -/

/-- What a compilation writes for a tree: the text of the root comes from its preview. -/
structure Rendered (env : ProfileEnv) (tree : Tree) (artifact : FlavouredRoot) : Prop where
  treeId : artifact.treeId = tree.id
  scope : artifact.scope = tree.scope
  rootId : artifact.rootId = tree.rootId
  body : ∀ rootId ∈ tree.rootId, artifact.body = profileBody env (preview (env.textOf rootId))

theorem compileFlavouredRoot_ok (env : ProfileEnv) {tree : Tree} (hkeyed : (db.trees.map Tree.id).Nodup)
    (htree : tree ∈ db.trees) (hkind : tree.kind = .flavoured)
    (hroots : ∀ rootId ∈ tree.rootId, rootId ∈ db.nodeIds) :
    ∃ artifact, compileFlavouredRoot env tree.id db = .ok artifact ∧ Rendered env tree artifact := by
  have hget : db.getTree tree.id = some tree := lookup_of_mem hkeyed htree
  unfold compileFlavouredRoot rootContent
  rw [hget]
  dsimp only
  rw [if_pos hkind]
  cases hroot : tree.rootId with
  | none =>
      refine ⟨_, rfl, rfl, rfl, hroot.symm ▸ rfl, fun rootId hmem => ?_⟩
      rw [hroot] at hmem
      cases hmem
  | some rootId =>
      have hmem := hroots rootId hroot
      rw [Db.nodeIds_eq] at hmem
      obtain ⟨node, hnode⟩ := Option.isSome_iff_exists.mp (lookup_isSome_iff.mpr hmem)
      have hfound : db.getSummary rootId = some node := hnode
      dsimp only
      rw [hfound]
      refine ⟨_, rfl, rfl, rfl, hroot.symm ▸ rfl, fun rootId' hmem' => ?_⟩
      obtain rfl := Option.some.inj (hroot.symm.trans hmem')
      rw [← (lookup_mem hnode).2]
      rfl

theorem compileFlavouredRoot_error (env : ProfileEnv) {treeId : String}
    (h : ∀ tree ∈ db.trees, tree.kind = .flavoured → treeId ≠ tree.id) :
    ∃ error, compileFlavouredRoot env treeId db = .error error := by
  unfold compileFlavouredRoot
  cases hget : db.getTree treeId with
  | none => exact ⟨_, rfl⟩
  | some tree =>
      obtain ⟨htree, hid⟩ := lookup_mem hget
      dsimp only
      rw [if_neg fun hkind => h tree htree hkind hid.symm]
      exact ⟨_, rfl⟩

/-- The hook writes the profile of the tree that it is called for, provided that there is such a tree and it
is flavoured. -/
theorem refresh_cases (env : ProfileEnv) (s : Profiles) (hook : Option String)
    (hkeyed : (s.db.trees.map Tree.id).Nodup)
    (hroots : ∀ tree ∈ s.db.trees, ∀ rootId ∈ tree.rootId, rootId ∈ s.db.nodeIds) :
    (refresh env s hook = s ∧ ∀ tree ∈ s.db.trees, tree.kind = .flavoured → hook ≠ some tree.id) ∨
    ∃ tree ∈ s.db.trees, tree.kind = .flavoured ∧ hook = some tree.id ∧
      ∃ artifact, Rendered env tree artifact ∧ refresh env s hook =
        { s with
          artifacts := Function.update s.artifacts (flavouredRootRelPath tree.scope) (some artifact) } := by
  by_cases hhook : ∃ tree ∈ s.db.trees, tree.kind = .flavoured ∧ hook = some tree.id
  · obtain ⟨tree, htree, hkind, rfl⟩ := hhook
    obtain ⟨artifact, hcompile, hrendered⟩ := compileFlavouredRoot_ok env hkeyed htree hkind
      (hroots tree htree)
    refine Or.inr ⟨tree, htree, hkind, rfl, artifact, hrendered, ?_⟩
    unfold refresh
    dsimp only
    rw [hcompile]
    dsimp only
    rw [hrendered.scope]
  · have hother : ∀ tree ∈ s.db.trees, tree.kind = .flavoured → hook ≠ some tree.id :=
      fun tree htree hkind heq => hhook ⟨tree, htree, hkind, heq⟩
    refine Or.inl ⟨?_, hother⟩
    cases hook with
    | none => rfl
    | some treeId =>
        obtain ⟨error, herror⟩ := compileFlavouredRoot_error env fun tree htree hkind heq =>
          hother tree htree hkind (congrArg some heq)
        unfold refresh
        dsimp only
        rw [herror]

/-! ### Runs -/

/-- What every reachable state has besides its profiles: every root and every artifact names a node. -/
structure Tracked (s : Profiles) : Prop where
  nodup : s.db.nodeIds.Nodup
  keyed : (s.db.trees.map Tree.id).Nodup
  roots : ∀ tree ∈ s.db.trees, ∀ rootId ∈ tree.rootId, rootId ∈ s.db.nodeIds
  artifacts : ∀ path artifact, s.artifacts path = some artifact → ∀ rootId ∈ artifact.rootId,
    rootId ∈ s.db.nodeIds

theorem tracked_empty : Tracked empty where
  nodup := List.nodup_nil
  keyed := List.nodup_nil
  roots := fun _ hmem => absurd hmem List.not_mem_nil
  artifacts := fun _ _ h => by cases h

/-- One artifact has one scope, so no two scopes have their profiles at one path. -/
theorem Compiled.of_current (h : ∀ tree ∈ s.db.trees, tree.kind = .flavoured →
    ∀ rootId, tree.rootId = some rootId →
      ∃ artifact, s.artifacts (flavouredRootRelPath tree.scope) = some artifact ∧
        ProfileOf env tree rootId artifact) : Compiled env s where
  current := h
  apart := by
    rintro tree htree ⟨hkind, hroot⟩ other hother ⟨hkind', hroot'⟩ hscope hpath
    obtain ⟨rootId, hroot⟩ := Option.isSome_iff_exists.mp hroot
    obtain ⟨rootId', hroot'⟩ := Option.isSome_iff_exists.mp hroot'
    obtain ⟨artifact, hfile, hprofile⟩ := h tree htree hkind rootId hroot
    obtain ⟨artifact', hfile', hprofile'⟩ := h other hother hkind' rootId' hroot'
    rw [← hpath, hfile] at hfile'
    obtain rfl := Option.some.inj hfile'
    exact hscope (hprofile.scope.symm.trans hprofile'.scope)

theorem compiled_empty (env : ProfileEnv) : Compiled env empty :=
  .of_current fun _ hmem => absurd hmem List.not_mem_nil

theorem Tracked.roots_evolve (h : Tracked s) (hevolves : Evolves s.db next) :
    ∀ tree ∈ next.trees, ∀ rootId ∈ tree.rootId, rootId ∈ next.nodeIds := by
  intro tree' htree' rootId hroot
  rcases hevolves.trees tree' htree' with ⟨-, hnone⟩ | ⟨tree, htree, hmoved⟩
  · rw [hnone] at hroot
    cases hroot
  · rcases hmoved.root with hsame | ⟨newRoot, hnew, hmem, -⟩
    · rw [hsame] at hroot
      exact hevolves.subset (h.roots tree htree rootId hroot)
    · rw [hnew] at hroot
      exact Option.some.inj hroot ▸ hmem

/-- A step with the tree that its hook serves, when there is one. -/
theorem step_cases (env : ProfileEnv) (h : Tracked s) (hmints : Mints s op) :
    (step env s op = ⟨(transact env.config s.db op).1, s.artifacts⟩ ∧
      ∀ tree ∈ (transact env.config s.db op).1.trees, tree.kind = .flavoured →
        (transact env.config s.db op).2 ≠ some tree.id) ∨
    ∃ tree ∈ (transact env.config s.db op).1.trees, tree.kind = .flavoured ∧
      (transact env.config s.db op).2 = some tree.id ∧
      ∃ artifact, Rendered env tree artifact ∧ step env s op =
        ⟨(transact env.config s.db op).1,
          Function.update s.artifacts (flavouredRootRelPath tree.scope) (some artifact)⟩ :=
  have hevolves := transact_evolves env.config hmints h.nodup h.keyed
  refresh_cases env _ _ hevolves.keyed (h.roots_evolve hevolves)

theorem Tracked.step (h : Tracked s) (hmints : Mints s op) : Tracked (step env s op) := by
  have hevolves := transact_evolves env.config hmints h.nodup h.keyed
  have hroots := h.roots_evolve hevolves
  rcases step_cases env h hmints with ⟨heq, -⟩ | ⟨tree, htree, -, -, written, hrendered, heq⟩
  · rw [heq]
    exact ⟨hevolves.nodup, hevolves.keyed, hroots, fun path artifact hfile rootId hmem =>
      hevolves.subset (h.artifacts path artifact hfile rootId hmem)⟩
  · rw [heq]
    refine ⟨hevolves.nodup, hevolves.keyed, hroots, fun path artifact hfile rootId hmem => ?_⟩
    dsimp only at hfile ⊢
    by_cases hpath : path = flavouredRootRelPath tree.scope
    · rw [hpath, Function.update_self] at hfile
      obtain rfl := Option.some.inj hfile
      rw [hrendered.rootId] at hmem
      exact hroots tree htree rootId hmem
    · rw [Function.update_of_ne hpath] at hfile
      exact hevolves.subset (h.artifacts path artifact hfile rootId hmem)

/-- A tree that kept its root has its profile in the artifacts from before. -/
theorem Compiled.kept (h : Compiled env s) (hkeyed : (s.db.trees.map Tree.id).Nodup)
    (hevolves : Evolves s.db next) {tree' : Tree} (htree' : tree' ∈ next.trees)
    (hkind : tree'.kind = .flavoured) (hkept : tree'.rootId = (s.db.getTree tree'.id).bind Tree.rootId)
    {rootId : String} (hroot : tree'.rootId = some rootId) :
    ∃ artifact, s.artifacts (flavouredRootRelPath tree'.scope) = some artifact ∧
      ProfileOf env tree' rootId artifact := by
  rcases hevolves.trees tree' htree' with ⟨-, hnone⟩ | ⟨tree, htree, hmoved⟩
  · rw [hnone] at hroot
    cases hroot
  · have hget : s.db.getTree tree'.id = some tree := hmoved.id.symm ▸ lookup_of_mem hkeyed htree
    rw [hget] at hkept
    obtain ⟨artifact, hfile, hprofile⟩ :=
      h.current tree htree (hmoved.kind ▸ hkind) rootId (hkept.symm.trans hroot)
    rw [hmoved.scope]
    exact ⟨artifact, hfile, hprofile.treeId.trans hmoved.id.symm, hprofile.scope.trans hmoved.scope.symm,
      hprofile.rootId, hprofile.body⟩

/-- A tree that did not keep its root has one that no artifact from before names. -/
theorem Tracked.left_behind (h : Tracked s) (hevolves : Evolves s.db next) {tree' : Tree}
    (htree' : tree' ∈ next.trees)
    (hmoved : tree'.rootId ≠ (s.db.getTree tree'.id).bind Tree.rootId) :
    ∃ rootId, tree'.rootId = some rootId ∧
      ∀ path artifact, s.artifacts path = some artifact → artifact.rootId ≠ some rootId := by
  rcases hevolves.trees tree' htree' with ⟨hget, hnone⟩ | ⟨tree, htree, hmove⟩
  · rw [hget, hnone] at hmoved
    exact absurd rfl hmoved
  · have hget : s.db.getTree tree'.id = some tree := hmove.id.symm ▸ lookup_of_mem h.keyed htree
    rw [hget] at hmoved
    obtain ⟨rootId, hroot, -, hnew⟩ := hmove.root.resolve_left hmoved
    exact ⟨rootId, hroot, fun path artifact hfile hnames =>
      hnew (h.artifacts path artifact hfile rootId hnames)⟩

theorem compiled_step (h : Tracked s) (hcompiled : Compiled env s) (hmints : Mints s op)
    (hkeeps : KeepsCompiled env s op) : Compiled env (step env s op) := by
  have hevolves := transact_evolves env.config hmints h.nodup h.keyed
  refine .of_current ?_
  rcases step_cases env h hmints with
    ⟨heq, hother⟩ | ⟨tree, htree, hkind, hhook, written, hrendered, heq⟩
  · rw [heq]
    intro tree' htree' hkind' rootId hroot
    have hkept := hkeeps tree' htree' hkind'
    rw [if_neg (hother tree' htree' hkind')] at hkept
    exact hcompiled.kept h.keyed hevolves htree' hkind' hkept hroot
  · rw [heq]
    have hwhole := hkeeps tree htree hkind
    rw [if_pos hhook] at hwhole
    intro tree' htree' hkind' rootId hroot
    dsimp only at htree' ⊢
    by_cases hid : tree'.id = tree.id
    · obtain rfl := eq_of_pk_eq hevolves.keyed htree' htree hid
      rw [Function.update_self]
      exact ⟨written, rfl, hrendered.treeId, hrendered.scope, hrendered.rootId.trans hroot,
        (hrendered.body rootId hroot).trans (hwhole.1 rootId hroot)⟩
    · have hpath := hwhole.2 tree' htree' ⟨hkind', hroot ▸ rfl⟩ hid
      rw [Function.update_of_ne hpath]
      have hkept := hkeeps tree' htree' hkind'
      rw [hhook, if_neg fun hsame => hid (Option.some.inj hsame).symm] at hkept
      exact hcompiled.kept h.keyed hevolves htree' hkind' hkept hroot

/-- A profile left behind stays behind: the new root is in no artifact from before, and what the hook
writes is for another tree. -/
theorem compiled_broken (h : Tracked s) (hmints : Mints s op) (hbad : ¬KeepsCompiled env s op) :
    ¬Compiled env (step env s op) := by
  have hevolves := transact_evolves env.config hmints h.nodup h.keyed
  intro hcompiled
  refine hbad fun tree' htree' hkind' => ?_
  rcases step_cases env h hmints with
    ⟨heq, hother⟩ | ⟨tree, htree, hkind, hhook, written, hrendered, heq⟩
  · rw [if_neg (hother tree' htree' hkind')]
    rw [heq] at hcompiled
    by_contra hmoved
    obtain ⟨rootId, hroot, hnot⟩ := h.left_behind hevolves htree' hmoved
    obtain ⟨artifact, hfile, hprofile⟩ := hcompiled.current tree' htree' hkind' rootId hroot
    exact hnot _ artifact hfile hprofile.rootId
  · rw [heq] at hcompiled
    have hwritten : ∀ other ∈ (transact env.config s.db op).1.trees, other.kind = .flavoured →
        ∀ rootId, other.rootId = some rootId →
        flavouredRootRelPath other.scope = flavouredRootRelPath tree.scope →
          ProfileOf env other rootId written := by
      intro other hother hkind'' rootId hroot hpath
      obtain ⟨artifact, hfile, hprofile⟩ := hcompiled.current other hother hkind'' rootId hroot
      dsimp only at hfile
      rw [hpath, Function.update_self] at hfile
      exact Option.some.inj hfile ▸ hprofile
    split_ifs with hsame
    · obtain rfl : tree = tree' :=
        eq_of_pk_eq hevolves.keyed htree htree' (Option.some.inj (hhook.symm.trans hsame))
      refine ⟨fun rootId hroot => ?_, fun other hother hrooted hid hpath => ?_⟩
      · rw [← hrendered.body rootId hroot]
        exact (hwritten tree htree hkind rootId hroot rfl).body
      · obtain ⟨rootId, hroot⟩ := Option.isSome_iff_exists.mp hrooted.2
        have hprofile := hwritten other hother hrooted.1 rootId hroot hpath
        exact hid (hprofile.treeId.symm.trans hrendered.treeId)
    · by_contra hmoved
      obtain ⟨rootId, hroot, hnot⟩ := h.left_behind hevolves htree' hmoved
      by_cases hpath : flavouredRootRelPath tree'.scope = flavouredRootRelPath tree.scope
      · have hprofile := hwritten tree' htree' hkind' rootId hroot hpath
        refine hsame (hhook.trans (congrArg some ?_))
        exact hrendered.treeId.symm.trans hprofile.treeId
      · obtain ⟨artifact, hfile, hprofile⟩ := hcompiled.current tree' htree' hkind' rootId hroot
        dsimp only at hfile
        rw [Function.update_of_ne hpath] at hfile
        exact hnot _ artifact hfile hprofile.rootId

/-- In every run every artifact is the profile of its tree's current root exactly when no operation leaves
one behind. -/
theorem compiled_run_iff (env : ProfileEnv) (ops : List Op) (hmints : (machine env).AllSteps Mints ops) :
    (machine env).Throughout (Compiled env) ops ↔ (machine env).AllSteps (KeepsCompiled env) ops := by
  have hstart : Compiled env (machine env).start := compiled_empty env
  rw [(machine env).throughout_iff_allSteps, and_iff_right hstart]
  refine (machine env).allSteps_iff_of_guard (fun s => Tracked s ∧ Compiled env s)
    ⟨tracked_empty, hstart⟩ ?_ ?_ hmints
  · rintro s op ⟨h, hcompiled⟩ hlegal hkeeps
    have hnext := compiled_step h hcompiled hlegal hkeeps
    exact ⟨⟨h.step hlegal, hnext⟩, hnext⟩
  · rintro s op ⟨h, -⟩ hlegal hbad
    exact compiled_broken h hlegal hbad

/-- A token for each character. -/
def plainEnv : ProfileEnv := ⟨⟨10, 10, 2⟩, 100, String.length, fun id => "text of " ++ id ++ "\n"⟩

/-- A leaf that fills its buffer: the cascade seals and compiles. -/
def appendedLeaf : List Op :=
  [.createTree "tree-1" .flavoured "Chat: Ann", .persist ⟨"chunk-1", .chat, "ann", none, 0, 0, 0, 10, 0, .admitted⟩,
    .appendLeaf "tree-1" "chunk-1" 10 5 [some ⟨"summary-1", 5, 6⟩]]

/-- A summary that becomes the root: there is nothing for the cascade to seal. -/
def ingestedRoot : List Op :=
  [.createTree "tree-1" .flavoured "Chat: Ann",
    .ingestSummary ⟨"tree-1", 5, 1, 2, ["chunk-1"]⟩ ⟨"summary-1", 5, 6⟩ []]

theorem compiled_run_iff_appendedLeaf : (machine plainEnv).Throughout (Compiled plainEnv) appendedLeaf := by
  refine (compiled_run_iff plainEnv appendedLeaf ?_).mpr ?_
  · exact (Machine.allSteps_iff_stepsFrom _).mpr (by decide)
  · exact (Machine.allSteps_iff_stepsFrom _).mpr (by decide)

theorem ingestedRoot_not_compiled :
    ¬∀ env ops, (machine env).AllSteps Mints ops → (machine env).Throughout (Compiled env) ops := by
  intro hall
  have hmints : (machine plainEnv).AllSteps Mints ingestedRoot :=
    (Machine.allSteps_iff_stepsFrom _).mpr (by decide)
  have hcompiled := hall plainEnv ingestedRoot hmints ingestedRoot List.prefix_rfl
  obtain ⟨artifact, hfile, -⟩ := hcompiled.current
    ⟨"tree-1", .flavoured, "Chat: Ann", some "summary-1", 1, .active, some 6⟩ (by decide) rfl "summary-1" rfl
  have hnone : ((machine plainEnv).run ingestedRoot).artifacts (flavouredRootRelPath "Chat: Ann") = none := by
    decide
  rw [hnone] at hfile
  cases hfile

end Profiles
end TinyCortex.SummaryTree
