import TinyCortex.Retrieval.DrillDown

/-! What `drill_down` returns, against what it should: every live descendant within reach, unless a newer
version of its document is there too. Every node of a document subtree carries the document's id and
version, so the mark that keeps a second copy of a document out keeps the rest of its subtree out, and an
old version nearer the start than the new one is emitted before the new one is seen. -/

namespace TinyCortex.Retrieval

open Chunks SummaryTree Descent

variable {ρ σ : Type*} {embedder : Embedder ρ σ} {db : Db} {rootScope start : String}

/-! ### The levels of a walk -/

/-- Where a walk stands before a level. -/
structure Frontier where
  ids : List String
  newest : String → Option Int
  emitted : List String

def Frontier.noted (db : Db) (f : Frontier) : String → Option Int :=
  f.ids.foldl (noteVersion db) f.newest

def Frontier.level (embedder : Embedder ρ σ) (db : Db) (rootScope : String) (f : Frontier) : Walked ρ :=
  walkLevel embedder db rootScope (f.noted db) true f.ids [] f.emitted

/-- The ids that a level emits. -/
def Frontier.visited (embedder : Embedder ρ σ) (db : Db) (rootScope : String) (f : Frontier) :
    List String := (f.level embedder db rootScope).hits.map fun hit => hit.1.nodeId

def Frontier.after (embedder : Embedder ρ σ) (db : Db) (rootScope : String) (f : Frontier) : Frontier :=
  ⟨(f.level embedder db rootScope).next, f.noted db, (f.level embedder db rootScope).emitted⟩

/-- The frontier below a start, a number of levels down. -/
def frontier (embedder : Embedder ρ σ) (db : Db) (rootScope start : String) (depth : Nat) : Frontier :=
  (Frontier.after embedder db rootScope)^[depth] ⟨db.childIdsOf start, fun _ => none, []⟩

theorem frontier_succ (depth : Nat) : frontier embedder db rootScope start (depth + 1) =
    (frontier embedder db rootScope start depth).after embedder db rootScope :=
  Function.iterate_succ_apply' _ _ _

/-- The last level gathers no children, which changes none of its hits. -/
theorem walkLevel_hits (newest : String → Option Int) (deeper : Bool)
    (ids taken emitted : List String) :
    (walkLevel embedder db rootScope newest deeper ids taken emitted).hits =
      (walkLevel embedder db rootScope newest true ids taken emitted).hits := by
  induction ids generalizing taken emitted with
  | nil => rfl
  | cons id ids ih =>
      rw [walkLevel, walkLevel]
      by_cases htaken : id ∈ taken
      · rw [if_pos htaken, if_pos htaken, ih]
      · rw [if_neg htaken, if_neg htaken]
        cases db.getSummary id with
        | some summary =>
            dsimp only
            by_cases hover : passedOver newest emitted summary
            · rw [if_pos hover, if_pos hover, ih]
            · rw [if_neg hover, if_neg hover, ih]
        | none =>
            cases db.getChunk id with
            | some chunk => simp only [ih]
            | none => exact ih _ _

theorem visited_of_empty {f : Frontier} (h : f.ids = []) (depth : Nat) :
    ((Frontier.after embedder db rootScope)^[depth] f).visited embedder db rootScope = [] := by
  induction depth generalizing f with
  | zero => rw [Function.iterate_zero_apply, Frontier.visited, Frontier.level, h]; rfl
  | succ depth ih =>
      rw [Function.iterate_succ_apply]
      refine ih ?_
      rw [Frontier.after, Frontier.level, h]
      rfl

theorem walkFrom_ids (embedder : Embedder ρ σ) (db : Db) (rootScope : String) (remaining : Nat)
    (f : Frontier) :
    (walkFrom embedder db rootScope remaining f.ids f.newest f.emitted).map (fun hit => hit.1.nodeId) =
      (List.range remaining).flatMap fun depth =>
        ((Frontier.after embedder db rootScope)^[depth] f).visited embedder db rootScope := by
  induction remaining generalizing f with
  | zero => rfl
  | succ remaining ih =>
      by_cases hids : f.ids = []
      · rw [walkFrom, if_pos hids, List.map_nil, eq_comm, List.flatMap_eq_nil_iff]
        exact fun depth _ => visited_of_empty hids depth
      · have hrest := ih (f.after embedder db rootScope)
        rw [walkFrom, if_neg hids, List.range_succ_eq_map, List.flatMap_cons, List.flatMap_map,
          List.map_append, walkLevel_hits]
        refine congrArg₂ (· ++ ·) rfl ?_
        cases remaining with
        | zero => rfl
        | succ remaining => exact hrest

theorem walked_ids (embedder : Embedder ρ σ) (db : Db) (start : String) (maxDepth : Nat) :
    ∃ rootScope, (walkWithEmbeddings embedder db start maxDepth).map (fun hit => hit.1.nodeId) =
      (List.range maxDepth).flatMap fun depth =>
        (frontier embedder db rootScope start depth).visited embedder db rootScope := by
  have hchildren := db.childIdsOf_getSummary start
  rw [walkWithEmbeddings]
  cases hget : db.getSummary start with
  | none =>
      rw [hget] at hchildren
      refine ⟨"", ?_⟩
      rw [List.map_nil, eq_comm, List.flatMap_eq_nil_iff]
      exact fun depth _ => visited_of_empty hchildren depth
  | some root =>
      rw [hget] at hchildren
      refine ⟨((db.getTree root.treeId).map Tree.scope).getD "", ?_⟩
      simp only [frontier, hchildren]
      exact walkFrom_ids embedder db _ maxDepth ⟨root.childIds, fun _ => none, []⟩

/-! ### What the levels hold -/

def nodeRank (db : Db) (id : String) : Nat :=
  match db.getSummary id with
  | some summary => summary.level
  | none => 0

/-- Below the start the rows form a tree, and the summaries under a node of a document version belong to
that version. -/
structure WellFormed (db : Db) (start : String) : Prop where
  treelike : Treelike db.childIdsOf (nodeRank db) start
  documents : ∀ p id key, Below db.childIdsOf start p → id ∈ db.childIdsOf p →
    docOf db p = some key → (db.getSummary id).isSome → docOf db id = some key

/-- A walk level by level: which ids stand on a level and which of them are emitted. -/
structure WalkFacts (db : Db) (start : String) (ids visited : Nat → List String) : Prop where
  first : ids 0 = db.childIdsOf start
  next : ∀ n, ids (n + 1) = (visited n).flatMap db.childIdsOf
  inTree : ∀ n, (ids n).Sublist (descend db.childIdsOf (n + 1) start)
  sublist : ∀ n, (visited n).Sublist (ids n)
  live : ∀ n, ∀ id ∈ visited n, isLive db id = true
  single : ∀ m n, ∀ id ∈ visited m, ∀ other ∈ visited n, ∀ docId versionMs otherMs,
    docOf db id = some (docId, versionMs) → docOf db other = some (docId, otherMs) → id = other
  newest : ∀ m n, m ≤ n → ∀ id ∈ visited n, ∀ other ∈ ids m, isLive db other = true →
    ∀ docId versionMs otherMs, docOf db id = some (docId, versionMs) →
      docOf db other = some (docId, otherMs) → otherMs ≤ versionMs
  complete : ∀ n, ∀ id ∈ ids n, isLive db id = true → id ∈ visited n ∨
    ∃ docId versionMs, docOf db id = some (docId, versionMs) ∧
      ((∃ m ≤ n, ∃ other ∈ ids m, isLive db other = true ∧ ∃ otherMs,
          docOf db other = some (docId, otherMs) ∧ versionMs < otherMs) ∨
        ∃ m ≤ n, ∃ other ∈ visited m, ∃ otherMs, docOf db other = some (docId, otherMs))
  present : ∀ n, ∀ id ∈ ids n, isLive db id = true → ∀ docId versionMs,
    docOf db id = some (docId, versionMs) →
      ∃ m ≤ n, ∃ other ∈ visited m, ∃ otherMs, docOf db other = some (docId, otherMs)

section Frontiers

variable (embedder db rootScope start)

theorem frontier_spec_of_nodup (depth : Nat)
    (hnodup : (frontier embedder db rootScope start depth).ids.Nodup) :
    LevelSpec db ((frontier embedder db rootScope start depth).noted db)
      (frontier embedder db rootScope start depth).ids
      (frontier embedder db rootScope start depth).emitted
      ((frontier embedder db rootScope start depth).visited embedder db rootScope)
      (frontier embedder db rootScope start (depth + 1)).ids
      (frontier embedder db rootScope start (depth + 1)).emitted := by
  rw [frontier_succ]
  exact walkLevel_spec _ [] _ hnodup fun _ _ => List.not_mem_nil

/-- The levels of a walk are parts of the levels of the tree. -/
theorem frontier_sublist (htree : Treelike db.childIdsOf (nodeRank db) start) (depth : Nat) :
    (frontier embedder db rootScope start depth).ids.Sublist
      (descend db.childIdsOf (depth + 1) start) := by
  induction depth with
  | zero =>
      rw [descend_succ, descend, List.flatMap_singleton]
      exact List.Sublist.refl _
  | succ depth ih =>
      have hspec := frontier_spec_of_nodup embedder db rootScope start depth
        ((htree.descend_nodup (depth + 1)).sublist ih)
      rw [hspec.next, descend_succ]
      exact (hspec.sublist.trans ih).flatMap _

/-- The ids on a level of the walk, and those it emits. -/
def levelIds (depth : Nat) : List String := (frontier embedder db rootScope start depth).ids

def levelVisited (depth : Nat) : List String :=
  (frontier embedder db rootScope start depth).visited embedder db rootScope

theorem noted_level (depth : Nat) :
    Newest (liveDocOf db) (frontier embedder db rootScope start depth).newest
      (levelIds embedder db rootScope start depth)
      ((frontier embedder db rootScope start depth).noted db) := noted_newest _ _

variable {db start}

theorem level_spec (htree : Treelike db.childIdsOf (nodeRank db) start) (depth : Nat) :
    LevelSpec db ((frontier embedder db rootScope start depth).noted db)
      (levelIds embedder db rootScope start depth)
      (frontier embedder db rootScope start depth).emitted
      (levelVisited embedder db rootScope start depth)
      (levelIds embedder db rootScope start (depth + 1))
      (frontier embedder db rootScope start (depth + 1)).emitted :=
  frontier_spec_of_nodup embedder db rootScope start depth
    ((htree.descend_nodup (depth + 1)).sublist (frontier_sublist embedder db rootScope start htree depth))

/-- The documents marked before a level are those of the summaries emitted above it. -/
theorem mem_emitted (htree : Treelike db.childIdsOf (nodeRank db) start) (depth : Nat) (docId : String) :
    docId ∈ (frontier embedder db rootScope start depth).emitted ↔
      ∃ m < depth, ∃ id ∈ levelVisited embedder db rootScope start m, ∃ versionMs,
        docOf db id = some (docId, versionMs) := by
  induction depth with
  | zero => simp [frontier]
  | succ depth ih =>
      rw [(level_spec embedder rootScope htree depth).marked, ih]
      constructor
      · rintro (⟨m, hm, h⟩ | h)
        · exact ⟨m, Nat.lt_succ_of_lt hm, h⟩
        · exact ⟨depth, Nat.lt_succ_self _, h⟩
      · rintro ⟨m, hm, h⟩
        rcases Nat.lt_succ_iff_lt_or_eq.mp hm with hlt | rfl
        · exact Or.inl ⟨m, hlt, h⟩
        · exact Or.inr h

/-- The versions noted at a level bound the live rows down to it, and each comes from one. -/
theorem noted_bound (depth : Nat) : ∀ m ≤ depth, ∀ id ∈ levelIds embedder db rootScope start m,
    isLive db id = true → ∀ docId versionMs, docOf db id = some (docId, versionMs) →
      ∃ notedMs, (frontier embedder db rootScope start depth).noted db docId = some notedMs ∧
        versionMs ≤ notedMs := by
  have hnoted := noted_level embedder db rootScope start
  induction depth with
  | zero =>
      intro m hm id hid hlive docId versionMs hdoc
      obtain rfl := Nat.le_zero.mp hm
      exact (hnoted 0).bound id hid docId versionMs (liveDocOf_eq_some.mpr ⟨hlive, hdoc⟩)
  | succ depth ih =>
      intro m hm id hid hlive docId versionMs hdoc
      rcases Nat.le_succ_iff.mp hm with hle | rfl
      · obtain ⟨midMs, hmid, hle'⟩ := ih m hle id hid hlive docId versionMs hdoc
        have hnewest : (frontier embedder db rootScope start (depth + 1)).newest docId = some midMs := by
          rw [frontier_succ]
          exact hmid
        obtain ⟨notedMs, h, hle''⟩ := (hnoted (depth + 1)).mono docId midMs hnewest
        exact ⟨notedMs, h, hle'.trans hle''⟩
      · exact (hnoted (depth + 1)).bound id hid docId versionMs (liveDocOf_eq_some.mpr ⟨hlive, hdoc⟩)

theorem noted_origin (depth : Nat) (docId : String) (notedMs : Int)
    (h : (frontier embedder db rootScope start depth).noted db docId = some notedMs) :
    ∃ m ≤ depth, ∃ id ∈ levelIds embedder db rootScope start m, isLive db id = true ∧
      docOf db id = some (docId, notedMs) := by
  have hnoted := noted_level embedder db rootScope start
  induction depth with
  | zero =>
      rcases (hnoted 0).origin docId notedMs h with hnone | ⟨id, hid, hrest⟩
      · cases hnone
      · exact ⟨0, le_rfl, id, hid, liveDocOf_eq_some.mp hrest⟩
  | succ depth ih =>
      rcases (hnoted (depth + 1)).origin docId notedMs h with hold | ⟨id, hid, hrest⟩
      · rw [frontier_succ] at hold
        obtain ⟨m, hm, hrest⟩ := ih hold
        exact ⟨m, Nat.le_succ_of_le hm, hrest⟩
      · exact ⟨depth + 1, le_rfl, id, hid, liveDocOf_eq_some.mp hrest⟩

theorem level_complete (htree : Treelike db.childIdsOf (nodeRank db) start) (n : Nat) (id : String)
    (hid : id ∈ levelIds embedder db rootScope start n) (hlive : isLive db id = true) :
    id ∈ levelVisited embedder db rootScope start n ∨
      ∃ docId versionMs, docOf db id = some (docId, versionMs) ∧
        ((∃ m ≤ n, ∃ other ∈ levelIds embedder db rootScope start m, isLive db other = true ∧
            ∃ otherMs, docOf db other = some (docId, otherMs) ∧ versionMs < otherMs) ∨
          ∃ m ≤ n, ∃ other ∈ levelVisited embedder db rootScope start m, ∃ otherMs,
            docOf db other = some (docId, otherMs)) := by
  refine ((level_spec embedder rootScope htree n).complete id hid hlive).imp_right ?_
  rintro ⟨docId, versionMs, hdoc, hwhy⟩
  refine ⟨docId, versionMs, hdoc, hwhy.imp ?_ ?_⟩
  · rintro ⟨newestMs, hnewest, hlt⟩
    obtain ⟨m, hm, other, hother, hotherLive, hotherDoc⟩ :=
      noted_origin embedder rootScope n docId newestMs hnewest
    exact ⟨m, hm, other, hother, hotherLive, newestMs, hotherDoc, hlt⟩
  · intro hmarked
    obtain ⟨m, hm, hrest⟩ := (mem_emitted embedder rootScope htree (n + 1) docId).mp hmarked
    exact ⟨m, Nat.le_of_lt_succ hm, hrest⟩

theorem walkFacts (htree : Treelike db.childIdsOf (nodeRank db) start) :
    WalkFacts db start (levelIds embedder db rootScope start)
      (levelVisited embedder db rootScope start) where
  first := rfl
  next := fun n => (level_spec embedder rootScope htree n).next
  inTree := frontier_sublist embedder db rootScope start htree
  sublist := fun n => (level_spec embedder rootScope htree n).sublist
  live := fun n id hid => ((level_spec embedder rootScope htree n).chosen id hid).1
  single := by
    have hearlier : ∀ m n, m < n → ∀ id ∈ levelVisited embedder db rootScope start m,
        ∀ other ∈ levelVisited embedder db rootScope start n, ∀ docId versionMs otherMs,
        docOf db id = some (docId, versionMs) → docOf db other ≠ some (docId, otherMs) := by
      intro m n hlt id hid other hother docId versionMs otherMs hdoc hdoc'
      refine (((level_spec embedder rootScope htree n).chosen other hother).2 docId otherMs hdoc').1 ?_
      exact (mem_emitted embedder rootScope htree n docId).mpr ⟨m, hlt, id, hid, versionMs, hdoc⟩
    intro m n id hid other hother docId versionMs otherMs hdoc hdoc'
    rcases Nat.lt_trichotomy m n with hlt | rfl | hlt
    · exact absurd hdoc' (hearlier m n hlt id hid other hother docId versionMs otherMs hdoc)
    · exact (level_spec embedder rootScope htree m).single id hid other hother docId versionMs otherMs
        hdoc hdoc'
    · exact absurd hdoc (hearlier n m hlt other hother id hid docId otherMs versionMs hdoc')
  newest := by
    intro m n hle id hid other hother hlive docId versionMs otherMs hdoc hdoc'
    obtain ⟨notedMs, hnoted, hbound⟩ :=
      noted_bound embedder rootScope n m hle other hother hlive docId otherMs hdoc'
    exact hbound.trans ((((level_spec embedder rootScope htree n).chosen id hid).2 docId versionMs
      hdoc).2 notedMs hnoted)
  complete := fun n => level_complete embedder rootScope htree n
  present := by
    -- the row whose version is the newest one noted is emitted, unless the document was
    intro n id hid hlive docId versionMs hdoc
    obtain ⟨newestMs, hnewest, -⟩ :=
      noted_bound embedder rootScope n n le_rfl id hid hlive docId versionMs hdoc
    obtain ⟨m, hm, best, hbest, hbestLive, hbestDoc⟩ :=
      noted_origin embedder rootScope n docId newestMs hnewest
    rcases level_complete embedder rootScope htree m best hbest hbestLive with
      hvisited | ⟨otherDoc, otherMs, hother, hnewer | ⟨k, hk, hrest⟩⟩
    · exact ⟨m, hm, best, hvisited, newestMs, hbestDoc⟩
    · obtain ⟨rfl, rfl⟩ := Prod.mk.inj (Option.some.inj (hbestDoc.symm.trans hother))
      obtain ⟨k, hk, newer, hnewer, hnewerLive, newerMs, hnewerDoc, hlt⟩ := hnewer
      obtain ⟨notedMs, hnoted, hbound⟩ := noted_bound embedder rootScope n k (hk.trans hm) newer hnewer
        hnewerLive docId newerMs hnewerDoc
      obtain rfl := Option.some.inj (hnewest.symm.trans hnoted)
      exact absurd hbound (not_le.mpr hlt)
    · obtain ⟨rfl, rfl⟩ := Prod.mk.inj (Option.some.inj (hbestDoc.symm.trans hother))
      exact ⟨k, hk.trans hm, hrest⟩

end Frontiers

/-! ### What a drill-down is for -/

/-- The id is a summary of the document version, or a chunk under one. -/
def BelongsTo (db : Db) (start id docId : String) (versionMs : Int) : Prop :=
  docOf db id = some (docId, versionMs) ∨ db.getSummary id = none ∧
    ∃ p, Below db.childIdsOf start p ∧ id ∈ db.childIdsOf p ∧ docOf db p = some (docId, versionMs)

/-- A live summary of a newer version hangs under the start. -/
def Superseded (db : Db) (start docId : String) (versionMs : Int) : Prop :=
  ∃ depth, ∃ id ∈ descend db.childIdsOf (depth + 1) start, isLive db id = true ∧
    ∃ newerMs, docOf db id = some (docId, newerMs) ∧ versionMs < newerMs

/-- A live descendant within reach, of no superseded document version. -/
structure Expected (db : Db) (start : String) (maxDepth : Nat) (id : String) : Prop where
  within : ∃ depth < maxDepth, id ∈ descend db.childIdsOf (depth + 1) start
  live : isLive db id = true
  current : ∀ docId versionMs, BelongsTo db start id docId versionMs →
    ¬Superseded db start docId versionMs

/-- Exactly the expected rows, each once. -/
def Complete (db : Db) (start : String) (maxDepth : Nat) (ids : List String) : Prop :=
  ids.Nodup ∧ ∀ id, id ∈ ids ↔ Expected db start maxDepth id

/-- The descendants with live summaries only between them and the start. -/
def exposed (db : Db) (start : String) : Nat → List String
  | 0 => db.childIdsOf start
  | depth + 1 => ((exposed db start depth).filter (isLive db)).flatMap db.childIdsOf

/-- No deleted summary stands above an expected row; a document has one summary of its newest version
within reach; and no outdated version of it is nearer than that one. -/
structure Unshadowed (db : Db) (start : String) (maxDepth : Nat) : Prop where
  exposed : ∀ depth < maxDepth, ∀ id ∈ descend db.childIdsOf (depth + 1) start,
    Expected db start maxDepth id → id ∈ exposed db start depth
  single : ∀ id other, Expected db start maxDepth id → Expected db start maxDepth other →
    ∀ docId versionMs otherMs, docOf db id = some (docId, versionMs) →
      docOf db other = some (docId, otherMs) → id = other
  nearest : ∀ depth < maxDepth, ∀ id ∈ Retrieval.exposed db start depth, isLive db id = true →
    ∀ docId versionMs, docOf db id = some (docId, versionMs) → Superseded db start docId versionMs →
      ∃ m ≤ depth, ∃ other ∈ Retrieval.exposed db start m, isLive db other = true ∧
        ∃ otherMs, docOf db other = some (docId, otherMs) ∧ ¬Superseded db start docId otherMs

section Trees

variable {ids visited : Nat → List String} {maxDepth n : Nat} {id p docId : String} {versionMs : Int}

theorem getSummary_of_doc (h : docOf db id = some (docId, versionMs)) : (db.getSummary id).isSome := by
  obtain ⟨summary, hget, -⟩ := docOf_eq_some.mp h
  rw [hget]
  rfl

theorem getSummary_of_child (h : id ∈ db.childIdsOf p) : (db.getSummary p).isSome := by
  rw [db.childIdsOf_getSummary] at h
  cases hget : db.getSummary p with
  | none => rw [hget] at h; exact absurd h List.not_mem_nil
  | some summary => rfl

theorem exposed_subset : exposed db start n ⊆ descend db.childIdsOf (n + 1) start := by
  induction n with
  | zero =>
      rw [descend_succ, descend, List.flatMap_singleton]
      exact List.Subset.refl _
  | succ n ih =>
      intro id hid
      obtain ⟨p, hp, hchild⟩ := List.mem_flatMap.mp hid
      exact mem_descend_succ.mpr ⟨p, ih (List.mem_filter.mp hp).1, hchild⟩

/-- Everything under a document node is of its version. -/
theorem WellFormed.doc_below (hwf : WellFormed db start) {key : String × Int}
    (hstart : docOf db start = some key) (hid : id ∈ descend db.childIdsOf n start)
    (hsummary : (db.getSummary id).isSome) : docOf db id = some key := by
  induction n generalizing id with
  | zero => exact (List.mem_singleton.mp hid) ▸ hstart
  | succ n ih =>
      obtain ⟨p, hp, hchild⟩ := mem_descend_succ.mp hid
      exact hwf.documents p id key (below_of_mem hp) hchild (ih hp (getSummary_of_child hchild)) hsummary

theorem WellFormed.not_superseded_start (hwf : WellFormed db start)
    (hstart : docOf db start = some (docId, versionMs)) : ¬Superseded db start docId versionMs := by
  rintro ⟨depth, id, hid, -, newerMs, hdoc, hlt⟩
  have hsame := hwf.doc_below hstart hid (getSummary_of_doc hdoc)
  obtain ⟨-, rfl⟩ := Prod.mk.inj (Option.some.inj (hsame.symm.trans hdoc))
  exact lt_irrefl _ hlt

/-- The live parent of an expected row is expected. -/
theorem Expected.parent (hwf : WellFormed db start) (h : Expected db start maxDepth id)
    (hp : p ∈ descend db.childIdsOf (n + 1) start) (hn : n < maxDepth) (hchild : id ∈ db.childIdsOf p)
    (hlive : isLive db p = true) : Expected db start maxDepth p where
  within := ⟨n, hn, hp⟩
  live := hlive
  current := by
    intro docId versionMs hbelongs
    rcases hbelongs with hdoc | ⟨hnone, -⟩
    · refine h.current docId versionMs ?_
      cases hget : db.getSummary id with
      | none => exact Or.inr ⟨hget, p, below_of_mem hp, hchild, hdoc⟩
      | some summary =>
          exact Or.inl (hwf.documents p id _ (below_of_mem hp) hchild hdoc (by rw [hget]; rfl))
    · have hsome := getSummary_of_child hchild
      rw [hnone] at hsome
      cases hsome

/-- A chunk belongs where its parent does. -/
theorem BelongsTo.parent (hwf : WellFormed db start) (hnone : db.getSummary id = none)
    (h : BelongsTo db start id docId versionMs) (hp : Below db.childIdsOf start p)
    (hchild : id ∈ db.childIdsOf p) : docOf db p = some (docId, versionMs) := by
  rcases h with hdoc | ⟨-, q, hq, hchild', hdoc⟩
  · have hsome := getSummary_of_doc hdoc
    rw [hnone] at hsome
    cases hsome
  · rwa [hwf.treelike.parent p q id hp hq hchild hchild']

namespace WalkFacts

variable (h : WalkFacts db start ids visited)

include h

theorem mem_succ : id ∈ ids (n + 1) ↔ ∃ p ∈ visited n, id ∈ db.childIdsOf p := by
  rw [h.next, List.mem_flatMap]

theorem subset_exposed : ids n ⊆ exposed db start n := by
  induction n with
  | zero => exact h.first ▸ List.Subset.refl _
  | succ n ih =>
      intro id hid
      obtain ⟨p, hp, hchild⟩ := h.mem_succ.mp hid
      refine List.mem_flatMap.mpr ⟨p, List.mem_filter.mpr ⟨?_, h.live n p hp⟩, hchild⟩
      exact ih ((h.sublist n).subset hp)

theorem visited_descend (hid : id ∈ visited n) : id ∈ descend db.childIdsOf (n + 1) start :=
  ((h.sublist n).trans (h.inTree n)).subset hid

/-- Every expected row of the levels down to `n` stands on its level of the walk. -/
def Reached (db : Db) (start : String) (maxDepth : Nat) (ids : Nat → List String) (n : Nat) : Prop :=
  ∀ m ≤ n, ∀ id ∈ descend db.childIdsOf (m + 1) start, Expected db start maxDepth id → id ∈ ids m

omit h in
theorem Reached.mono {m : Nat} (hr : Reached db start maxDepth ids n) (hle : m ≤ n) :
    Reached db start maxDepth ids m := fun k hk => hr k (hk.trans hle)

omit h in
theorem belongsTo_summary (hdoc : docOf db id = some (docId, versionMs)) {other : String}
    {otherMs : Int} (hb : BelongsTo db start id other otherMs) : other = docId ∧ otherMs = versionMs := by
  rcases hb with hsame | ⟨hnone, -⟩
  · exact Prod.mk.inj (Option.some.inj (hsame.symm.trans hdoc))
  · have hsome := getSummary_of_doc hdoc
    rw [hnone] at hsome
    cases hsome

/-- A summary that is emitted is of the newest version of its document. -/
theorem visited_current (hcond : Unshadowed db start maxDepth) (hn : n < maxDepth)
    (hr : Reached db start maxDepth ids n) (hid : id ∈ visited n)
    (hdoc : docOf db id = some (docId, versionMs)) : ¬Superseded db start docId versionMs := by
  intro hsuper
  obtain ⟨m, hm, other, hother, hlive, otherMs, hotherDoc, hnot⟩ :=
    hcond.nearest n hn id (h.subset_exposed ((h.sublist n).subset hid)) (h.live n id hid) docId versionMs
      hdoc hsuper
  have hexpected : Expected db start maxDepth other := by
    refine ⟨⟨m, hm.trans_lt hn, exposed_subset hother⟩, hlive, fun _ _ hb => ?_⟩
    obtain ⟨rfl, rfl⟩ := belongsTo_summary hotherDoc hb
    exact hnot
  have hle := h.newest m n hm id hid other (hr m hm other (exposed_subset hother) hexpected) hlive docId
    versionMs otherMs hdoc hotherDoc
  obtain ⟨depth, newer, hnewer, hnewerLive, newerMs, hnewerDoc, hlt⟩ := hsuper
  exact hnot ⟨depth, newer, hnewer, hnewerLive, newerMs, hnewerDoc, hle.trans_lt hlt⟩

/-- What a level emits is expected, as long as the expected rows get there. -/
theorem visited_expected (hwf : WellFormed db start) (hcond : Unshadowed db start maxDepth)
    (hn : n < maxDepth) (hr : Reached db start maxDepth ids n) (hid : id ∈ visited n) :
    Expected db start maxDepth id := by
  have hin := (h.sublist n).subset hid
  refine ⟨⟨n, hn, h.visited_descend hid⟩, h.live n id hid, fun docId versionMs hb => ?_⟩
  cases hget : db.getSummary id with
  | some summary =>
      have hdoc : docOf db id = some (docId, versionMs) := by
        refine hb.resolve_right fun hchunk => ?_
        rw [hget] at hchunk
        cases hchunk.1
      exact h.visited_current hcond hn hr hid hdoc
  | none =>
      cases n with
      | zero =>
          rw [h.first] at hin
          exact hwf.not_superseded_start (hb.parent hwf hget ⟨0, List.mem_singleton_self _⟩ hin)
      | succ n =>
          obtain ⟨p, hp, hchild⟩ := h.mem_succ.mp hin
          have hdoc := hb.parent hwf hget (below_of_mem (h.visited_descend hp)) hchild
          exact h.visited_current hcond (Nat.lt_of_succ_lt hn) (hr.mono (Nat.le_succ n)) hp hdoc

/-- What is expected and stands on a level is emitted there. -/
theorem expected_visited (hwf : WellFormed db start) (hcond : Unshadowed db start maxDepth)
    (hn : n < maxDepth) (hr : Reached db start maxDepth ids n)
    (hid : id ∈ descend db.childIdsOf (n + 1) start) (hexpected : Expected db start maxDepth id) :
    id ∈ visited n := by
  have hcurrent : ∀ docId versionMs, docOf db id = some (docId, versionMs) →
      ¬Superseded db start docId versionMs := fun _ _ hdoc => hexpected.current _ _ (Or.inl hdoc)
  rcases h.complete n id (hr n le_rfl id hid hexpected) hexpected.live with
    hvisited | ⟨docId, versionMs, hdoc, hnewer | ⟨m, hm, other, hother, otherMs, hotherDoc⟩⟩
  · exact hvisited
  · obtain ⟨m, -, other, hother, hlive, newerMs, hnewerDoc, hlt⟩ := hnewer
    exact absurd ⟨m, other, exposed_subset (h.subset_exposed hother), hlive, newerMs, hnewerDoc, hlt⟩
      (hcurrent docId versionMs hdoc)
  · have hboth := h.visited_expected hwf hcond (hm.trans_lt hn) (hr.mono hm) hother
    obtain rfl := hcond.single id other hexpected hboth docId versionMs otherMs hdoc hotherDoc
    have hdepth := hwf.treelike.depth_unique hid (h.visited_descend hother)
    obtain rfl := Nat.succ.inj hdepth
    exact hother

theorem reached (hwf : WellFormed db start) (hcond : Unshadowed db start maxDepth) (hn : n < maxDepth) :
    Reached db start maxDepth ids n := by
  induction n with
  | zero =>
      intro m hm id hid _
      obtain rfl := Nat.le_zero.mp hm
      rwa [h.first, ← List.flatMap_singleton db.childIdsOf start, ← descend, ← descend_succ]
  | succ n ih =>
      have hr := ih (Nat.lt_of_succ_lt hn)
      intro m hm id hid hexpected
      rcases Nat.le_succ_iff.mp hm with hle | rfl
      · exact hr m hle id hid hexpected
      · obtain ⟨p, hp, hchild⟩ := mem_descend_succ.mp hid
        obtain ⟨q, hq, hchild'⟩ := List.mem_flatMap.mp (hcond.exposed (n + 1) hn id hid hexpected)
        obtain ⟨hqin, hqlive⟩ := List.mem_filter.mp hq
        obtain rfl := hwf.treelike.parent p q id (below_of_mem hp)
          (below_of_mem (exposed_subset hqin)) hchild hchild'
        refine h.mem_succ.mpr ⟨p, ?_, hchild⟩
        exact h.expected_visited hwf hcond (Nat.lt_of_succ_lt hn) hr hp
          (hexpected.parent hwf hp (Nat.lt_of_succ_lt hn) hchild hqlive)

/-- On a level above which no live summary of the document is exposed, its summaries are not cut off. -/
theorem mem_of_exposed (hwf : WellFormed db start)
    (hfirst : ∀ m < n, ∀ other ∈ exposed db start m, isLive db other = true →
      ∀ otherMs, docOf db other ≠ some (docId, otherMs))
    (hid : id ∈ exposed db start n) (hsummary : (db.getSummary id).isSome)
    (hdoc : docOf db id = none ∨ ∃ versionMs, docOf db id = some (docId, versionMs)) : id ∈ ids n := by
  induction n generalizing id with
  | zero => exact h.first.symm ▸ hid
  | succ n ih =>
      obtain ⟨p, hp, hchild⟩ := List.mem_flatMap.mp hid
      obtain ⟨hin, hlive⟩ := List.mem_filter.mp hp
      have hnone : docOf db p = none := by
        by_contra hsome
        obtain ⟨key, hkey⟩ := Option.ne_none_iff_exists'.mp hsome
        have hsame := hwf.documents p id key (below_of_mem (exposed_subset hin)) hchild hkey hsummary
        rcases hdoc with hno | ⟨versionMs, hdoc⟩
        · rw [hno] at hsame
          cases hsame
        · obtain rfl := Option.some.inj (hsame.symm.trans hdoc)
          exact hfirst n (Nat.lt_succ_self n) p hin hlive versionMs hkey
      have hids := ih (fun m hm => hfirst m (Nat.lt_succ_of_lt hm)) hin (getSummary_of_child hchild)
        (Or.inl hnone)
      rcases h.complete n p hids hlive with hvisited | ⟨_, _, hsome, -⟩
      · exact h.mem_succ.mpr ⟨p, hvisited, hchild⟩
      · rw [hnone] at hsome
        cases hsome

/-- A document with a live exposed summary gets one of its summaries emitted, no deeper. -/
theorem document_visited (hwf : WellFormed db start) (hid : id ∈ exposed db start n)
    (hlive : isLive db id = true) (hdoc : docOf db id = some (docId, versionMs)) :
    ∃ m ≤ n, ∃ other ∈ visited m, ∃ otherMs, docOf db other = some (docId, otherMs) := by
  induction n using Nat.strong_induction_on generalizing id versionMs with
  | _ n ih =>
      by_cases hfirst : ∀ m < n, ∀ other ∈ exposed db start m, isLive db other = true →
          ∀ otherMs, docOf db other ≠ some (docId, otherMs)
      · exact h.present n id
          (h.mem_of_exposed hwf hfirst hid (getSummary_of_doc hdoc) (Or.inr ⟨_, hdoc⟩)) hlive docId
          versionMs hdoc
      · push Not at hfirst
        obtain ⟨m, hm, other, hother, hotherLive, otherMs, hotherDoc⟩ := hfirst
        obtain ⟨k, hk, hrest⟩ := ih m hm hother hotherLive hotherDoc
        exact ⟨k, hk.trans hm.le, hrest⟩

theorem walked_nodup (hwf : WellFormed db start) (maxDepth : Nat) :
    ((List.range maxDepth).flatMap visited).Nodup := by
  refine List.nodup_flatMap.mpr ⟨fun n _ => ?_, List.nodup_range.imp ?_⟩
  · exact (hwf.treelike.descend_nodup (n + 1)).sublist ((h.sublist n).trans (h.inTree n))
  · intro m n hne id hm hn
    exact hne (Nat.succ.inj (hwf.treelike.depth_unique (h.visited_descend hm) (h.visited_descend hn)))

/-- The walk is complete exactly when nothing is shadowed. -/
theorem complete_iff (hwf : WellFormed db start) (maxDepth : Nat) :
    Complete db start maxDepth ((List.range maxDepth).flatMap visited) ↔
      Unshadowed db start maxDepth := by
  constructor
  · rintro ⟨-, hiff⟩
    have hexpected : ∀ n < maxDepth, ∀ id ∈ visited n, Expected db start maxDepth id :=
      fun n hn id hid => (hiff id).mp (List.mem_flatMap.mpr ⟨n, List.mem_range.mpr hn, hid⟩)
    have hvisited : ∀ id, Expected db start maxDepth id → ∃ n < maxDepth, id ∈ visited n := by
      intro id h'
      obtain ⟨n, hn, hid⟩ := List.mem_flatMap.mp ((hiff id).mpr h')
      exact ⟨n, List.mem_range.mp hn, hid⟩
    refine ⟨?_, ?_, ?_⟩
    · intro depth _ id hid h'
      obtain ⟨n, -, hin⟩ := hvisited id h'
      obtain rfl := Nat.succ.inj (hwf.treelike.depth_unique hid (h.visited_descend hin))
      exact h.subset_exposed ((h.sublist depth).subset hin)
    · intro id other h' hother docId versionMs otherMs hdoc hotherDoc
      obtain ⟨m, -, hm⟩ := hvisited id h'
      obtain ⟨n, -, hn⟩ := hvisited other hother
      exact h.single m n id hm other hn docId versionMs otherMs hdoc hotherDoc
    · intro depth hdepth id hid hlive docId versionMs hdoc _
      obtain ⟨m, hm, other, hother, otherMs, hotherDoc⟩ := h.document_visited hwf hid hlive hdoc
      have h' := hexpected m (hm.trans_lt hdepth) other hother
      exact ⟨m, hm, other, h.subset_exposed ((h.sublist m).subset hother), h'.live, otherMs, hotherDoc,
        h'.current docId otherMs (Or.inl hotherDoc)⟩
  · intro hcond
    refine ⟨h.walked_nodup hwf maxDepth, fun id => ⟨fun hid => ?_, fun h' => ?_⟩⟩
    · obtain ⟨n, hn, hin⟩ := List.mem_flatMap.mp hid
      have hlt := List.mem_range.mp hn
      exact h.visited_expected hwf hcond hlt (h.reached hwf hcond hlt) hin
    · obtain ⟨n, hn, hin⟩ := h'.within
      refine List.mem_flatMap.mpr ⟨n, List.mem_range.mpr hn, ?_⟩
      exact h.expected_visited hwf hcond hn (h.reached hwf hcond hn) hin h'

end WalkFacts

end Trees

theorem Complete.perm {maxDepth : Nat} {ids other : List String} (hperm : ids.Perm other) :
    Complete db start maxDepth ids ↔ Complete db start maxDepth other := by
  simp only [Complete, hperm.nodup_iff, hperm.mem_iff]

theorem drillDown_perm (embedder : Embedder ρ σ) (db : Db) (start : String) (maxDepth : Nat)
    (query : Option String) :
    ((drillDown embedder db start maxDepth query none).map RetrievalHit.nodeId).Perm
      ((walkWithEmbeddings embedder db start maxDepth).map fun hit => hit.1.nodeId) := by
  unfold drillDown
  split_ifs with hzero
  · rw [hzero, walkWithEmbeddings]
    cases db.getSummary start with
    | none => exact List.Perm.refl _
    | some root => exact List.Perm.refl _
  · have hids : (walkWithEmbeddings embedder db start maxDepth).map (fun hit => hit.1.nodeId) =
        ((walkWithEmbeddings embedder db start maxDepth).map Prod.fst).map RetrievalHit.nodeId := by
      rw [List.map_map]
      rfl
    rw [hids]
    cases query with
    | none => exact List.Perm.refl _
    | some query => exact (rerank_perm embedder query _).map _

/-- A drill-down without a limit returns exactly the live descendants within reach that no newer version
supersedes, each once, exactly when nothing is shadowed. -/
theorem drillDown_complete_iff (embedder : Embedder ρ σ) (db : Db) (start : String) (maxDepth : Nat)
    (query : Option String) (hwf : WellFormed db start) :
    Complete db start maxDepth
        ((drillDown embedder db start maxDepth query none).map RetrievalHit.nodeId) ↔
      Unshadowed db start maxDepth := by
  obtain ⟨rootScope, hids⟩ := walked_ids embedder db start maxDepth
  rw [Complete.perm (drillDown_perm embedder db start maxDepth query), hids]
  exact (walkFacts embedder rootScope hwf.treelike).complete_iff hwf maxDepth

/-- The rows form a forest: a child has one parent row, which lists it once and is of a higher level, and
the summaries under a document node are of its version. -/
structure RowsWellFormed (db : Db) : Prop where
  children : ∀ s ∈ db.summaries, s.childIds.Nodup ∧ ∀ id ∈ s.childIds, nodeRank db id < s.level ∧
    ((docOf db s.id).isSome → (db.getSummary id).isSome → docOf db id = docOf db s.id)
  parent : ∀ s ∈ db.summaries, ∀ t ∈ db.summaries, ∀ id ∈ s.childIds, id ∈ t.childIds → s.id = t.id

instance (db : Db) : Decidable (RowsWellFormed db) :=
  decidable_of_iff
    ((∀ s ∈ db.summaries, s.childIds.Nodup ∧ ∀ id ∈ s.childIds, nodeRank db id < s.level ∧
      ((docOf db s.id).isSome → (db.getSummary id).isSome → docOf db id = docOf db s.id)) ∧
      ∀ s ∈ db.summaries, ∀ t ∈ db.summaries, ∀ id ∈ s.childIds, id ∈ t.childIds → s.id = t.id)
    ⟨fun h => ⟨h.1, h.2⟩, fun h => ⟨h.children, h.parent⟩⟩

theorem childIdsOf_row {p : String} (hne : db.childIdsOf p ≠ []) :
    ∃ s ∈ db.summaries, s.id = p ∧ db.getSummary p = some s ∧ db.childIdsOf p = s.childIds := by
  have hchildren := db.childIdsOf_getSummary p
  cases hget : db.getSummary p with
  | none => rw [hget] at hchildren; exact absurd hchildren hne
  | some s =>
      obtain ⟨hmem, hid⟩ := Table.lookup_mem hget
      exact ⟨s, hmem, hid, rfl, by rw [hchildren, hget]; rfl⟩

/-- Rows that form a forest are well formed below every start. -/
theorem RowsWellFormed.wellFormed (h : RowsWellFormed db) (start : String) : WellFormed db start where
  treelike :=
    { parent := by
        intro p q id _ _ hp hq
        obtain ⟨s, hs, rfl, -, heqs⟩ := childIdsOf_row (List.ne_nil_of_mem hp)
        obtain ⟨t, ht, rfl, -, heqt⟩ := childIdsOf_row (List.ne_nil_of_mem hq)
        exact h.parent s hs t ht id (heqs ▸ hp) (heqt ▸ hq)
      nodup := by
        intro p _
        by_cases hne : db.childIdsOf p = []
        · rw [hne]
          exact List.nodup_nil
        · obtain ⟨s, hs, rfl, -, heq⟩ := childIdsOf_row hne
          exact heq.symm ▸ (h.children s hs).1
      falls := by
        intro p id _ hid
        obtain ⟨s, hs, rfl, hget, heq⟩ := childIdsOf_row (List.ne_nil_of_mem hid)
        have hlt := ((h.children s hs).2 id (heq ▸ hid)).1
        rwa [nodeRank, nodeRank, hget] }
  documents := by
    intro p id key _ hid hdoc hsummary
    obtain ⟨s, hs, rfl, -, heq⟩ := childIdsOf_row (List.ne_nil_of_mem hid)
    rw [((h.children s hs).2 id (heq ▸ hid)).2 (by rw [hdoc]; rfl) hsummary, hdoc]

/-- A provider that embeds nothing. -/
def inertEmbedder : Embedder Unit Unit := ⟨fun _ => none, fun _ => none, fun _ _ => (), fun _ _ => none⟩

def row (id : String) (level : Nat) (childIds : List String) (docId : Option String)
    (versionMs : Option Int) : SummaryNode :=
  ⟨id, "tree-1", level, none, childIds, 5, 0, 0, 0, false, docId, versionMs⟩

def leaf (id : String) : Chunk := ⟨id, .document, "doc-1", none, 0, 0, 0, 10, 0, .admitted⟩

/-- A merge summary over one document, sealed in two batches. -/
def twoBatchDocument : Db :=
  ⟨[⟨"tree-1", .source, "scope", none, 0, .active, none⟩], [leaf "chunk-1", leaf "chunk-2"],
    [row "batch-1" 1 ["chunk-1"] (some "doc-1") (some 1),
      row "batch-2" 1 ["chunk-2"] (some "doc-1") (some 1),
      row "root" 2 ["batch-1", "batch-2"] (some "doc-1") (some 1),
      row "merge" 1001 ["root"] none none], []⟩

theorem drillDown_complete_iff_twoBatchDocument :
    Complete twoBatchDocument "merge" 3
        ((drillDown inertEmbedder twoBatchDocument "merge" 3 none none).map RetrievalHit.nodeId) ↔
      Unshadowed twoBatchDocument "merge" 3 := by
  refine drillDown_complete_iff inertEmbedder twoBatchDocument "merge" 3 none ?_
  exact RowsWellFormed.wellFormed (by decide) "merge"

/-- Drilling into the merge summary returns the root alone: its batches carry the document it marked. -/
theorem twoBatchDocument_incomplete :
    ¬∀ (embedder : Embedder Unit Unit) db start maxDepth query, WellFormed db start →
      Complete db start maxDepth
        ((drillDown embedder db start maxDepth query none).map RetrievalHit.nodeId) := by
  intro hall
  have hwf : WellFormed twoBatchDocument "merge" := RowsWellFormed.wellFormed (by decide) "merge"
  obtain ⟨-, hiff⟩ := hall inertEmbedder twoBatchDocument "merge" 3 none hwf
  have hexpected : Expected twoBatchDocument "merge" 3 "batch-1" := by
    refine ⟨⟨1, by decide, by decide⟩, by decide, ?_⟩
    rintro docId versionMs hbelongs ⟨depth, id, -, -, newerMs, hnewer, hlt⟩
    have hversions : ∀ s ∈ twoBatchDocument.summaries, version s ≤ 1 := by decide
    obtain ⟨s, hget, -, rfl⟩ := docOf_eq_some.mp hnewer
    have hone : (docId, versionMs) = ("doc-1", 1) := by
      rcases hbelongs with hdoc | ⟨hnone, -⟩
      · exact (Option.some.inj hdoc).symm
      · cases hnone
    have hle := hversions s (Table.lookup_mem hget).1
    rw [(Prod.mk.inj hone).2] at hlt
    exact absurd hle (not_le.mpr hlt)
  exact absurd ((hiff "batch-1").mpr hexpected) (by decide)

end TinyCortex.Retrieval
