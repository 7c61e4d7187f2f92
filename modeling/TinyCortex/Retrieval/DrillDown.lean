import TinyCortex.Lib.Newest
import TinyCortex.Retrieval.Types

/-! `drill_down` (`retrieval/drill_down.rs`): a walk over `child_ids`, level by level. A summary of a
document is passed over when a newer version was seen, and when one summary of the document was
emitted before. -/

namespace TinyCortex.Retrieval

open Chunks SummaryTree

variable {ρ σ : Type*}

/-- The newest version of each document among the live summaries seen so far. -/
def noteVersion (db : Db) (newest : String → Option Int) (id : String) : String → Option Int :=
  match db.getSummary id with
  | none => newest
  | some summary =>
      match summary.deleted, summary.docId with
      | false, some docId => raiseTo newest docId (version summary)
      | _, _ => newest

/-- A deleted summary, an outdated one, or another one of a document that was emitted. -/
def passedOver (newest : String → Option Int) (emitted : List String) (summary : SummaryNode) : Bool :=
  summary.deleted ||
    match summary.docId with
    | none => false
    | some docId =>
        (match newest docId with
          | some newestMs => decide (version summary < newestMs)
          | none => false) || decide (docId ∈ emitted)

def markEmitted (emitted : List String) (summary : SummaryNode) : List String :=
  match summary.docId with
  | none => emitted
  | some docId => docId :: emitted

/-- What the walk of a level yields: its hits with their vectors, the next level, and the documents
emitted so far. -/
structure Walked (ρ : Type*) where
  hits : List (RetrievalHit × Option (List ρ))
  next : List String
  emitted : List String

/-- The loop over one level. A row that was taken out of the batch is not found a second time. -/
def walkLevel (embedder : Embedder ρ σ) (db : Db) (rootScope : String) (newest : String → Option Int)
    (deeper : Bool) : List String → List String → List String → Walked ρ
  | [], _, emitted => ⟨[], [], emitted⟩
  | id :: ids, taken, emitted =>
      if id ∈ taken then walkLevel embedder db rootScope newest deeper ids taken emitted
      else
        match db.getSummary id with
        | some summary =>
            if passedOver newest emitted summary then
              walkLevel embedder db rootScope newest deeper ids (id :: taken) emitted
            else
              let scope := ((db.getTree summary.treeId).map Tree.scope).getD rootScope
              let rest := walkLevel embedder db rootScope newest deeper ids (id :: taken)
                (markEmitted emitted summary)
              ⟨(hitFromSummary summary scope, embedder.stored id) :: rest.hits,
                (if deeper then summary.childIds else []) ++ rest.next, rest.emitted⟩
        | none =>
            match db.getChunk id with
            | some chunk =>
                let rest := walkLevel embedder db rootScope newest deeper ids (id :: taken) emitted
                ⟨(hitFromChunk chunk "" chunk.sourceId, embedder.stored id) :: rest.hits, rest.next,
                  rest.emitted⟩
            | none => walkLevel embedder db rootScope newest deeper ids (id :: taken) emitted

/-- The levels of the walk, as many as are left. -/
def walkFrom (embedder : Embedder ρ σ) (db : Db) (rootScope : String) :
    Nat → List String → (String → Option Int) → List String →
      List (RetrievalHit × Option (List ρ))
  | 0, _, _, _ => []
  | remaining + 1, ids, newest, emitted =>
      if ids = [] then []
      else
        let noted := ids.foldl (noteVersion db) newest
        let level := walkLevel embedder db rootScope noted (decide (0 < remaining)) ids [] emitted
        level.hits ++ walkFrom embedder db rootScope remaining level.next noted level.emitted

def walkWithEmbeddings (embedder : Embedder ρ σ) (db : Db) (startId : String) (maxDepth : Nat) :
    List (RetrievalHit × Option (List ρ)) :=
  match db.getSummary startId with
  | none => []
  | some root =>
      walkFrom embedder db (((db.getTree root.treeId).map Tree.scope).getD "") maxDepth root.childIds
        (fun _ => none) []

def drillDown (embedder : Embedder ρ σ) (db : Db) (nodeId : String) (maxDepth : Nat)
    (query : Option String) (limit : Option Nat) : List RetrievalHit :=
  if maxDepth = 0 then []
  else
    let walked := walkWithEmbeddings embedder db nodeId maxDepth
    let hits := match query with
      | some query => rerankBySemanticSimilarity embedder query walked
      | none => walked.map Prod.fst
    match limit with
    | some n => if n < hits.length then hits.take n else hits
    | none => hits

/-! ### One level -/

section Level

variable {db : Db} {newest : String → Option Int} {ids emitted : List String} {id docId : String}
  {versionMs : Int}

/-- The document and version of a summary. -/
def docOf (db : Db) (id : String) : Option (String × Int) :=
  (db.getSummary id).bind fun summary => summary.docId.map fun docId => (docId, version summary)

/-- A row that retrieval may return: a summary that is not deleted, or a chunk. -/
def isLive (db : Db) (id : String) : Bool :=
  match db.getSummary id with
  | some summary => !summary.deleted
  | none => (db.getChunk id).isSome

theorem docOf_eq_some : docOf db id = some (docId, versionMs) ↔
    ∃ summary, db.getSummary id = some summary ∧ summary.docId = some docId ∧
      version summary = versionMs := by
  simp only [docOf, Option.bind_eq_some_iff, Option.map_eq_some_iff, Prod.mk.injEq]
  constructor
  · rintro ⟨summary, hget, _, hdoc, rfl, rfl⟩
    exact ⟨summary, hget, hdoc, rfl⟩
  · rintro ⟨summary, hget, hdoc, rfl⟩
    exact ⟨summary, hget, docId, hdoc, rfl, rfl⟩

theorem passedOver_eq_false {summary : SummaryNode} (hget : db.getSummary id = some summary) :
    passedOver newest emitted summary = false ↔ isLive db id = true ∧
      ∀ docId versionMs, docOf db id = some (docId, versionMs) →
        docId ∉ emitted ∧ ∀ newestMs, newest docId = some newestMs → newestMs ≤ versionMs := by
  have hlive : isLive db id = !summary.deleted := by rw [isLive, hget]
  have hdoc : docOf db id = summary.docId.map fun docId => (docId, version summary) := by
    rw [docOf, hget]
    rfl
  rw [passedOver, hlive, hdoc]
  cases summary.docId with
  | none => simp
  | some docId =>
      cases hnewest : newest docId with
      | none => simp [hnewest]
      | some newestMs => simp [hnewest, and_comm]

theorem mem_markEmitted {summary : SummaryNode} (hget : db.getSummary id = some summary)
    (docId : String) : docId ∈ markEmitted emitted summary ↔
      docId ∈ emitted ∨ ∃ versionMs, docOf db id = some (docId, versionMs) := by
  rw [docOf, hget, markEmitted]
  cases hdoc : summary.docId with
  | none => simp [hdoc]
  | some found => simp [hdoc, or_comm, eq_comm]

/-- What the walk of a level does: it takes the live rows but the outdated and repeated documents, and
goes on to the children of what it took. -/
structure LevelSpec (db : Db) (newest : String → Option Int) (ids emitted visited next
    after : List String) : Prop where
  sublist : visited.Sublist ids
  next : next = visited.flatMap db.childIdsOf
  marked : ∀ docId, docId ∈ after ↔
    docId ∈ emitted ∨ ∃ id ∈ visited, ∃ versionMs, docOf db id = some (docId, versionMs)
  chosen : ∀ id ∈ visited, isLive db id = true ∧
    ∀ docId versionMs, docOf db id = some (docId, versionMs) →
      docId ∉ emitted ∧ ∀ newestMs, newest docId = some newestMs → newestMs ≤ versionMs
  single : ∀ id ∈ visited, ∀ other ∈ visited, ∀ docId versionMs otherMs,
    docOf db id = some (docId, versionMs) → docOf db other = some (docId, otherMs) → id = other
  complete : ∀ id ∈ ids, isLive db id = true → id ∈ visited ∨
    ∃ docId versionMs, docOf db id = some (docId, versionMs) ∧
      ((∃ newestMs, newest docId = some newestMs ∧ versionMs < newestMs) ∨ docId ∈ after)

variable {after next visited : List String} {embedder : Embedder ρ σ} {rootScope : String}

theorem LevelSpec.nil : LevelSpec db newest [] emitted [] [] emitted where
  sublist := List.nil_sublist _
  next := rfl
  marked := by simp
  chosen := fun _ h => absurd h List.not_mem_nil
  single := fun _ h => absurd h List.not_mem_nil
  complete := fun _ h => absurd h List.not_mem_nil

/-- A row that is not taken. -/
theorem LevelSpec.skip (h : LevelSpec db newest ids emitted visited next after)
    (hskip : isLive db id = true → ∃ docId versionMs, docOf db id = some (docId, versionMs) ∧
      ((∃ newestMs, newest docId = some newestMs ∧ versionMs < newestMs) ∨ docId ∈ emitted)) :
    LevelSpec db newest (id :: ids) emitted visited next after where
  sublist := h.sublist.trans (List.sublist_cons_self _ _)
  next := h.next
  marked := h.marked
  chosen := h.chosen
  single := h.single
  complete := by
    intro other hother hlive
    rcases List.mem_cons.mp hother with rfl | hrest
    · obtain ⟨docId, versionMs, hdoc, hwhy⟩ := hskip hlive
      exact Or.inr ⟨docId, versionMs, hdoc, hwhy.imp_right fun hin => (h.marked docId).mpr (Or.inl hin)⟩
    · exact h.complete other hrest hlive

/-- A row that is taken, under the documents it marks. -/
theorem LevelSpec.take {marks : List String}
    (h : LevelSpec db newest ids marks visited next after)
    (hmarks : ∀ docId, docId ∈ marks ↔
      docId ∈ emitted ∨ ∃ versionMs, docOf db id = some (docId, versionMs))
    (hlive : isLive db id = true)
    (hdoc : ∀ docId versionMs, docOf db id = some (docId, versionMs) →
      docId ∉ emitted ∧ ∀ newestMs, newest docId = some newestMs → newestMs ≤ versionMs) :
    LevelSpec db newest (id :: ids) emitted (id :: visited) (db.childIdsOf id ++ next) after where
  sublist := h.sublist.cons_cons _
  next := by rw [h.next, List.flatMap_cons]
  marked := by
    intro docId
    rw [h.marked, hmarks]
    simp only [List.mem_cons, exists_eq_or_imp]
    tauto
  chosen := by
    intro other hother
    rcases List.mem_cons.mp hother with rfl | hrest
    · exact ⟨hlive, hdoc⟩
    · refine ⟨(h.chosen other hrest).1, fun docId versionMs heq => ?_⟩
      obtain ⟨hnot, hnewest⟩ := (h.chosen other hrest).2 docId versionMs heq
      exact ⟨fun hin => hnot ((hmarks docId).mpr (Or.inl hin)), hnewest⟩
  single := by
    have hfirst : ∀ other ∈ visited, ∀ docId versionMs otherMs,
        docOf db id = some (docId, versionMs) → docOf db other ≠ some (docId, otherMs) := by
      intro other hother docId versionMs otherMs hid heq
      exact ((h.chosen other hother).2 docId otherMs heq).1 ((hmarks docId).mpr (Or.inr ⟨_, hid⟩))
    intro a ha b hb docId versionMs otherMs hda hdb
    rcases List.mem_cons.mp ha with rfl | ha'
    · rcases List.mem_cons.mp hb with rfl | hb'
      · rfl
      · exact absurd hdb (hfirst b hb' docId versionMs otherMs hda)
    · rcases List.mem_cons.mp hb with rfl | hb'
      · exact absurd hda (hfirst a ha' docId otherMs versionMs hdb)
      · exact h.single a ha' b hb' docId versionMs otherMs hda hdb
  complete := by
    intro other hother hlive'
    rcases List.mem_cons.mp hother with rfl | hrest
    · exact Or.inl List.mem_cons_self
    · exact (h.complete other hrest hlive').imp_left (List.mem_cons_of_mem _)

theorem walkLevel_spec (ids taken emitted : List String) (hnodup : ids.Nodup)
    (htaken : ∀ id ∈ ids, id ∉ taken) :
    let level := walkLevel embedder db rootScope newest true ids taken emitted
    LevelSpec db newest ids emitted (level.hits.map fun hit => hit.1.nodeId) level.next
      level.emitted := by
  induction ids generalizing taken emitted with
  | nil => exact .nil
  | cons id ids ih =>
      obtain ⟨hnot, hrest⟩ := List.nodup_cons.mp hnodup
      have hlater : ∀ other ∈ ids, other ∉ id :: taken := by
        intro other hother hin
        rcases List.mem_cons.mp hin with rfl | hin
        · exact hnot hother
        · exact htaken other (List.mem_cons_of_mem _ hother) hin
      dsimp only
      rw [walkLevel, if_neg (htaken id List.mem_cons_self)]
      have hchildren := db.childIdsOf_getSummary id
      cases hget : db.getSummary id with
      | none =>
          rw [hget] at hchildren
          have hdoc : docOf db id = none := by rw [docOf, hget]; rfl
          have hlive : isLive db id = (db.getChunk id).isSome := by rw [isLive, hget]
          cases hchunk : db.getChunk id with
          | none =>
              refine (ih (id :: taken) emitted hrest hlater).skip fun h => ?_
              rw [hlive, hchunk] at h
              cases h
          | some chunk =>
              have hid : chunk.id = id := (Table.lookup_mem hchunk).2
              have hmarks : ∀ docId, docId ∈ emitted ↔
                  docId ∈ emitted ∨ ∃ versionMs, docOf db id = some (docId, versionMs) := by
                simp [hdoc]
              have htake := (ih (id :: taken) emitted hrest hlater).take hmarks
                (by rw [hlive, hchunk]; rfl) fun _ _ h => by simp [hdoc] at h
              rw [hchildren] at htake
              simpa [hitFromChunk, hid] using htake
      | some summary =>
          rw [hget] at hchildren
          have hid : summary.id = id := (Table.lookup_mem hget).2
          dsimp only
          by_cases hover : passedOver newest emitted summary = true
          · rw [if_pos hover]
            refine (ih (id :: taken) emitted hrest hlater).skip fun hlive => ?_
            by_contra hno
            refine absurd hover (Bool.not_eq_true _ ▸ (passedOver_eq_false hget).mpr ⟨hlive, ?_⟩)
            refine fun docId versionMs hdoc => ⟨fun hin => hno ⟨_, _, hdoc, Or.inr hin⟩, ?_⟩
            exact fun newestMs hnewest => not_lt.mp fun hlt => hno ⟨_, _, hdoc, Or.inl ⟨_, hnewest, hlt⟩⟩
          · rw [if_neg hover]
            obtain ⟨hlive, hdoc⟩ := (passedOver_eq_false hget).mp (Bool.eq_false_of_not_eq_true hover)
            have htake := (ih (id :: taken) (markEmitted emitted summary) hrest hlater).take
              (mem_markEmitted hget) hlive hdoc
            rw [hchildren] at htake
            simpa [hitFromSummary, hid] using htake

/-- The document and version of a live summary. -/
def liveDocOf (db : Db) (id : String) : Option (String × Int) :=
  if isLive db id then docOf db id else none

theorem liveDocOf_eq_some {key : String × Int} :
    liveDocOf db id = some key ↔ isLive db id = true ∧ docOf db id = some key := by
  unfold liveDocOf
  split_ifs with hlive
  · exact (and_iff_right hlive).symm
  · exact iff_of_false (fun h => nomatch h) fun h => hlive h.1

/-- Noting a row raises the version of its document, if the row is live and has one. -/
theorem noteVersion_newest (newest : String → Option Int) (id : String) :
    Newest (liveDocOf db) newest [id] (noteVersion db newest id) := by
  unfold noteVersion
  cases hget : db.getSummary id with
  | none =>
      refine .skip ?_
      rw [liveDocOf, docOf, hget]
      exact ite_self _
  | some summary =>
      have hlive : isLive db id = !summary.deleted := by rw [isLive, hget]
      have hdoc : docOf db id = summary.docId.map fun docId => (docId, version summary) := by
        rw [docOf, hget]
        rfl
      dsimp only
      split
      · rename_i docId hdeleted hdocId
        refine .raise ?_
        rw [liveDocOf, hlive, hdeleted, hdoc, hdocId]
        rfl
      · rename_i hother
        refine .skip ?_
        rw [liveDocOf, hlive, hdoc]
        cases hdeleted : summary.deleted with
        | true => rfl
        | false =>
            cases hdocId : summary.docId with
            | none => rfl
            | some docId => exact absurd hdocId (hother docId hdeleted)

theorem noted_newest (newest : String → Option Int) (ids : List String) :
    Newest (liveDocOf db) newest ids (ids.foldl (noteVersion db) newest) :=
  Newest.foldl noteVersion_newest ids newest

end Level

end TinyCortex.Retrieval
