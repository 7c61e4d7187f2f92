import TinyCortex.Tree.Reach

/-! Retrieval output (`retrieval/types.rs`) and the semantic rerank shared by the query primitives
(`retrieval/rerank.rs`). Bodies, entities, topics and scores of a hit are left out. -/

namespace TinyCortex.Retrieval

open Chunks SummaryTree

/-- Whether a hit is a raw chunk or a summary. -/
inductive NodeKind
  | leaf | summary
  deriving DecidableEq, Repr

/-- One unit of retrieval output. -/
structure RetrievalHit where
  nodeId : String
  nodeKind : NodeKind
  treeId : String
  treeScope : String
  level : Nat
  timeRangeStartMs : Int
  timeRangeEndMs : Int
  childIds : List String
  deriving DecidableEq, Repr

def hitFromSummary (node : SummaryNode) (treeScope : String) : RetrievalHit :=
  ⟨node.id, .summary, node.treeId, treeScope, node.level, node.timeRangeStartMs, node.timeRangeEndMs,
    node.childIds⟩

def hitFromChunk (chunk : Chunk) (treeId treeScope : String) : RetrievalHit :=
  ⟨chunk.id, .leaf, treeId, treeScope, 0, chunk.timeRangeStartMs, chunk.timeRangeEndMs, []⟩

/-- Hits after filtering, sorting and truncation, and the number of matches before it. -/
structure QueryResponse where
  hits : List RetrievalHit
  total : Nat
  truncated : Bool
  deriving DecidableEq, Repr

def QueryResponse.new (hits : List RetrievalHit) (totalMatches : Nat) : QueryResponse :=
  ⟨hits, totalMatches, decide (hits.length < totalMatches)⟩

/-- The revision time that versions are compared by; rows without one come first. -/
def version (node : SummaryNode) : Int := node.versionMs.getD I64.minValue

/-! ### Rerank -/

/-- The embedding provider, the stored vectors and the floating-point arithmetic on them. -/
structure Embedder (ρ σ : Type*) where
  embed : String → Option (List ρ)
  stored : String → Option (List ρ)
  cosineSimilarity : List ρ → List ρ → σ
  partialCmp : σ → σ → Option Ordering

/-- A hit with its similarity, if it has a comparable vector, and its place in the input. -/
structure Decorated (σ : Type*) where
  similarity : Option σ
  index : Nat
  hit : RetrievalHit

variable {ρ σ : Type*}

/-- Embedded hits first, the most similar one first, then the most recent; the others keep their order. -/
def Embedder.order (embedder : Embedder ρ σ) (a b : Decorated σ) : Ordering :=
  match a.similarity, b.similarity with
  | some _, none => .lt
  | none, some _ => .gt
  | none, none => compare a.index b.index
  | some s, some t =>
      ((embedder.partialCmp t s).getD .eq).then (compare b.hit.timeRangeEndMs a.hit.timeRangeEndMs)

def Embedder.decorate (embedder : Embedder ρ σ) (queryVec : List ρ)
    (entry : (RetrievalHit × Option (List ρ)) × Nat) : Decorated σ where
  similarity := entry.1.2.bind fun v =>
    if v.length = queryVec.length then some (embedder.cosineSimilarity queryVec v) else none
  index := entry.2
  hit := entry.1.1

/-- Rerank hits by similarity to the query; unchanged when the query has no embedding. -/
def rerankBySemanticSimilarity (embedder : Embedder ρ σ) (query : String)
    (hits : List (RetrievalHit × Option (List ρ))) : List RetrievalHit :=
  match embedder.embed query with
  | none => hits.map Prod.fst
  | some queryVec =>
      let decorated := hits.zipIdx.map (embedder.decorate queryVec)
      (decorated.mergeSort fun a b => embedder.order a b != .gt).map Decorated.hit

/-- A rerank keeps the hits and moves them around. -/
theorem rerank_perm (embedder : Embedder ρ σ) (query : String)
    (hits : List (RetrievalHit × Option (List ρ))) :
    (rerankBySemanticSimilarity embedder query hits).Perm (hits.map Prod.fst) := by
  unfold rerankBySemanticSimilarity
  cases embedder.embed query with
  | none => exact List.Perm.refl _
  | some queryVec =>
      refine ((List.mergeSort_perm _ _).map Decorated.hit).trans (List.Perm.of_eq ?_)
      have hhit : Decorated.hit ∘ embedder.decorate queryVec = Prod.fst ∘ Prod.fst := rfl
      rw [List.map_map, hhit, ← List.map_map, List.zipIdx_map_fst]

end TinyCortex.Retrieval
