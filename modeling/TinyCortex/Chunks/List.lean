import TinyCortex.Chunks.Types

/-! Filtered chunk listing (`chunks/store_list.rs`) with the filters that a window scan sets, and the scan
itself: page after page until one comes back short. A page never has more rows than the store's cap. -/

namespace TinyCortex.Chunks

def defaultListLimit : Nat := 100

def maxListLimit : Nat := 10000

/-- Filters and pagination of one listing. -/
structure ListChunksQuery where
  sourceKind : Option SourceKind
  sourceId : Option String
  sinceMs : Option Int
  untilMs : Option Int
  limit : Option Nat
  offset : Option Nat
  excludeDropped : Bool
  deriving DecidableEq, Repr

/-- The `WHERE` clause. -/
def ListChunksQuery.admits (query : ListChunksQuery) (chunk : Chunk) : Bool :=
  (query.sourceKind.map fun kind => chunk.sourceKind == kind).getD true &&
    (query.sourceId.map fun id => chunk.sourceId == id).getD true &&
    (query.sinceMs.map fun since => decide (since ≤ chunk.timestampMs)).getD true &&
    (query.untilMs.map fun until_ => decide (chunk.timestampMs ≤ until_)).getD true &&
    !(query.excludeDropped && chunk.lifecycleStatus == .dropped)

/-- Newest first, then by sequence and id. -/
def newestFirst (a b : Chunk) : Bool :=
  decide (b.timestampMs < a.timestampMs) ||
    (a.timestampMs == b.timestampMs &&
      (decide (a.seqInSource < b.seqInSource) ||
        (a.seqInSource == b.seqInSource && decide (a.id ≤ b.id))))

def normalizedLimit (requested : Option Nat) : Nat :=
  min (max (requested.getD defaultListLimit) 1) maxListLimit

/-- Everything that matches, in listing order. -/
def allMatching (query : ListChunksQuery) (chunks : List Chunk) : List Chunk :=
  (chunks.filter query.admits).mergeSort newestFirst

def listChunks (query : ListChunksQuery) (chunks : List Chunk) : List Chunk :=
  ((allMatching query chunks).drop (query.offset.getD 0)).take (normalizedLimit query.limit)

/-- What `append_source_scope` lets through: chunks of no memory source, and those of an allowed one. A chunk's
tags stand in a column of their own, by its id. -/
def inSourceScope (tags : String → List String) (allowed : List String) (chunk : Chunk) : Bool :=
  !(tags chunk.id).contains "memory_sources" || allowed.any fun sourceId =>
    chunk.sourceId == sourceId || ("mem_src:" ++ sourceId ++ ":").toList.isPrefixOf chunk.sourceId.toList

/-- The paging loop of a scan. Every full page has a row, so there are no more pages than chunks. -/
def scanPages (query : ListChunksQuery) (pageSize : Nat) (chunks : List Chunk) :
    Nat → List Chunk → List Chunk
  | 0, found => found
  | fuel + 1, found =>
      let page := listChunks { query with limit := some pageSize, offset := some found.length } chunks
      let all := found ++ page
      if page.length < pageSize then all else scanPages query pageSize chunks fuel all

section Scan

variable {query : ListChunksQuery} {pageSize : Nat} {chunks : List Chunk}

/-- A page after the first `n` rows. -/
theorem listChunks_page (n : Nat) :
    listChunks { query with limit := some pageSize, offset := some n } chunks =
      ((allMatching query chunks).drop n).take (min (max pageSize 1) maxListLimit) := rfl

/-- Pages within the cap find everything. -/
theorem scanPages_of_le_cap (hpos : 0 < pageSize) (hcap : pageSize ≤ maxListLimit) (fuel n : Nat)
    (hn : n ≤ (allMatching query chunks).length)
    (hfuel : (allMatching query chunks).length < fuel + n) :
    scanPages query pageSize chunks fuel ((allMatching query chunks).take n) =
      allMatching query chunks := by
  induction fuel generalizing n with
  | zero => omega
  | succ fuel ih =>
      have hlength : ((allMatching query chunks).take n).length = n := List.length_take_of_le hn
      have hsize : min (max pageSize 1) maxListLimit = pageSize := by omega
      rw [scanPages, hlength, listChunks_page, hsize]
      rw [← List.take_add, List.length_take, List.length_drop]
      split_ifs with hlast
      · exact List.take_of_length_le (by omega)
      · exact ih (n + pageSize) (by omega) (by omega)

/-- A page size over the cap ends the scan after one page. -/
theorem scanPages_of_cap_lt (hcap : maxListLimit < pageSize) (fuel : Nat) :
    scanPages query pageSize chunks (fuel + 1) [] = (allMatching query chunks).take maxListLimit := by
  have hsize : min (max pageSize 1) maxListLimit = maxListLimit := by omega
  have hle := List.length_take_le maxListLimit (allMatching query chunks)
  rw [scanPages, List.length_nil, listChunks_page, hsize, List.drop_zero, List.nil_append]
  rw [if_pos (by omega)]

/-- What a scan gets to see: everything that matches, up to the cap when its pages are larger. -/
def scanned (query : ListChunksQuery) (pageSize : Nat) (chunks : List Chunk) : List Chunk :=
  if pageSize ≤ maxListLimit then allMatching query chunks
  else (allMatching query chunks).take maxListLimit

theorem scanPages_eq (hpos : 0 < pageSize) :
    scanPages query pageSize chunks (chunks.length + 1) [] = scanned query pageSize chunks := by
  have hle : (allMatching query chunks).length ≤ chunks.length := by
    rw [allMatching, List.length_mergeSort]
    exact List.length_filter_le _ _
  unfold scanned
  split_ifs with hsize
  · exact scanPages_of_le_cap hpos hsize (chunks.length + 1) 0 (Nat.zero_le _) (by omega)
  · exact scanPages_of_cap_lt (by omega) _

theorem scanned_sublist : (scanned query pageSize chunks).Sublist (allMatching query chunks) := by
  unfold scanned
  split_ifs
  · exact List.Sublist.refl _
  · exact List.take_sublist _ _

theorem mem_allMatching {chunk : Chunk} :
    chunk ∈ allMatching query chunks ↔ chunk ∈ chunks ∧ query.admits chunk = true := by
  rw [allMatching, List.mem_mergeSort, List.mem_filter]

end Scan

end TinyCortex.Chunks
