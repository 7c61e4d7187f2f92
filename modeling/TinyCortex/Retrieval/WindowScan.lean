import TinyCortex.Retrieval.CoverScoped
import TinyCortex.Retrieval.Policy

/-! The paged scan of a window (`retrieval/cover.rs`, `chunks/store_list.rs`). The scan asks for pages of the size of
the policy and stops at the first short one; the listing gives no page more rows than its own cap. -/

namespace TinyCortex.Chunks

variable {query : ListChunksQuery} {pageSize : Nat} {chunks : List Chunk}

/-- The loop of the scan, with nothing when the turns run out. -/
def scanLoop (query : ListChunksQuery) (pageSize : Nat) (chunks : List Chunk) : Nat → List Chunk → Option (List Chunk)
  | 0, _ => none
  | turns + 1, found =>
      let page := listChunks { query with limit := some pageSize, offset := some found.length } chunks
      if page.length < pageSize then some (found ++ page) else scanLoop query pageSize chunks turns (found ++ page)

theorem scanPages_of_scanLoop {turns : Nat} {found all : List Chunk}
    (h : scanLoop query pageSize chunks turns found = some all) :
    scanPages query pageSize chunks turns found = all := by
  induction turns generalizing found with
  | zero => cases h
  | succ turns ih =>
      rw [scanLoop] at h
      rw [scanPages]
      split_ifs at h ⊢
      · exact Option.some.inj h
      · exact ih h

/-- Pages within the cap find everything, and the last one is short. -/
theorem scanLoop_of_le_cap (hpos : 0 < pageSize) (hcap : pageSize ≤ maxListLimit) (turns n : Nat)
    (hn : n ≤ (allMatching query chunks).length) (hturns : (allMatching query chunks).length < turns + n) :
    scanLoop query pageSize chunks turns ((allMatching query chunks).take n) =
      some (allMatching query chunks) := by
  induction turns generalizing n with
  | zero => omega
  | succ turns ih =>
      have hlength : ((allMatching query chunks).take n).length = n := List.length_take_of_le hn
      have hsize : min (max pageSize 1) maxListLimit = pageSize := by omega
      rw [scanLoop, hlength, listChunks_page, hsize]
      rw [← List.take_add, List.length_take, List.length_drop]
      split_ifs with hlast
      · exact congrArg some (List.take_of_length_le (by omega))
      · exact ih (n + pageSize) (by omega) (by omega)

/-- Larger pages come back short at once. -/
theorem scanLoop_of_cap_lt (hcap : maxListLimit < pageSize) (turns : Nat) :
    scanLoop query pageSize chunks (turns + 1) [] = some ((allMatching query chunks).take maxListLimit) := by
  have hsize : min (max pageSize 1) maxListLimit = maxListLimit := by omega
  have hle := List.length_take_le maxListLimit (allMatching query chunks)
  rw [scanLoop, List.length_nil, listChunks_page, hsize, List.drop_zero, List.nil_append]
  rw [if_pos (by omega)]

theorem length_allMatching : (allMatching query chunks).length = (chunks.filter query.admits).length :=
  List.length_mergeSort _

/-- The scan ends within one turn more than there are chunks. -/
theorem scanLoop_eq (hpos : 0 < pageSize) {turns : Nat} (hturns : chunks.length < turns) :
    scanLoop query pageSize chunks turns [] = some (scanned query pageSize chunks) := by
  have hle : (allMatching query chunks).length ≤ chunks.length := by
    rw [length_allMatching]
    exact List.length_filter_le _ _
  rw [scanned]
  split_ifs with hcap
  · exact scanLoop_of_le_cap hpos hcap turns 0 (Nat.zero_le _) (by omega)
  · obtain ⟨more, rfl⟩ := Nat.exists_eq_add_of_lt hturns
    exact scanLoop_of_cap_lt (by omega) _

/-- What a scan finds is everything that matches, unless there is more than a page of the listing and the pages that are
asked for are larger. -/
theorem scanned_perm_iff : (scanned query pageSize chunks).Perm (chunks.filter query.admits) ↔
    pageSize ≤ maxListLimit ∨ (chunks.filter query.admits).length ≤ maxListLimit := by
  have hall : (allMatching query chunks).Perm (chunks.filter query.admits) := List.mergeSort_perm _ _
  rw [scanned]
  by_cases hcap : pageSize ≤ maxListLimit
  · rw [if_pos hcap]
    exact iff_of_true hall (Or.inl hcap)
  · rw [if_neg hcap, ← length_allMatching]
    constructor
    · intro hperm
      have hlength := hperm.length_eq
      rw [← hall.length_eq, List.length_take] at hlength
      exact Or.inr (by omega)
    · intro hfew
      rw [List.take_of_length_le (hfew.resolve_left hcap)]
      exact hall

end TinyCortex.Chunks

namespace TinyCortex.Retrieval

open Chunks SummaryTree

/-- The scan of `collect_cover`. -/
def windowScan (policy : RetrievalPolicy) (store : TaggedDb) (window : Window) (sourceScope : Option (List String))
    (turns : Nat) : Option (List Chunk) :=
  scanLoop window.query policy.windowChunkPageSize (scopedChunks store sourceScope) turns []

/-- The chunks of the window. -/
def windowChunks (store : TaggedDb) (window : Window) (sourceScope : Option (List String)) : List Chunk :=
  (scopedChunks store sourceScope).filter window.query.admits

theorem length_scopedChunks_le (store : TaggedDb) (sourceScope : Option (List String)) :
    (scopedChunks store sourceScope).length ≤ store.db.chunks.length := by
  cases sourceScope with
  | none => exact Nat.le_refl _
  | some allowed => exact List.length_filter_le _ _

/-- The scan that a cover works with is this one. -/
theorem scanPages_windowScan {policy : RetrievalPolicy} (hvalid : policy.validate = .ok ()) (store : TaggedDb)
    (window : Window) (sourceScope : Option (List String)) :
    windowScan policy store window sourceScope ((scopedChunks store sourceScope).length + 1) =
      some (scanPages window.query policy.limits.windowChunkPageSize (scopedChunks store sourceScope)
        ((scopedChunks store sourceScope).length + 1) []) := by
  have hscan : windowScan policy store window sourceScope ((scopedChunks store sourceScope).length + 1) =
      some (scanned window.query policy.windowChunkPageSize (scopedChunks store sourceScope)) :=
    scanLoop_eq (RetrievalPolicy.limits_valid hvalid).2 (Nat.lt_succ_self (scopedChunks store sourceScope).length)
  have hpages : scanPages window.query policy.limits.windowChunkPageSize (scopedChunks store sourceScope)
      ((scopedChunks store sourceScope).length + 1) [] = _ := scanPages_of_scanLoop hscan
  rw [hpages]
  exact hscan

/-- The scan collects every chunk of the window once, exactly if its pages are within the cap of the listing or one page
of the listing holds all of them. -/
theorem windowScan_complete_iff {policy : RetrievalPolicy} (hvalid : policy.validate = .ok ()) (store : TaggedDb)
    (window : Window) (sourceScope : Option (List String)) {turns : Nat} (hturns : store.db.chunks.length < turns) :
    (∃ found, windowScan policy store window sourceScope turns = some found ∧
      found.Perm (windowChunks store window sourceScope)) ↔
      policy.windowChunkPageSize ≤ maxListLimit ∨
        (windowChunks store window sourceScope).length ≤ maxListLimit := by
  have hscoped := length_scopedChunks_le store sourceScope
  have hpos : 0 < policy.windowChunkPageSize := (RetrievalPolicy.limits_valid hvalid).2
  rw [windowScan, scanLoop_eq hpos (by omega)]
  simp only [Option.some.injEq, exists_eq_left']
  exact scanned_perm_iff

/-- Chunks of one channel. -/
def crowded (count : Nat) : TaggedDb :=
  ⟨⟨[], (List.range count).map fun i =>
    ⟨toString i, .chat, "slack:general", none, 0, 0, 0, 1, i, .admitted⟩, [], []⟩, fun _ => []⟩

def allTime : Window := ⟨0, 0, none, none⟩

theorem windowScan_complete_iff_default :
    ∃ found, windowScan .default (crowded 3) allTime none 4 = some found ∧
      found.Perm (windowChunks (crowded 3) allTime none) := by
  refine (windowScan_complete_iff RetrievalPolicy.validate_default (crowded 3) allTime none ?_).mpr (Or.inl ?_)
  · decide
  · decide

/-- A page size that the validation accepts and the listing does not. -/
def largePages : RetrievalPolicy := { RetrievalPolicy.default with windowChunkPageSize := 10001 }

theorem windowChunks_crowded (count : Nat) : windowChunks (crowded count) allTime none = (crowded count).db.chunks := by
  apply List.filter_eq_self.mpr
  intro chunk hchunk
  obtain ⟨i, -, rfl⟩ := List.mem_map.mp hchunk
  rfl

/-- The scan ends behind the first page. -/
theorem largePages_miss_of_lt {count : Nat} (h : maxListLimit < count) (turns : Nat) :
    ¬∃ found, windowScan largePages (crowded count) allTime none (turns + 1) = some found ∧
      found.Perm (windowChunks (crowded count) allTime none) := by
  intro hall
  obtain ⟨found, hfound, hperm⟩ := hall
  rw [windowScan, scanLoop_of_cap_lt (by decide)] at hfound
  have hlength := hperm.length_eq
  rw [← Option.some.inj hfound, windowChunks_crowded, List.length_take] at hlength
  have hcount : (crowded count).db.chunks.length = count := by
    rw [crowded, List.length_map, List.length_range]
  omega

theorem largePages_miss :
    largePages.validate = .ok () ∧ ¬∃ found, windowScan largePages (crowded 10001) allTime none 10002 = some found ∧
      found.Perm (windowChunks (crowded 10001) allTime none) := by
  refine ⟨?_, largePages_miss_of_lt (by decide) 10001⟩
  rw [RetrievalPolicy.validate_ok_iff]
  decide

end TinyCortex.Retrieval
