import TinyCortex.Chunks.Produce
import TinyCortex.Lib.Windows

/-! The pieces of the splitter by the token budget tile their text: a piece is the overlap, an end of the piece before
it, and then text that no piece before it had. -/

namespace TinyCortex.Chunks.Produce

open Overlap

/-- The chunks so far and the next one tile the segments that were pushed. -/
def Packing.Tiled (packing : Packing) (text : List Char) : Prop :=
  ∃ parts part, packing.chunks = parts.map Stretch.piece ∧ packing.cur.flatten = part.piece ∧
    Tiles text (parts ++ [part])

section Tiled

variable {contract : Contract} {budget overlapBudget overlapCap : Nat} {packing : Packing} {text seg : List Char}

variable (contract overlapBudget overlapCap) in

theorem tailOverlap_suffix (cur : List (List Char)) :
    tailOverlap contract overlapBudget overlapCap cur <:+ cur := by
  rw [tailOverlap]
  split_ifs
  · exact List.nil_suffix
  · exact List.drop_suffix _ _

variable (contract budget overlapBudget overlapCap) in

theorem Packing.tiled_first (hseg : seg ≠ []) :
    (Packing.push contract budget overlapBudget overlapCap ⟨[], [], 0⟩ seg).Tiled seg := by
  refine ⟨[], ⟨[], seg⟩, rfl, ?_, Tiles.single hseg⟩
  rw [Packing.push]
  dsimp only
  rw [if_neg fun h => h.1 rfl]
  exact List.flatten_singleton

theorem Packing.Tiled.push (h : packing.Tiled text) (hseg : seg ≠ []) :
    (packing.push contract budget overlapBudget overlapCap seg).Tiled (text ++ seg) := by
  obtain ⟨parts, part, hchunks, hcur, htiles⟩ := h
  rw [Packing.push]
  dsimp only
  split_ifs
  · -- the next chunk is full, and its end goes over to a new one
    have hoverlap : (tailOverlap contract overlapBudget overlapCap packing.cur).flatten <:+ part.piece := by
      rw [← hcur]
      obtain ⟨before, hbefore⟩ := tailOverlap_suffix contract overlapBudget overlapCap packing.cur
      refine ⟨before.flatten, ?_⟩
      rw [← List.flatten_append, hbefore]
    refine ⟨parts ++ [part], ⟨_, seg⟩, ?_, ?_, htiles.concat hoverlap hseg⟩
    · rw [List.map_append, hchunks, hcur]
      rfl
    · rw [List.flatten_append, List.flatten_singleton]
      rfl
  · refine ⟨parts, ⟨part.overlap, part.added ++ seg⟩, hchunks, ?_, htiles.extend seg⟩
    rw [List.flatten_append, List.flatten_singleton, hcur, Stretch.piece, List.append_assoc]
    rfl

variable (contract budget overlapBudget overlapCap) in

theorem Packing.Tiled.foldl (h : packing.Tiled text) {segments : List (List Char)}
    (hsegments : ∀ seg ∈ segments, seg ≠ []) :
    (segments.foldl (Packing.push contract budget overlapBudget overlapCap) packing).Tiled
      (text ++ segments.flatten) := by
  induction segments generalizing packing text with
  | nil =>
      rw [List.flatten_nil, List.append_nil]
      exact h
  | cons seg segments ih =>
      obtain ⟨hseg, hrest⟩ := List.forall_mem_cons.mp hsegments
      rw [List.foldl_cons, List.flatten_cons, ← List.append_assoc]
      exact ih (h.push hseg) hrest

theorem Packing.Tiled.finish (h : packing.Tiled text) :
    ∃ parts, packing.finish = parts.map Stretch.piece ∧ Tiles text parts := by
  obtain ⟨parts, part, hchunks, hcur, htiles⟩ := h
  have hne : packing.cur ≠ [] := by
    intro hnil
    rw [hnil] at hcur
    exact htiles.last_ne_nil hcur.symm
  refine ⟨parts ++ [part], ?_, htiles⟩
  rw [Packing.finish]
  rw [if_neg hne, if_neg (List.append_ne_nil_of_right_ne_nil _ (List.cons_ne_nil _ _)), hchunks, hcur,
    List.map_append]
  rfl

end Tiled

section Split

variable {contract : Contract}

/-- A text that is not empty is tiled by its pieces. -/
theorem splitByTokenBudget_tiles (hdoc : contract.Documented) {text : List Char} (hne : text ≠ [])
    (maxTokens : Nat) :
    ∃ parts, splitByTokenBudget contract text maxTokens = parts.map Stretch.piece ∧ Tiles text parts := by
  rw [splitByTokenBudget]
  dsimp only
  rw [if_neg hne]
  generalize max maxTokens 1 = budget
  have hwhole : ∃ parts : List (Stretch Char), [text] = parts.map Stretch.piece ∧ Tiles text parts :=
    ⟨[⟨[], text⟩], rfl, Tiles.single hne⟩
  have hsegments := fits_pushAtomicSegments hdoc (Nat.le_max_right (budget - overlapCap budget) 1) text
  have htext := flatten_pushAtomicSegments contract (segBudget budget) text
  rw [← segBudget] at hsegments
  by_cases hfits : contract.conservativeTokenEstimate text ≤ budget
  · rw [if_pos hfits]
    exact hwhole
  rw [if_neg hfits]
  generalize pushAtomicSegments contract (segBudget budget) text = segments at hsegments htext ⊢
  by_cases hfew : segments.length ≤ 1
  · rw [if_pos hfew]
    exact hwhole
  rw [if_neg hfew]
  cases segments with
  | nil => exact absurd (Nat.zero_le 1) hfew
  | cons seg segments =>
      obtain ⟨hseg, hrest⟩ := List.forall_mem_cons.mp hsegments
      have hfirst := Packing.tiled_first contract budget (overlapBudget budget) (overlapCap budget) hseg.1
      have htiled := hfirst.foldl contract budget (overlapBudget budget) (overlapCap budget)
        fun seg hseg => (hrest seg hseg).1
      rw [← List.flatten_cons, htext] at htiled
      exact htiled.finish

/-- The pieces of a text that is not empty tile it, the empty text is its own piece, and each piece is within the
budget. -/
theorem splitByTokenBudget_lossless (hdoc : contract.Documented) {maxTokens : Nat} (hlt : maxTokens < 2 ^ 32)
    (text : List Char) :
    (text ≠ [] → ∃ parts, splitByTokenBudget contract text maxTokens = parts.map Stretch.piece ∧ Tiles text parts) ∧
      (text = [] → splitByTokenBudget contract text maxTokens = [[]]) ∧
      ∀ piece ∈ splitByTokenBudget contract text maxTokens,
        contract.conservativeTokenEstimate piece ≤ max maxTokens 1 := by
  refine ⟨fun hne => splitByTokenBudget_tiles hdoc hne maxTokens, fun hempty => ?_, fits_splitByTokenBudget hdoc hlt⟩
  rw [splitByTokenBudget]
  exact if_pos hempty

theorem splitByTokenBudget_lossless_signs :
    ∃ parts, splitByTokenBudget weighing "one two three four".toList 2 = parts.map Stretch.piece ∧
      Tiles "one two three four".toList parts := by
  have hlt : 2 < 2 ^ 32 := by decide
  exact (splitByTokenBudget_lossless weighing_documented hlt _).1 (by decide)

/-- The piece of the empty text adds nothing. -/
theorem emptyText_adds_nothing :
    ¬∃ parts, splitByTokenBudget weighing [] 2 = parts.map Stretch.piece ∧ Tiles [] parts := by
  intro h
  obtain ⟨parts, hparts, htiles⟩ := h
  have hpieces : splitByTokenBudget weighing [] 2 = [[]] := by
    rw [splitByTokenBudget]
    exact if_pos rfl
  rw [hpieces] at hparts
  cases parts with
  | nil => cases hparts
  | cons part parts =>
      obtain ⟨hpiece, -⟩ := List.cons.inj hparts
      exact htiles.adds part List.mem_cons_self (List.append_eq_nil_iff.mp hpiece.symm).2

end Split

end TinyCortex.Chunks.Produce
