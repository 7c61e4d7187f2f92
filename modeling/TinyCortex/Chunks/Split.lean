import TinyCortex.Chunks.Types
import TinyCortex.Lib.Pieces

/-! The splitter by the conservative token estimate (`chunks/produce_split.rs`). Texts are their characters.
What a text is estimated at, where a text is cut to an estimate, and what a chunk is called come from the crate
of the contracts. -/

namespace TinyCortex.Chunks.Produce

open Pieces

/-- The functions of the contract crate on texts. -/
structure Contract where
  conservativeTokenEstimate : List Char → Nat
  truncateToConservativeTokens : List Char → Nat → List Char
  approxTokenCount : List Char → Nat
  chunkId : SourceKind → String → Nat → List Char → String

/-- What the estimate is documented to be: weights of the characters, at most one token each, summed and rounded
up. A text is cut to one of its starts, within the budget. -/
structure Contract.Documented (contract : Contract) : Prop where
  lt : ∀ text, contract.conservativeTokenEstimate text < 2 ^ 32
  subadditive : ∀ text rest, contract.conservativeTokenEstimate (text ++ rest) ≤
    contract.conservativeTokenEstimate text + contract.conservativeTokenEstimate rest
  empty : contract.conservativeTokenEstimate [] = 0
  char : ∀ c, contract.conservativeTokenEstimate [c] ≤ 1
  pos : ∀ text, text ≠ [] → 1 ≤ contract.conservativeTokenEstimate text
  truncatePrefix : ∀ text budget, contract.truncateToConservativeTokens text budget <+: text
  truncateFits : ∀ text budget,
    contract.conservativeTokenEstimate (contract.truncateToConservativeTokens text budget) ≤ budget

def splitOnSeparator (text : List Char) : Option (Tiling text) :=
  tilingOf (cutDoubled '\n' text) (flatten_cutDoubled _ _) (nonempty_cutDoubled _ _)

def endsSentence (c : Char) (next : Option Char) : Bool :=
  c == '\n' || ((c == '.' || c == '!' || c == '?') && next == some ' ')

def splitOnSentences (text : List Char) : Option (Tiling text) :=
  tilingOf (cutAfter endsSentence text) (flatten_cutAfter _ _) (nonempty_cutAfter _ _)

def splitOnWhitespace (text : List Char) : Option (Tiling text) :=
  tilingOf (cutAfter (fun c _ => c == ' ') text) (flatten_cutAfter _ _) (nonempty_cutAfter _ _)

section Split

variable (contract : Contract)

def hardSplit (budget : Nat) : List Char → List (List Char)
  | [] => []
  | c :: rest =>
      let plen := max (contract.truncateToConservativeTokens (c :: rest) budget).length 1
      (c :: rest).take plen :: hardSplit budget ((c :: rest).drop plen)
  termination_by text => text.length
  decreasing_by
    rw [List.length_drop, List.length_cons]
    omega

def pushAtomicSegments (budget : Nat) (text : List Char) : List (List Char) :=
  if text = [] then []
  else if contract.conservativeTokenEstimate text ≤ budget then [text]
  else
    match ((splitOnSeparator text).or (splitOnSentences text)).or (splitOnWhitespace text) with
    | some tiling => tiling.pieces.attach.flatMap fun piece => pushAtomicSegments budget piece.1
    | none => hardSplit contract budget text
  termination_by text.length
  decreasing_by exact tiling.length_lt piece.2

def saturatingAdd (a b : Nat) : Nat := min (a + b) (2 ^ 32 - 1)

/-- How many of the segments, from the last on, the overlap takes. -/
def overlapCount (overlapBudget overlapCap : Nat) : List (List Char) → Nat → Nat
  | [], _ => 0
  | seg :: rest, acc =>
      let t := contract.conservativeTokenEstimate seg
      if overlapCap < saturatingAdd acc t then 0
      else if overlapBudget ≤ saturatingAdd acc t then 1
      else 1 + overlapCount overlapBudget overlapCap rest (saturatingAdd acc t)

def tailOverlap (overlapBudget overlapCap : Nat) (cur : List (List Char)) : List (List Char) :=
  if cur.length ≤ 1 then []
  else
    let take := min (overlapCount contract overlapBudget overlapCap cur.reverse 0) (cur.length - 1)
    cur.drop (cur.length - take)

/-- The chunks so far, and the segments of the next one with their tokens. -/
structure Packing where
  chunks : List (List Char)
  cur : List (List Char)
  curTokens : Nat

def tokensOf (segments : List (List Char)) : Nat := (segments.map contract.conservativeTokenEstimate).sum

/-- One segment goes to the next chunk, or to a new one that starts with the overlap. -/
def Packing.push (budget overlapBudget overlapCap : Nat) (packing : Packing) (seg : List Char) : Packing :=
  let segTokens := contract.conservativeTokenEstimate seg
  if packing.cur ≠ [] ∧ budget < saturatingAdd packing.curTokens segTokens then
    let overlap := tailOverlap contract overlapBudget overlapCap packing.cur
    ⟨packing.chunks ++ [packing.cur.flatten], overlap ++ [seg],
      saturatingAdd (tokensOf contract overlap) segTokens⟩
  else ⟨packing.chunks, packing.cur ++ [seg], saturatingAdd packing.curTokens segTokens⟩

/-- The last chunk, and an empty one if there is none. -/
def Packing.finish (packing : Packing) : List (List Char) :=
  let chunks := if packing.cur = [] then packing.chunks else packing.chunks ++ [packing.cur.flatten]
  if chunks = [] then [[]] else chunks

/-- The product of 32 bits wraps. -/
def overlapBudget (budget : Nat) : Nat := max (budget * 12 % 2 ^ 32 / 100) 1

def overlapCap (budget : Nat) : Nat := max (budget * 40 % 2 ^ 32 / 100) (overlapBudget budget)

def segBudget (budget : Nat) : Nat := max (budget - overlapCap budget) 1

def splitByTokenBudget (text : List Char) (maxTokens : Nat) : List (List Char) :=
  let budget := max maxTokens 1
  if text = [] then [[]]
  else if contract.conservativeTokenEstimate text ≤ budget then [text]
  else
    let segments := pushAtomicSegments contract (segBudget budget) text
    if segments.length ≤ 1 then [text]
    else
      (segments.foldl (Packing.push contract budget (overlapBudget budget) (overlapCap budget))
        ⟨[], [], 0⟩).finish

end Split

section Tiles

variable (contract : Contract)

theorem flatten_hardSplit (budget : Nat) (text : List Char) :
    (hardSplit contract budget text).flatten = text := by
  induction text using hardSplit.induct contract budget with
  | case1 => rw [hardSplit, List.flatten_nil]
  | case2 c rest plen ih => rw [hardSplit, List.flatten_cons, ih, List.take_append_drop]

/-- The segments tile the text. -/
theorem flatten_pushAtomicSegments (budget : Nat) (text : List Char) :
    (pushAtomicSegments contract budget text).flatten = text := by
  induction text using pushAtomicSegments.induct contract budget with
  | case1 => rw [pushAtomicSegments, if_pos rfl, List.flatten_nil]
  | case2 text hne hfits =>
      rw [pushAtomicSegments, if_neg hne, if_pos hfits, List.flatten_singleton]
  | case3 text hne hlong tiling htiling ih =>
      rw [pushAtomicSegments, if_neg hne, if_neg hlong, htiling]
      dsimp only
      have hpieces : tiling.pieces.attach.map
          (fun piece => (pushAtomicSegments contract budget piece.1).flatten) = tiling.pieces := by
        rw [List.map_congr_left fun piece _ => ih piece]
        exact List.attach_map_subtype_val _
      rw [List.flatMap, List.flatten_flatten, List.map_map]
      exact (congrArg List.flatten hpieces).trans tiling.flatten
  | case4 text hne hlong htiling =>
      rw [pushAtomicSegments, if_neg hne, if_neg hlong, htiling]
      exact flatten_hardSplit contract budget text

end Tiles

section Overlap

variable (contract : Contract)

theorem tokensOf_nil : tokensOf contract [] = 0 := rfl

theorem tokensOf_cons (seg : List Char) (segments : List (List Char)) : tokensOf contract (seg :: segments) =
    contract.conservativeTokenEstimate seg + tokensOf contract segments := by
  rw [tokensOf, List.map_cons, List.sum_cons]
  rfl

theorem tokensOf_concat (segments : List (List Char)) (seg : List Char) :
    tokensOf contract (segments ++ [seg]) =
      tokensOf contract segments + contract.conservativeTokenEstimate seg := by
  rw [tokensOf, List.map_append, List.sum_append, List.map_singleton, List.sum_singleton]
  rfl

theorem tokensOf_reverse (segments : List (List Char)) :
    tokensOf contract segments.reverse = tokensOf contract segments := by
  rw [tokensOf, List.map_reverse, List.sum_reverse]
  rfl

theorem tokensOf_take_le (segments : List (List Char)) {n m : Nat} (h : n ≤ m) :
    tokensOf contract (segments.take n) ≤ tokensOf contract (segments.take m) := by
  induction segments generalizing n m with
  | nil =>
      refine Nat.le_of_eq ?_
      rw [List.take_nil, List.take_nil]
  | cons seg segments ih =>
      cases n with
      | zero =>
          rw [List.take_zero]
          exact Nat.zero_le _
      | succ n =>
          cases m with
          | zero => exact absurd h (Nat.not_succ_le_zero n)
          | succ m =>
              rw [List.take_succ_cons, List.take_succ_cons, tokensOf_cons, tokensOf_cons]
              exact Nat.add_le_add_left (ih (Nat.le_of_succ_le_succ h)) _

variable {contract}

theorem tokensOf_overlapCount_le {overlapBudget overlapCap : Nat} (hcap : overlapCap < 2 ^ 32 - 1)
    {segments : List (List Char)} {acc : Nat} (hacc : acc ≤ overlapCap) :
    acc + tokensOf contract (segments.take
      (overlapCount contract overlapBudget overlapCap segments acc)) ≤ overlapCap := by
  induction segments generalizing acc with
  | nil => exact hacc
  | cons seg segments ih =>
      rw [overlapCount]
      by_cases hover : overlapCap < saturatingAdd acc (contract.conservativeTokenEstimate seg)
      · rw [if_pos hover, List.take_zero]
        exact hacc
      have hsum : saturatingAdd acc (contract.conservativeTokenEstimate seg) =
          acc + contract.conservativeTokenEstimate seg := by
        rw [saturatingAdd] at hover ⊢
        omega
      rw [if_neg hover]
      rw [hsum] at hover ⊢
      split_ifs
      · rw [List.take_succ_cons, List.take_zero, tokensOf_cons, tokensOf_nil]
        omega
      · have hrest := ih (Nat.not_lt.mp hover)
        rw [Nat.add_comm 1, List.take_succ_cons, tokensOf_cons]
        omega

/-- The overlap stays within its cap. -/
theorem tokensOf_tailOverlap_le {overlapBudget overlapCap : Nat} (hcap : overlapCap < 2 ^ 32 - 1)
    (cur : List (List Char)) :
    tokensOf contract (tailOverlap contract overlapBudget overlapCap cur) ≤ overlapCap := by
  rw [tailOverlap]
  split_ifs
  · exact Nat.zero_le _
  · dsimp only
    rw [← tokensOf_reverse, ← List.take_reverse]
    refine Nat.le_trans (tokensOf_take_le contract _ (Nat.min_le_left _ _)) ?_
    have hcount : 0 + tokensOf contract (cur.reverse.take
        (overlapCount contract overlapBudget overlapCap cur.reverse 0)) ≤ overlapCap :=
      tokensOf_overlapCount_le hcap (Nat.zero_le _)
    rwa [Nat.zero_add] at hcount

theorem mem_of_mem_tailOverlap {overlapBudget overlapCap : Nat} {cur : List (List Char)} {seg : List Char}
    (h : seg ∈ tailOverlap contract overlapBudget overlapCap cur) : seg ∈ cur := by
  rw [tailOverlap] at h
  split_ifs at h
  · exact absurd h List.not_mem_nil
  · exact List.mem_of_mem_drop h

end Overlap

section Fits

variable {contract : Contract} (hdoc : contract.Documented)

include hdoc

theorem fits_hardSplit {budget : Nat} (hbudget : 1 ≤ budget) (text : List Char) :
    ∀ seg ∈ hardSplit contract budget text, seg ≠ [] ∧ contract.conservativeTokenEstimate seg ≤ budget := by
  induction text using hardSplit.induct contract budget with
  | case1 =>
      rw [hardSplit]
      exact fun _ h => absurd h List.not_mem_nil
  | case2 c rest plen ih =>
      rw [hardSplit]
      refine List.forall_mem_cons.mpr ⟨⟨?_, ?_⟩, ih⟩
      · intro hnil
        have hlength := congrArg List.length hnil
        rw [List.length_take, List.length_cons, List.length_nil] at hlength
        omega
      · have hprefixed := hdoc.truncatePrefix (c :: rest) budget
        by_cases hcut : 1 ≤ (contract.truncateToConservativeTokens (c :: rest) budget).length
        · rw [Nat.max_eq_left hcut, ← List.prefix_iff_eq_take.mp hprefixed]
          exact hdoc.truncateFits _ budget
        · -- the first character alone
          rw [Nat.max_eq_right (by omega), List.take_succ_cons, List.take_zero]
          exact Nat.le_trans (hdoc.char c) hbudget

theorem fits_pushAtomicSegments {budget : Nat} (hbudget : 1 ≤ budget) (text : List Char) :
    ∀ seg ∈ pushAtomicSegments contract budget text,
      seg ≠ [] ∧ contract.conservativeTokenEstimate seg ≤ budget := by
  induction text using pushAtomicSegments.induct contract budget with
  | case1 =>
      rw [pushAtomicSegments, if_pos rfl]
      exact fun _ h => absurd h List.not_mem_nil
  | case2 text hne hfits =>
      rw [pushAtomicSegments, if_neg hne, if_pos hfits]
      exact List.forall_mem_singleton.mpr ⟨hne, hfits⟩
  | case3 text hne hlong tiling htiling ih =>
      rw [pushAtomicSegments, if_neg hne, if_neg hlong, htiling]
      intro seg hseg
      obtain ⟨piece, -, hseg⟩ := List.mem_flatMap.mp hseg
      exact ih piece seg hseg
  | case4 text hne hlong htiling =>
      rw [pushAtomicSegments, if_neg hne, if_neg hlong, htiling]
      exact fits_hardSplit hdoc hbudget text

/-- A text of segments is estimated at no more than the segments. -/
theorem estimate_flatten_le (segments : List (List Char)) :
    contract.conservativeTokenEstimate segments.flatten ≤ tokensOf contract segments := by
  induction segments with
  | nil => exact Nat.le_of_eq hdoc.empty
  | cons seg segments ih =>
      rw [List.flatten_cons, tokensOf, List.map_cons, List.sum_cons]
      exact Nat.le_trans (hdoc.subadditive seg _) (Nat.add_le_add_left ih _)

/-- What holds of the chunks and of the segments of the next one. -/
structure Packing.Fits (contract : Contract) (budget : Nat) (packing : Packing) : Prop where
  chunks : ∀ chunk ∈ packing.chunks, contract.conservativeTokenEstimate chunk ≤ budget
  nonempty : ∀ seg ∈ packing.cur, seg ≠ []
  tokens : packing.curTokens = tokensOf contract packing.cur
  fits : tokensOf contract packing.cur ≤ budget

omit hdoc in
/-- The overlap and a segment fit together, unless the budget is a single token. -/
theorem overlapCap_add_segBudget {budget : Nat} (hbudget : 2 ≤ budget) :
    overlapCap budget + segBudget budget = budget := by
  have hbudgetMod := Nat.mod_le (budget * 12) (2 ^ 32)
  have hcapMod := Nat.mod_le (budget * 40) (2 ^ 32)
  rw [segBudget, overlapCap, overlapBudget]
  omega

theorem length_le_tokensOf {segments : List (List Char)} (h : ∀ seg ∈ segments, seg ≠ []) :
    segments.length ≤ tokensOf contract segments := by
  induction segments with
  | nil => exact Nat.zero_le _
  | cons seg segments ih =>
      obtain ⟨hseg, hsegments⟩ := List.forall_mem_cons.mp h
      have hpos := hdoc.pos seg hseg
      have hrest := ih hsegments
      rw [List.length_cons, tokensOf_cons]
      omega

/-- A segment fits behind the overlap of a chunk that fits. -/
theorem overlap_add_le {budget : Nat} (hbudget : 1 ≤ budget) (hlt : budget < 2 ^ 32 - 1)
    {cur : List (List Char)} (hcur : ∀ seg ∈ cur, seg ≠ []) (hfits : tokensOf contract cur ≤ budget) :
    tokensOf contract (tailOverlap contract (overlapBudget budget) (overlapCap budget) cur) +
      segBudget budget ≤ budget := by
  by_cases hone : budget = 1
  · -- a chunk of a single token is a single segment, which the overlap never repeats
    have hlength := length_le_tokensOf hdoc hcur
    rw [tailOverlap, if_pos (by omega), tokensOf_nil, hone]
    decide
  · have htwo : 2 ≤ budget := by omega
    have hsum := overlapCap_add_segBudget htwo
    have hoverlap : tokensOf contract
        (tailOverlap contract (overlapBudget budget) (overlapCap budget) cur) ≤ overlapCap budget :=
      tokensOf_tailOverlap_le (by omega) cur
    omega

theorem Packing.Fits.push {budget : Nat} {packing : Packing} {seg : List Char} (hbudget : 1 ≤ budget)
    (hlt : budget < 2 ^ 32 - 1) (h : packing.Fits contract budget) (hne : seg ≠ [])
    (hseg : contract.conservativeTokenEstimate seg ≤ segBudget budget) :
    (packing.push contract budget (overlapBudget budget) (overlapCap budget) seg).Fits contract budget := by
  rw [Packing.push]
  dsimp only
  by_cases hflush : packing.cur ≠ [] ∧
      budget < saturatingAdd packing.curTokens (contract.conservativeTokenEstimate seg)
  · rw [if_pos hflush]
    have hsum := overlap_add_le hdoc hbudget hlt h.nonempty h.fits
    refine ⟨fun chunk hchunk => ?_, fun other hother => ?_, ?_, ?_⟩
    · rcases List.mem_append.mp hchunk with hold | hnew
      · exact h.chunks chunk hold
      · rw [List.mem_singleton.mp hnew]
        exact Nat.le_trans (estimate_flatten_le hdoc packing.cur) h.fits
    · rcases List.mem_append.mp hother with hold | hnew
      · exact h.nonempty other (mem_of_mem_tailOverlap hold)
      · rw [List.mem_singleton.mp hnew]
        exact hne
    · dsimp only
      rw [tokensOf_concat, saturatingAdd]
      omega
    · dsimp only
      rw [tokensOf_concat]
      omega
  · rw [if_neg hflush]
    have hfits : tokensOf contract packing.cur + contract.conservativeTokenEstimate seg ≤ budget := by
      by_cases hcur : packing.cur = []
      · rw [hcur, tokensOf_nil, segBudget] at *
        omega
      · have hroom := Nat.not_lt.mp fun hover => hflush ⟨hcur, hover⟩
        rw [saturatingAdd, h.tokens] at hroom
        omega
    refine ⟨h.chunks, fun other hother => ?_, ?_, ?_⟩
    · rcases List.mem_append.mp hother with hold | hnew
      · exact h.nonempty other hold
      · rw [List.mem_singleton.mp hnew]
        exact hne
    · dsimp only
      rw [tokensOf_concat, saturatingAdd, h.tokens]
      omega
    · dsimp only
      rwa [tokensOf_concat]

theorem Packing.Fits.foldl {budget : Nat} (hbudget : 1 ≤ budget) (hlt : budget < 2 ^ 32 - 1)
    {segments : List (List Char)} (hsegments : ∀ seg ∈ segments,
      seg ≠ [] ∧ contract.conservativeTokenEstimate seg ≤ segBudget budget)
    {packing : Packing} (h : packing.Fits contract budget) :
    (segments.foldl (Packing.push contract budget (overlapBudget budget) (overlapCap budget))
      packing).Fits contract budget := by
  induction segments generalizing packing with
  | nil => exact h
  | cons seg segments ih =>
      obtain ⟨⟨hne, hseg⟩, hrest⟩ := List.forall_mem_cons.mp hsegments
      exact ih hrest (h.push hdoc hbudget hlt hne hseg)

theorem Packing.Fits.finish {budget : Nat} {packing : Packing} (h : packing.Fits contract budget) :
    ∀ chunk ∈ packing.finish, contract.conservativeTokenEstimate chunk ≤ budget := by
  have hlast := Nat.le_trans (estimate_flatten_le hdoc packing.cur) h.fits
  have hempty : contract.conservativeTokenEstimate [] ≤ budget := by
    rw [hdoc.empty]
    exact Nat.zero_le _
  rw [Packing.finish]
  split_ifs with hcur hchunks hchunks
  · exact List.forall_mem_singleton.mpr hempty
  · exact h.chunks
  · exact List.forall_mem_singleton.mpr hempty
  · exact List.forall_mem_append.mpr ⟨h.chunks, List.forall_mem_singleton.mpr hlast⟩

/-- Each piece fits the budget. -/
theorem fits_splitByTokenBudget {text : List Char} {maxTokens : Nat} (hlt : maxTokens < 2 ^ 32) :
    ∀ piece ∈ splitByTokenBudget contract text maxTokens,
      contract.conservativeTokenEstimate piece ≤ max maxTokens 1 := by
  rw [splitByTokenBudget]
  dsimp only
  generalize hbudget : max maxTokens 1 = budget
  have hone : 1 ≤ budget := by omega
  by_cases hmax : budget = 2 ^ 32 - 1
  · -- no estimate is over the largest budget
    intro piece _
    have hpiece := hdoc.lt piece
    omega
  by_cases hempty : text = []
  · rw [if_pos hempty]
    refine List.forall_mem_singleton.mpr ?_
    rw [hdoc.empty]
    exact Nat.zero_le _
  rw [if_neg hempty]
  by_cases hfits : contract.conservativeTokenEstimate text ≤ budget
  · rw [if_pos hfits]
    exact List.forall_mem_singleton.mpr hfits
  rw [if_neg hfits]
  have hsegments := fits_pushAtomicSegments hdoc (Nat.le_max_right (budget - overlapCap budget) 1) text
  have htile := flatten_pushAtomicSegments contract (segBudget budget) text
  rw [← segBudget] at hsegments
  generalize pushAtomicSegments contract (segBudget budget) text = segments at hsegments htile ⊢
  by_cases hfew : segments.length ≤ 1
  · rw [if_pos hfew]
    -- then the text is a single segment, which fits
    cases segments with
    | nil => exact absurd htile.symm hempty
    | cons seg rest =>
        rw [List.length_eq_zero_iff.mp (Nat.le_zero.mp (Nat.le_of_succ_le_succ hfew)),
          List.flatten_singleton] at htile
        have hseg := (hsegments seg List.mem_cons_self).2
        rw [htile, segBudget] at hseg
        omega
  · rw [if_neg hfew]
    have hstart : Packing.Fits contract budget ⟨[], [], 0⟩ :=
      ⟨fun _ h => absurd h List.not_mem_nil, fun _ h => absurd h List.not_mem_nil, rfl, Nat.zero_le _⟩
    exact (hstart.foldl hdoc hone (by omega) hsegments).finish hdoc

end Fits

end TinyCortex.Chunks.Produce
