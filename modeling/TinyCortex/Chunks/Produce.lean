import TinyCortex.Chunks.Split
import TinyCortex.Lib.Text

/-! Markdown cut into chunks (`chunks/produce.rs`): by messages, and by the token budget where a message is
too long or the source is a document. -/

namespace TinyCortex.Chunks.Produce

open Pieces

/-- What the chunker gets. The metadata is only copied. -/
structure ChunkerInput (μ : Type*) where
  sourceKind : SourceKind
  sourceId : String
  markdown : List Char
  metadata : μ

structure Chunk (μ : Type*) where
  id : String
  content : List Char
  metadata : μ
  tokenCount : Nat
  seqInSource : Nat
  createdAtMs : Int
  partialMessage : Bool
  deriving DecidableEq

/-- `str::trim_end`. -/
def trimEnd (text : List Char) : List Char := text.rdropWhile Text.isWhitespace

def isBlank (text : List Char) : Bool := text.all Text.isWhitespace

/-- The lines of `str::split_inclusive`. -/
def splitInclusive (md : List Char) : List (List Char) := cutAfter (fun c _ => c == '\n') md

def startsMessage : List (List Char) → Bool
  | [] => false
  | line :: _ => "## ".toList.isPrefixOf line

def splitChatMessages (md : List Char) : List (List Char) :=
  let pieces := ((sections startsMessage none (splitInclusive md)).map fun lines =>
    trimEnd lines.flatten).filter (· ≠ [])
  if pieces = [] ∧ ¬isBlank md then [trimEnd md] else pieces

/-- A line of the next few starts with `From:`, and those before it are blank. -/
def fromWithin : Nat → List (List Char) → Bool
  | 0, _ => false
  | _, [] => false
  | n + 1, candidate :: rest =>
      if "From:".toList.isPrefixOf candidate then true
      else if isBlank candidate then fromWithin n rest else false

def startsEmail : List (List Char) → Bool
  | [] => false
  | line :: rest => trimEnd line == "---".toList && fromWithin 8 rest

def splitEmailMessages (md : List Char) : List (List Char) :=
  let found := sections startsEmail none (md.splitOn '\n')
  if found = [] then (if trimEnd md = [] then [] else [trimEnd md])
  else (found.map fun lines => trimEnd (List.intercalate ['\n'] lines)).filter (· ≠ [])

section Chunk

variable {μ : Type*} (contract : Contract) (now : Int) (input : ChunkerInput μ)

def chunk (idSeq seq : Nat) (partialMessage : Bool) (content : List Char) : Chunk μ where
  id := contract.chunkId input.sourceKind input.sourceId (idSeq % 2 ^ 32) content
  content := content
  metadata := input.metadata
  tokenCount := contract.approxTokenCount content
  seqInSource := seq % 2 ^ 32
  createdAtMs := now
  partialMessage := partialMessage

/-- The messages that a markdown is cut into. -/
def messages : List (List Char) :=
  match input.sourceKind with
  | .chat => splitChatMessages input.markdown
  | .email => splitEmailMessages input.markdown
  | .document => []

def maxChars (maxTokens : Nat) : Nat := min (maxTokens * 4) (2 ^ 64 - 1)

/-- The chunks of one more message; a long one is cut up. -/
def pushUnit (maxTokens : Nat) (out : List (Chunk μ)) (unit : List Char) : List (Chunk μ) :=
  if maxChars maxTokens < unit.length then
    out ++ (splitByTokenBudget contract unit maxTokens).mapIdx fun part piece =>
      chunk contract now input part (out.length + part) true piece
  else out ++ [chunk contract now input 0 out.length false unit]

def chunkMarkdown (optsMaxTokens : Nat) : List (Chunk μ) :=
  let maxTokens := max optsMaxTokens 1
  if input.sourceKind = .document then
    (splitByTokenBudget contract input.markdown maxTokens).mapIdx fun idx content =>
      chunk contract now input idx idx false content
  else
    let out := (messages input).foldl (pushUnit contract now input maxTokens) []
    if out = [] then [⟨contract.chunkId input.sourceKind input.sourceId 0 [], [], input.metadata, 0, 0, now, false⟩]
    else out

/-- The id and the content of a chunk. -/
def Chunk.named (chunk : Chunk μ) : String × List Char := (chunk.id, chunk.content)

/-- The ids and contents of the chunks of one message. -/
def unitNamed (maxTokens : Nat) (unit : List Char) : List (String × List Char) :=
  if maxChars maxTokens < unit.length then
    (splitByTokenBudget contract unit maxTokens).mapIdx fun part piece =>
      (contract.chunkId input.sourceKind input.sourceId (part % 2 ^ 32) piece, piece)
  else [(contract.chunkId input.sourceKind input.sourceId 0 unit, unit)]

/-- The ids and contents of a message do not depend on the messages before it. -/
theorem named_pushUnit (maxTokens : Nat) (out : List (Chunk μ)) (unit : List Char) :
    (pushUnit contract now input maxTokens out unit).map Chunk.named =
      out.map Chunk.named ++ unitNamed contract input maxTokens unit := by
  rw [pushUnit, unitNamed]
  split_ifs
  · rw [List.map_append, List.mapIdx_eq_zipIdx_map, List.mapIdx_eq_zipIdx_map, List.map_map]
    rfl
  · rw [List.map_append]
    rfl

theorem named_foldl (maxTokens : Nat) (units : List (List Char)) (out : List (Chunk μ)) :
    (units.foldl (pushUnit contract now input maxTokens) out).map Chunk.named =
      out.map Chunk.named ++ units.flatMap (unitNamed contract input maxTokens) := by
  induction units generalizing out with
  | nil => rw [List.foldl_nil, List.flatMap_nil, List.append_nil]
  | cons unit units ih =>
      rw [List.foldl_cons, ih, named_pushUnit, List.flatMap_cons, List.append_assoc]

theorem splitByTokenBudget_ne_nil (text : List Char) (maxTokens : Nat) :
    splitByTokenBudget contract text maxTokens ≠ [] := by
  have hfinish : ∀ packing : Packing, packing.finish ≠ [] := by
    intro packing
    rw [Packing.finish]
    split_ifs with hcur hchunks hchunks
    · exact List.cons_ne_nil _ _
    · exact hchunks
    · exact List.cons_ne_nil _ _
    · exact hchunks
  rw [splitByTokenBudget]
  dsimp only
  split_ifs
  · exact List.cons_ne_nil _ _
  · exact List.cons_ne_nil _ _
  · exact List.cons_ne_nil _ _
  · exact hfinish _

theorem unitNamed_ne_nil (maxTokens : Nat) (unit : List Char) :
    unitNamed contract input maxTokens unit ≠ [] := by
  rw [unitNamed]
  split_ifs
  · intro hnil
    exact splitByTokenBudget_ne_nil contract unit maxTokens (List.mapIdx_eq_nil_iff.mp hnil)
  · exact List.cons_ne_nil _ _

/-- Messages that are found give the chunks of each of them, one after the other. -/
theorem named_chunkMarkdown {optsMaxTokens : Nat} (hkind : input.sourceKind ≠ .document)
    (hfound : messages input ≠ []) :
    (chunkMarkdown contract now input optsMaxTokens).map Chunk.named =
      (messages input).flatMap (unitNamed contract input (max optsMaxTokens 1)) := by
  have hfold := named_foldl contract now input (max optsMaxTokens 1) (messages input) []
  rw [List.map_nil, List.nil_append] at hfold
  rw [chunkMarkdown]
  dsimp only
  rw [if_neg hkind, if_neg, hfold]
  intro hnil
  rw [hnil, List.map_nil] at hfold
  obtain ⟨unit, hunit⟩ := List.exists_mem_of_ne_nil _ hfound
  exact unitNamed_ne_nil contract input _ unit (List.flatMap_eq_nil_iff.mp hfold.symm unit hunit)

end Chunk

/-- The chunk has at most so many tokens, or is a single character that has more. -/
def Fits (contract : Contract) (maxTokens : Nat) (content : List Char) : Prop :=
  contract.conservativeTokenEstimate content ≤ maxTokens ∨
    ∃ c, content = [c] ∧ maxTokens < contract.conservativeTokenEstimate [c]

section Fits

variable {μ : Type*} {contract : Contract}

theorem Contract.Documented.fits_iff (hdoc : contract.Documented) {maxTokens : Nat} (hpos : 1 ≤ maxTokens)
    (content : List Char) :
    Fits contract maxTokens content ↔ contract.conservativeTokenEstimate content ≤ maxTokens := by
  refine or_iff_left fun h => ?_
  obtain ⟨c, -, hlt⟩ := h
  have hchar := hdoc.char c
  omega

/-- Every chunk fits exactly when each message that is not cut up for its length does. -/
theorem chunks_fit_iff (contract : Contract) (hdoc : contract.Documented) (now : Int) (input : ChunkerInput μ)
    (maxTokens : Nat) (hpos : 1 ≤ maxTokens) (hlt : maxTokens < 2 ^ 32) :
    (∀ chunk ∈ chunkMarkdown contract now input maxTokens, Fits contract maxTokens chunk.content) ↔
      ∀ unit ∈ messages input, unit.length ≤ maxChars maxTokens →
        contract.conservativeTokenEstimate unit ≤ maxTokens := by
  have hmax : max maxTokens 1 = maxTokens := Nat.max_eq_left hpos
  have hsplit : ∀ text, ∀ piece ∈ splitByTokenBudget contract text maxTokens,
      contract.conservativeTokenEstimate piece ≤ maxTokens := by
    intro text piece hpiece
    have hfits := fits_splitByTokenBudget hdoc hlt piece hpiece
    rwa [hmax] at hfits
  simp only [hdoc.fits_iff hpos]
  by_cases hkind : input.sourceKind = .document
  · have hnone : messages input = [] := by rw [messages, hkind]
    refine iff_of_true (fun chunk hchunk => ?_) (by rw [hnone]; exact fun _ h => absurd h List.not_mem_nil)
    rw [chunkMarkdown, if_pos hkind, hmax] at hchunk
    obtain ⟨idx, hidx, rfl⟩ := List.mem_mapIdx.mp hchunk
    exact hsplit _ _ (List.getElem_mem hidx)
  by_cases hfound : messages input = []
  · rw [hfound]
    refine iff_of_true (fun chunk hchunk => ?_) (fun _ h => absurd h List.not_mem_nil)
    rw [chunkMarkdown, if_neg hkind, hfound] at hchunk
    dsimp only at hchunk
    rw [List.foldl_nil, if_pos rfl] at hchunk
    rw [List.mem_singleton.mp hchunk, hdoc.empty]
    exact Nat.zero_le _
  have hnamed : (chunkMarkdown contract now input maxTokens).map Chunk.named = _ :=
    named_chunkMarkdown contract now input hkind hfound
  rw [hmax] at hnamed
  constructor
  · intro h unit hunit hshort
    have hmem : (contract.chunkId input.sourceKind input.sourceId 0 unit, unit) ∈
        (messages input).flatMap (unitNamed contract input maxTokens) := by
      refine List.mem_flatMap.mpr ⟨unit, hunit, ?_⟩
      rw [unitNamed, if_neg (Nat.not_lt.mpr hshort)]
      exact List.mem_singleton_self _
    rw [← hnamed] at hmem
    obtain ⟨chunk, hchunk, hname⟩ := List.mem_map.mp hmem
    have hcontent : chunk.content = unit := congrArg Prod.snd hname
    rw [← hcontent]
    exact h chunk hchunk
  · intro h chunk hchunk
    have hmem := List.mem_map_of_mem (f := Chunk.named) hchunk
    rw [hnamed] at hmem
    obtain ⟨unit, hunit, hname⟩ := List.mem_flatMap.mp hmem
    rw [unitNamed] at hname
    split_ifs at hname with hlong
    · obtain ⟨part, hpart, hname⟩ := List.mem_mapIdx.mp hname
      have hcontent : (splitByTokenBudget contract unit maxTokens)[part] = chunk.content :=
        congrArg Prod.snd hname
      rw [← hcontent]
      exact hsplit unit _ (List.getElem_mem hpart)
    · have hcontent : chunk.content = unit := congrArg Prod.snd (List.mem_singleton.mp hname)
      rw [hcontent]
      exact h unit hunit (Nat.not_lt.mp hlong)

end Fits

section Weights

/-- The weight of a character, in quarters of a token. -/
def quarters (c : Char) : Nat := if c.isAlphanum then 2 else if Text.isWhitespace c then 1 else 4

def weigh (text : List Char) : Nat := min (((text.map quarters).sum + 3) / 4) (2 ^ 32 - 1)

/-- The longest of the first starts of a text that fits. -/
def truncateFrom (text : List Char) (budget : Nat) : Nat → List Char
  | 0 => []
  | n + 1 => if weigh (text.take (n + 1)) ≤ budget then text.take (n + 1) else truncateFrom text budget n

def weighing : Contract where
  conservativeTokenEstimate := weigh
  truncateToConservativeTokens := fun text budget => truncateFrom text budget text.length
  approxTokenCount := fun text => (text.length + 3) / 4
  chunkId := fun _ sourceId seq content => sourceId ++ ":" ++ toString seq ++ ":" ++ String.ofList content

theorem quarters_pos (c : Char) : 1 ≤ quarters c := by
  rw [quarters]
  split_ifs <;> decide

theorem quarters_le (c : Char) : quarters c ≤ 4 := by
  rw [quarters]
  split_ifs <;> decide

theorem weighing_documented : weighing.Documented where
  lt text := by
    show weigh text < _
    rw [weigh]
    omega
  subadditive text rest := by
    show weigh _ ≤ weigh _ + weigh _
    rw [weigh, weigh, weigh, List.map_append, List.sum_append]
    omega
  empty := rfl
  char c := by
    show weigh _ ≤ 1
    have hle := quarters_le c
    rw [weigh, List.map_singleton, List.sum_singleton]
    omega
  pos text hne := by
    show 1 ≤ weigh _
    obtain ⟨c, rest, rfl⟩ := List.exists_cons_of_ne_nil hne
    have hpos := quarters_pos c
    rw [weigh, List.map_cons, List.sum_cons]
    omega
  truncatePrefix text budget := by
    show truncateFrom text budget text.length <+: text
    induction text.length with
    | zero => exact List.nil_prefix
    | succ n ih =>
        rw [truncateFrom]
        split_ifs
        · exact List.take_prefix _ _
        · exact ih
  truncateFits text budget := by
    show weigh (truncateFrom text budget text.length) ≤ budget
    induction text.length with
    | zero =>
        rw [truncateFrom, show weigh [] = 0 from rfl]
        exact Nat.zero_le _
    | succ n ih =>
        rw [truncateFrom]
        split_ifs with hfits
        · exact hfits
        · exact ih

/-- A chat message of signs. -/
def signs : ChunkerInput Unit := ⟨.chat, "slack:eng", "## now — a\n####################".toList, ()⟩

theorem signs_chunks : chunkMarkdown weighing 0 signs 10 =
    [⟨"slack:eng:0:## now — a\n####################", "## now — a\n####################".toList, (), 8, 0, 0,
      false⟩] := by
  decide +kernel

/-- A short message of signs is a chunk of more tokens than a chunk may have. -/
theorem signs_over : ¬∀ chunk ∈ chunkMarkdown weighing 0 signs 10, Fits weighing 10 chunk.content := by
  rw [signs_chunks]
  intro h
  rcases h _ List.mem_cons_self with hle | ⟨c, hsingle, -⟩
  · exact absurd hle (by decide +kernel)
  · have hlength := congrArg List.length hsingle
    rw [List.length_singleton] at hlength
    exact absurd hlength (by decide)

/-- With room for its signs, the message fits. -/
theorem signs_fit : (chunkMarkdown weighing 0 signs 30).Forall fun chunk => Fits weighing 30 chunk.content := by
  rw [List.forall_iff_forall_mem]
  refine (chunks_fit_iff weighing weighing_documented 0 signs 30 (by decide) (by decide)).mpr ?_
  intro unit hunit _
  have hall : ∀ unit ∈ messages signs, weighing.conservativeTokenEstimate unit ≤ 30 := by decide +kernel
  exact hall unit hunit

end Weights

end TinyCortex.Chunks.Produce
