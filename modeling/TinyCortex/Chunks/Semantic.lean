import TinyCortex.Lib.Visible

/-! The semantic chunker (`chunks/semantic.rs`). A text is its characters, sizes are bytes of UTF-8, and the offsets of
the source are places between characters. -/

namespace TinyCortex.Chunks.Semantic

open Visible
open Text (takeBytes)
open FrontMatter (lines)

structure Chunk where
  index : Nat
  content : List Char
  heading : Option (List Char)
  deriving DecidableEq, Repr

def isAtxHeading (line : List Char) : Bool :=
  ["# ", "## ", "### ", "#### ", "##### ", "###### "].any fun p => p.toList.isPrefixOf line

/-! ### Sections -/

/-- The sections that are through, and the heading and body of the one at hand. -/
structure Sections where
  sections : List (Option (List Char) × List Char)
  currentHeading : Option (List Char)
  currentBody : List Char
  deriving DecidableEq, Repr

def Sections.flush (s : Sections) : Sections :=
  if isBlank s.currentBody = false ∨ s.currentHeading.isSome then
    ⟨s.sections ++ [(s.currentHeading, s.currentBody)], none, []⟩
  else s

def Sections.line (s : Sections) (line : List Char) : Sections :=
  if isAtxHeading line then { s.flush with currentHeading := some line }
  else { s with currentBody := s.currentBody ++ (line ++ ['\n']) }

def splitOnHeadings (text : List Char) : List (Option (List Char) × List Char) :=
  ((lines text).foldl Sections.line ⟨[], none, []⟩).flush.sections

/-! ### Paragraphs -/

/-- The pieces that are through and the one at hand. -/
structure Buffered where
  done : List (List Char)
  current : List Char
  deriving DecidableEq, Repr

def Buffered.flushVisible (s : Buffered) : Buffered :=
  if isBlank s.current = false then ⟨s.done ++ [s.current], []⟩ else s

def Buffered.paragraphLine (s : Buffered) (line : List Char) : Buffered :=
  if isBlank line then s.flushVisible else { s with current := s.current ++ (line ++ ['\n']) }

def splitOnBlankLines (text : List Char) : List (List Char) :=
  ((lines text).foldl Buffered.paragraphLine ⟨[], []⟩).flushVisible.done

/-! ### Lines -/

/-- The start of a line that goes next: as many characters as the bytes allow, or one; up to the last space in them. -/
def nextPiece (maxChars : Nat) (rest : List Char) : List Char :=
  let fitting := takeBytes maxChars rest
  let fitting := if fitting = [] then rest.take 1 else fitting
  let upToSpace := fitting.rdropWhile (· ≠ ' ')
  if upToSpace = [] then fitting else upToSpace

/-- The space at a split is skipped. -/
def skipSpace : List Char → List Char
  | ' ' :: rest => rest
  | rest => rest

theorem nextPiece_prefixed (maxChars : Nat) (rest : List Char) : nextPiece maxChars rest <+: rest := by
  have hfitting : (if takeBytes maxChars rest = [] then rest.take 1 else takeBytes maxChars rest) <+: rest := by
    split_ifs
    · exact List.take_prefix 1 rest
    · exact takeBytes_prefix maxChars rest
  rw [nextPiece]
  split_ifs at hfitting ⊢
  all_goals first
    | exact hfitting
    | exact (List.rdropWhile_prefix _ _).trans hfitting

theorem nextPiece_ne_nil (maxChars : Nat) {rest : List Char} (h : rest ≠ []) : nextPiece maxChars rest ≠ [] := by
  have hfitting : (if takeBytes maxChars rest = [] then rest.take 1 else takeBytes maxChars rest) ≠ [] := by
    split_ifs with hnone
    · cases rest with
      | nil => exact absurd rfl h
      | cons c rest => exact List.cons_ne_nil _ _
    · exact hnone
  rw [nextPiece]
  split_ifs at hfitting ⊢
  all_goals assumption

theorem length_skipSpace_le (rest : List Char) : (skipSpace rest).length ≤ rest.length := by
  rw [skipSpace.eq_def]
  split
  · exact Nat.le_succ _
  · exact Nat.le_refl _

def splitWithinLine (maxChars : Nat) (rest : List Char) : List (List Char) :=
  if _hnil : rest = [] then []
  else if size rest ≤ maxChars then [rest ++ ['\n']]
  else
    let piece := nextPiece maxChars rest
    (piece ++ ['\n']) :: splitWithinLine maxChars (skipSpace (rest.drop piece.length))
termination_by rest.length
decreasing_by
  -- every piece has a character
  have hpos := List.length_pos_of_ne_nil (nextPiece_ne_nil maxChars _hnil)
  have hskip := length_skipSpace_le (rest.drop (nextPiece maxChars rest).length)
  have hrest := List.length_pos_of_ne_nil _hnil
  rw [List.length_drop] at hskip
  omega

def Buffered.flush (s : Buffered) : Buffered := if s.current ≠ [] then ⟨s.done ++ [s.current], []⟩ else s

def Buffered.splitLine (effectiveMax : Nat) (s : Buffered) (line : List Char) : Buffered :=
  if effectiveMax < size line then { s.flush with done := s.flush.done ++ splitWithinLine effectiveMax line }
  else if effectiveMax < size s.current + size line + 1 ∧ s.current ≠ [] then
    ⟨s.done ++ [s.current], line ++ ['\n']⟩
  else { s with current := s.current ++ (line ++ ['\n']) }

def splitOnLines (text : List Char) (maxChars : Nat) : List (List Char) :=
  ((lines text).foldl (Buffered.splitLine (max maxChars 1)) ⟨[], []⟩).flush.done

/-! ### Chunks -/

def headingPrefix (heading : Option (List Char)) : List Char := heading.elim [] fun h => h ++ ['\n']

/-- The content at hand becomes a chunk, and the next one starts with the heading. -/
def Buffered.emit (heading : Option (List Char)) (s : Buffered) : Buffered :=
  ⟨s.done ++ [trim s.current], headingPrefix heading⟩

def Buffered.paragraph (heading : Option (List Char)) (maxChars : Nat) (s : Buffered) (para : List Char) : Buffered :=
  let s := if maxChars < size s.current + size para ∧ isBlank s.current = false then s.emit heading else s
  if maxChars < size para then
    let s := if isBlank s.current = false then s.emit heading else s
    { s with done := s.done ++ (splitOnLines para maxChars).map trim }
  else { s with current := s.current ++ (para ++ ['\n']) }

/-- The contents of the chunks of one section. -/
def sectionContents (maxChars : Nat) (heading : Option (List Char)) (body : List Char) : List (List Char) :=
  if size body + size (headingPrefix heading) ≤ maxChars then [trim (headingPrefix heading ++ body)]
  else
    let s := (splitOnBlankLines body).foldl (Buffered.paragraph heading maxChars) ⟨[], headingPrefix heading⟩
    if isBlank s.current = false then s.done ++ [trim s.current] else s.done

/-- `chunk_markdown` of this module; the product wraps as in a release build. -/
def chunkMarkdown (text : List Char) (maxTokens : Nat) : List Chunk :=
  if isBlank text then []
  else
    let maxChars := maxTokens * 4 % 2 ^ 64
    let chunks := (splitOnHeadings text).flatMap fun part =>
      (sectionContents maxChars part.1 part.2).map fun content => (content, part.1)
    (chunks.filter fun chunk => chunk.1 ≠ []).zipIdx.map fun (chunk, i) => ⟨i, chunk.1, chunk.2⟩

end TinyCortex.Chunks.Semantic
