import TinyCortex.Chunks.Semantic

/-! The semantic chunker keeps the body text: what its chunks show, apart from the headings in front, is what the body
shows, once and in order. A chunk is longer than the budget and its heading only where the budget does not hold one
character. -/

namespace TinyCortex.Chunks.Semantic

open Visible
open FrontMatter (lines)

/-! ### Lines -/

/-- A piece within the limit, or one character. -/
def Small (maxChars : Nat) (content : List Char) : Prop := size content ≤ maxChars ∨ content.length ≤ 1

variable {maxChars : Nat}

theorem Small.trim {content : List Char} (h : Small maxChars content) : Small maxChars (trim content) :=
  h.imp (size_trim_le content).trans (trim_sublist content).length_le.trans

theorem nextPiece_small (rest : List Char) : Small maxChars (nextPiece maxChars rest) := by
  have hfitting : Small maxChars
      (if Text.takeBytes maxChars rest = [] then rest.take 1 else Text.takeBytes maxChars rest) := by
    split_ifs
    · exact Or.inr (List.length_take_le 1 rest)
    · exact Or.inl (size_takeBytes_le maxChars rest)
  rw [nextPiece]
  split_ifs at hfitting ⊢
  all_goals first
    | exact hfitting
    | exact hfitting.imp (size_le_of_sublist (List.rdropWhile_prefix _ _).sublist).trans
        (List.rdropWhile_prefix _ _).sublist.length_le.trans

theorem visible_skipSpace (rest : List Char) : visible (skipSpace rest) = visible rest := by
  rw [skipSpace.eq_def]
  split
  · rfl
  · rfl

theorem visible_splitWithinLine (rest : List Char) : visible (splitWithinLine maxChars rest).flatten = visible rest := by
  induction rest using splitWithinLine.induct maxChars with
  | case1 =>
      rw [splitWithinLine, dif_pos rfl]
      rfl
  | case2 rest hne hfits =>
      rw [splitWithinLine, dif_neg hne, if_pos hfits, List.flatten_singleton, visible_append, visible_newline,
        List.append_nil]
  | case3 rest hne hlong piece ih =>
      rw [splitWithinLine, dif_neg hne, if_neg hlong, List.flatten_cons, visible_append, visible_append, visible_newline,
        List.append_nil, ih, visible_skipSpace, ← visible_append]
      exact congrArg visible (List.prefix_iff_eq_append.mp (nextPiece_prefixed maxChars rest))

theorem small_of_mem_splitWithinLine {rest part : List Char} (h : part ∈ splitWithinLine maxChars rest) :
    Small maxChars (trim part) := by
  induction rest using splitWithinLine.induct maxChars with
  | case1 =>
      rw [splitWithinLine, dif_pos rfl] at h
      cases h
  | case2 rest hne hfits =>
      rw [splitWithinLine, dif_neg hne, if_pos hfits, List.mem_singleton] at h
      rw [h, trim_append_newline]
      exact Or.inl ((size_trim_le rest).trans hfits)
  | case3 rest hne hlong piece ih =>
      rw [splitWithinLine, dif_neg hne, if_neg hlong] at h
      rcases List.mem_cons.mp h with rfl | hrest
      · rw [trim_append_newline]
        exact (nextPiece_small rest).trim
      · exact ih hrest

/-- What the line loop has: it shows the lines so far, and its pieces are small once they are trimmed. -/
structure LinesSoFar (limit : Nat) (seen : List Char) (s : Buffered) : Prop where
  visible : visible (s.done.flatten ++ s.current) = visible seen
  done : ∀ part ∈ s.done, Small limit (trim part)
  current : Small limit (trim s.current)

theorem small_line {limit : Nat} {content : List Char} (h : size content ≤ limit) :
    Small limit (trim (content ++ ['\n'])) := by
  rw [trim_append_newline]
  exact Or.inl ((size_trim_le content).trans h)

theorem LinesSoFar.flush {limit : Nat} {seen : List Char} {s : Buffered} (h : LinesSoFar limit seen s) :
    LinesSoFar limit seen s.flush ∧ s.flush.current = [] := by
  rw [Buffered.flush]
  by_cases hcurrent : s.current = []
  · rw [if_neg (not_not.mpr hcurrent)]
    exact ⟨h, hcurrent⟩
  · rw [if_pos hcurrent]
    refine ⟨⟨?_, ?_, Or.inr (Nat.zero_le 1)⟩, rfl⟩
    · rw [← h.visible, List.flatten_append, List.flatten_singleton, List.append_nil]
    · intro part hpart
      rcases List.mem_append.mp hpart with hold | hnew
      · exact h.done part hold
      · rw [List.mem_singleton.mp hnew]
        exact h.current

theorem LinesSoFar.splitLine {limit : Nat} {seen : List Char} {s : Buffered} (h : LinesSoFar limit seen s)
    (line : List Char) : LinesSoFar limit (seen ++ line) (s.splitLine limit line) := by
  rw [Buffered.splitLine]
  split_ifs with hlong hfull
  · obtain ⟨hflush, hempty⟩ := h.flush
    refine ⟨?_, ?_, hflush.current⟩
    · have hseen := hflush.visible
      rw [hempty, List.append_nil] at hseen
      rw [hempty, List.append_nil, List.flatten_append, visible_append, visible_append, visible_splitWithinLine, hseen]
    · intro part hpart
      exact (List.mem_append.mp hpart).elim (hflush.done part) small_of_mem_splitWithinLine
  · refine ⟨?_, ?_, small_line (Nat.not_lt.mp hlong)⟩
    · rw [visible_append seen, ← h.visible]
      simp
    · intro part hpart
      rcases List.mem_append.mp hpart with hold | hnew
      · exact h.done part hold
      · rw [List.mem_singleton.mp hnew]
        exact h.current
  · refine ⟨?_, h.done, ?_⟩
    · rw [visible_append seen, ← h.visible]
      simp
    · rw [← List.append_assoc]
      by_cases hcurrent : s.current = []
      · rw [hcurrent, List.nil_append]
        exact small_line (Nat.not_lt.mp hlong)
      · refine small_line ?_
        rw [size_append]
        by_contra hmore
        exact hfull ⟨by omega, hcurrent⟩

/-- The lines of a paragraph show what it shows. -/
theorem splitOnLines_spec (maxChars : Nat) (text : List Char) : visible (splitOnLines text maxChars).flatten = visible text ∧
    ∀ part ∈ splitOnLines text maxChars, Small (max maxChars 1) (trim part) := by
  have hfold : ∀ ls : List (List Char), ∀ seen s, LinesSoFar (max maxChars 1) seen s →
      LinesSoFar (max maxChars 1) (seen ++ ls.flatten) (ls.foldl (Buffered.splitLine (max maxChars 1)) s) := by
    intro ls
    induction ls with
    | nil =>
        intro seen s h
        rw [List.flatten_nil, List.append_nil]
        exact h
    | cons line ls ih =>
        intro seen s h
        rw [List.flatten_cons, ← List.append_assoc]
        exact ih _ _ (h.splitLine line)
  have hstart : LinesSoFar (max maxChars 1) [] ⟨[], []⟩ :=
    ⟨rfl, fun _ hpart => absurd hpart List.not_mem_nil, Or.inr (Nat.zero_le 1)⟩
  obtain ⟨hflush, hempty⟩ := (hfold (lines text) [] _ hstart).flush
  have hseen := hflush.visible
  rw [hempty, List.append_nil, List.nil_append, visible_lines] at hseen
  exact ⟨hseen, hflush.done⟩

/-! ### Paragraphs -/

theorem visible_splitOnBlankLines (text : List Char) : visible (splitOnBlankLines text).flatten = visible text := by
  have hflush : ∀ s : Buffered, visible (s.flushVisible.done.flatten ++ s.flushVisible.current) =
      visible (s.done.flatten ++ s.current) := by
    intro s
    rw [Buffered.flushVisible]
    split_ifs
    · simp
    · rfl
  have hline : ∀ (s : Buffered) (line : List Char), visible ((s.paragraphLine line).done.flatten ++
      (s.paragraphLine line).current) = visible (s.done.flatten ++ s.current) ++ visible line := by
    intro s line
    rw [Buffered.paragraphLine]
    split_ifs with hblank
    · rw [hflush, visible_eq_nil_iff.mpr hblank, List.append_nil]
    · simp
  have hfold : ∀ (ls : List (List Char)) (s : Buffered), visible ((ls.foldl Buffered.paragraphLine s).done.flatten ++
      (ls.foldl Buffered.paragraphLine s).current) = visible (s.done.flatten ++ s.current) ++ visible ls.flatten := by
    intro ls
    induction ls with
    | nil => intro s; simp
    | cons line ls ih =>
        intro s
        rw [List.foldl_cons, ih, hline, List.flatten_cons, visible_append line, List.append_assoc]
  have hall := hfold (lines text) ⟨[], []⟩
  rw [visible_lines, ← hflush] at hall
  rw [splitOnBlankLines]
  have hrest : visible ((lines text).foldl Buffered.paragraphLine ⟨[], []⟩).flushVisible.current = [] := by
    rw [Buffered.flushVisible]
    split_ifs with hblank
    · rfl
    · exact visible_eq_nil_iff.mpr (by simpa using hblank)
  rw [visible_append, hrest, List.append_nil] at hall
  simpa using hall

/-! ### Sections -/

/-- What a chunk is made of: the heading in front, or not, and a part of the body. -/
structure Piece where
  heading : Option (List Char)
  headed : Bool
  body : List Char
  deriving DecidableEq, Repr

def Piece.start (piece : Piece) : List Char := if piece.headed then headingPrefix piece.heading else []

def Piece.content (piece : Piece) : List Char := trim (piece.start ++ piece.body)

/-- Within the budget and its heading, or one character. -/
def Piece.Fits (maxChars : Nat) (piece : Piece) : Prop :=
  size piece.content ≤ maxChars + size piece.start ∨ piece.content.length ≤ 1

/-- The contents under a heading are made of pieces that fit, and the pieces show the body. -/
def Keeps (maxChars : Nat) (heading : Option (List Char)) (contents : List (List Char)) (body : List Char) : Prop :=
  ∃ pieces : List Piece, pieces.map Piece.content = contents ∧
    (∀ piece ∈ pieces, piece.heading = heading ∧ piece.Fits maxChars) ∧
    visible (pieces.flatMap Piece.body) = visible body

variable {heading : Option (List Char)}

theorem Keeps.nil : Keeps maxChars heading [] [] :=
  ⟨[], rfl, fun _ h => absurd h List.not_mem_nil, rfl⟩

theorem Keeps.append {contents more : List (List Char)} {body bodyMore : List Char}
    (h : Keeps maxChars heading contents body) (hmore : Keeps maxChars heading more bodyMore) :
    Keeps maxChars heading (contents ++ more) (body ++ bodyMore) := by
  obtain ⟨pieces, hcontents, hpieces, hbody⟩ := h
  obtain ⟨others, hcontents', hothers, hbody'⟩ := hmore
  refine ⟨pieces ++ others, ?_, List.forall_mem_append.mpr ⟨hpieces, hothers⟩, ?_⟩
  · rw [List.map_append, hcontents, hcontents']
  · rw [List.flatMap_append, visible_append, hbody, hbody', visible_append]

theorem Keeps.congr {contents : List (List Char)} {body body' : List Char} (h : Keeps maxChars heading contents body)
    (heq : visible body = visible body') : Keeps maxChars heading contents body' := by
  obtain ⟨pieces, hcontents, hpieces, hbody⟩ := h
  exact ⟨pieces, hcontents, hpieces, hbody.trans heq⟩

/-- A chunk that starts with the heading. -/
theorem Keeps.headed {rest : List Char}
    (h : size (trim (headingPrefix heading ++ rest)) ≤ maxChars + size (headingPrefix heading)) :
    Keeps maxChars heading [trim (headingPrefix heading ++ rest)] rest := by
  refine ⟨[⟨heading, true, rest⟩], rfl, ?_, ?_⟩
  · intro piece hpiece
    rw [List.mem_singleton.mp hpiece]
    exact ⟨rfl, Or.inl h⟩
  · rw [List.flatMap_singleton]

/-- The lines of a paragraph, without the heading. -/
theorem Keeps.lines (para : List Char) :
    Keeps maxChars heading ((splitOnLines para maxChars).map trim) para := by
  obtain ⟨hvisible, hsmall⟩ := splitOnLines_spec maxChars para
  refine ⟨(splitOnLines para maxChars).map fun part => ⟨heading, false, part⟩, ?_, ?_, ?_⟩
  · rw [List.map_map]
    rfl
  · intro piece hpiece
    obtain ⟨part, hpart, rfl⟩ := List.mem_map.mp hpiece
    refine ⟨rfl, (hsmall part hpart).elim (fun hle => ?_) Or.inr⟩
    -- a limit of nothing lets one byte through, which is one character
    have hcontent : Piece.content ⟨heading, false, part⟩ = trim part := rfl
    have hlength := length_le_size (trim part)
    rw [Piece.Fits, hcontent]
    omega
  · rw [List.flatMap_map]
    exact (congrArg visible List.flatMap_id').trans hvisible

/-- What the paragraph loop has: the chunks so far and the content at hand show the paragraphs so far. -/
structure ParagraphsSoFar (maxChars : Nat) (heading : Option (List Char)) (seen : List Char) (s : Buffered)
    (body rest : List Char) : Prop where
  current : s.current = headingPrefix heading ++ rest
  keeps : Keeps maxChars heading s.done body
  shown : visible (body ++ rest) = visible seen
  bound : size (trim s.current) ≤ maxChars + size (headingPrefix heading)

section Paragraphs

variable {seen body rest para : List Char} {s : Buffered}

theorem ParagraphsSoFar.last (h : ParagraphsSoFar maxChars heading seen s body rest) :
    Keeps maxChars heading (s.done ++ [trim s.current]) (body ++ rest) := by
  have hbound := h.bound
  rw [h.current] at hbound ⊢
  exact h.keeps.append (.headed hbound)

theorem ParagraphsSoFar.emit (h : ParagraphsSoFar maxChars heading seen s body rest) :
    ParagraphsSoFar maxChars heading seen (s.emit heading) (body ++ rest) [] where
  current := (List.append_nil _).symm
  keeps := h.last
  shown := by rw [List.append_nil, h.shown]
  bound := (size_trim_le _).trans (Nat.le_add_left _ _)

/-- Blank content shows nothing. -/
theorem ParagraphsSoFar.visible_rest (h : ParagraphsSoFar maxChars heading seen s body rest)
    (hblank : isBlank s.current = true) : visible rest = [] := by
  have hnone := visible_eq_nil_iff.mpr hblank
  rw [h.current, visible_append] at hnone
  exact (List.append_eq_nil_iff.mp hnone).2

theorem ParagraphsSoFar.oversize (h : ParagraphsSoFar maxChars heading seen s body rest) (hrest : visible rest = []) :
    ParagraphsSoFar maxChars heading (seen ++ para)
      { s with done := s.done ++ (splitOnLines para maxChars).map trim } (body ++ para) rest where
  current := h.current
  keeps := h.keeps.append (.lines para)
  shown := by
    have hshown := h.shown
    rw [visible_append, hrest, List.append_nil] at hshown
    rw [visible_append, visible_append, visible_append, hrest, hshown, List.append_nil]
  bound := h.bound

theorem ParagraphsSoFar.push (h : ParagraphsSoFar maxChars heading seen s body rest)
    (hroom : size (trim (s.current ++ para)) ≤ maxChars + size (headingPrefix heading)) :
    ParagraphsSoFar maxChars heading (seen ++ para) { s with current := s.current ++ (para ++ ['\n']) } body
      (rest ++ (para ++ ['\n'])) where
  current := by rw [h.current, List.append_assoc]
  keeps := h.keeps
  shown := by
    rw [← List.append_assoc, visible_append, h.shown, visible_append, visible_newline, List.append_nil, visible_append]
  bound := by
    rw [← List.append_assoc, trim_append_newline]
    exact hroom

theorem ParagraphsSoFar.paragraph (h : ParagraphsSoFar maxChars heading seen s body rest) (para : List Char) :
    ∃ body' rest', ParagraphsSoFar maxChars heading (seen ++ para) (s.paragraph heading maxChars para) body' rest' := by
  rw [Buffered.paragraph]
  dsimp only
  by_cases hfull : maxChars < size s.current + size para ∧ isBlank s.current = false
  · rw [if_pos hfull]
    by_cases hlong : maxChars < size para
    · rw [if_pos hlong]
      split_ifs
      · exact ⟨_, _, h.emit.emit.oversize rfl⟩
      · exact ⟨_, _, h.emit.oversize rfl⟩
    · rw [if_neg hlong]
      refine ⟨_, _, h.emit.push ((size_trim_le _).trans ?_)⟩
      rw [size_append]
      exact (Nat.add_le_add_left (Nat.not_lt.mp hlong) _).trans (Nat.add_comm _ _).le
  · rw [if_neg hfull]
    by_cases hlong : maxChars < size para
    · rw [if_pos hlong]
      split_ifs with hblank
      · exact ⟨_, _, h.emit.oversize rfl⟩
      · exact ⟨_, _, h.oversize (h.visible_rest (by simpa using hblank))⟩
    · rw [if_neg hlong]
      refine ⟨_, _, h.push ?_⟩
      by_cases hblank : isBlank s.current = true
      · rw [trim_append_of_blank hblank]
        exact (size_trim_le para).trans ((Nat.not_lt.mp hlong).trans (Nat.le_add_right _ _))
      · have hroom : size s.current + size para ≤ maxChars :=
          Nat.not_lt.mp fun hmore => hfull ⟨hmore, by simpa using hblank⟩
        refine (size_trim_le _).trans ?_
        rw [size_append]
        omega

end Paragraphs

theorem sectionContents_keeps (maxChars : Nat) (heading : Option (List Char)) (body : List Char) :
    Keeps maxChars heading (sectionContents maxChars heading body) body := by
  rw [sectionContents]
  split_ifs with hfits
  · refine .headed ((size_trim_le _).trans ?_)
    rw [size_append]
    omega
  have hfold : ∀ paras : List (List Char), ∀ seen s body rest, ParagraphsSoFar maxChars heading seen s body rest →
      ∃ body' rest', ParagraphsSoFar maxChars heading (seen ++ paras.flatten)
        (paras.foldl (Buffered.paragraph heading maxChars) s) body' rest' := by
    intro paras
    induction paras with
    | nil =>
        intro seen s body rest h
        rw [List.flatten_nil, List.append_nil]
        exact ⟨body, rest, h⟩
    | cons para paras ih =>
        intro seen s body rest h
        obtain ⟨body', rest', hnext⟩ := h.paragraph para
        rw [List.flatten_cons, ← List.append_assoc]
        exact ih _ _ _ _ hnext
  have hstart : ParagraphsSoFar maxChars heading [] ⟨[], headingPrefix heading⟩ [] [] :=
    ⟨(List.append_nil _).symm, .nil, rfl, (size_trim_le _).trans (Nat.le_add_left _ _)⟩
  obtain ⟨shown, rest, hend⟩ := hfold (splitOnBlankLines body) _ _ _ _ hstart
  have hbody := hend.shown
  rw [List.nil_append, visible_splitOnBlankLines] at hbody
  dsimp only
  split_ifs with hblank
  · exact hend.last.congr hbody
  · have hrest := hend.visible_rest (by simpa using hblank)
    refine hend.keeps.congr ?_
    rw [← hbody, visible_append, hrest, List.append_nil]

/-! ### Texts -/

/-- The headings of a text, and the lines that are none. -/
def headings (text : List Char) : List (List Char) := (lines text).filter isAtxHeading

def bodyText (text : List Char) : List Char := ((lines text).filter fun line => !isAtxHeading line).flatten

def sectionBodies (sections : List (Option (List Char) × List Char)) : List Char := sections.flatMap Prod.snd

/-- What the heading loop has: the sections and the body at hand show the lines so far that are no headings, and the
headings are lines. -/
structure SectionsSoFar (seen : List (List Char)) (s : Sections) : Prop where
  shown : visible (sectionBodies s.sections ++ s.currentBody) =
    visible (seen.filter fun line => !isAtxHeading line).flatten
  headings : ∀ part ∈ s.sections, ∀ h, part.1 = some h → h ∈ seen.filter isAtxHeading
  current : ∀ h, s.currentHeading = some h → h ∈ seen.filter isAtxHeading

theorem SectionsSoFar.flush {seen : List (List Char)} {s : Sections} (h : SectionsSoFar seen s) :
    SectionsSoFar seen s.flush := by
  rw [Sections.flush]
  split_ifs
  · refine ⟨?_, ?_, fun _ hnone => nomatch hnone⟩
    · rw [← h.shown, sectionBodies, sectionBodies, List.flatMap_append, List.flatMap_singleton, List.append_nil]
    · intro part hpart
      rcases List.mem_append.mp hpart with hold | hnew
      · exact h.headings part hold
      · rw [List.mem_singleton.mp hnew]
        exact h.current
  · exact h

theorem SectionsSoFar.line {seen : List (List Char)} {s : Sections} (h : SectionsSoFar seen s) (line : List Char) :
    SectionsSoFar (seen ++ [line]) (s.line line) := by
  have hold : ∀ {heading}, heading ∈ seen.filter isAtxHeading → heading ∈ (seen ++ [line]).filter isAtxHeading := by
    intro heading hmem
    rw [List.filter_append]
    exact List.mem_append_left _ hmem
  rw [Sections.line]
  split_ifs with hheading
  · refine ⟨?_, fun part hpart heading hsome => hold (h.flush.headings part hpart heading hsome), ?_⟩
    · rw [List.filter_append, List.filter_cons_of_neg (by simp [hheading]), List.filter_nil, List.append_nil]
      exact h.flush.shown
    · intro heading hsome
      rw [← Option.some.inj hsome, List.filter_append, List.filter_cons_of_pos hheading]
      exact List.mem_append_right _ List.mem_cons_self
  · refine ⟨?_, fun part hpart heading hsome => hold (h.headings part hpart heading hsome),
      fun heading hsome => hold (h.current heading hsome)⟩
    rw [List.filter_append, List.filter_cons_of_pos (by simp [hheading]), List.filter_nil, List.flatten_append,
      List.flatten_singleton, visible_append _ line, ← h.shown]
    simp

/-- The bodies of the sections show the lines that are no headings, and each heading is a line. -/
theorem splitOnHeadings_spec (text : List Char) :
    visible (sectionBodies (splitOnHeadings text)) = visible (bodyText text) ∧
      ∀ part ∈ splitOnHeadings text, ∀ h, part.1 = some h → h ∈ headings text := by
  have hfold : ∀ ls seen s, SectionsSoFar seen s → SectionsSoFar (seen ++ ls) (ls.foldl Sections.line s) := by
    intro ls
    induction ls with
    | nil =>
        intro seen s h
        rw [List.append_nil]
        exact h
    | cons line ls ih =>
        intro seen s h
        have hcons : seen ++ line :: ls = (seen ++ [line]) ++ ls := by simp
        rw [hcons]
        exact ih _ _ (h.line line)
  have hstart : SectionsSoFar [] ⟨[], none, []⟩ :=
    ⟨rfl, fun _ hpart => absurd hpart List.not_mem_nil, fun _ hnone => nomatch hnone⟩
  have hend := (hfold (lines text) [] _ hstart).flush
  rw [List.nil_append] at hend
  refine ⟨?_, hend.headings⟩
  have hrest : visible ((lines text).foldl Sections.line ⟨[], none, []⟩).flush.currentBody = [] := by
    rw [Sections.flush]
    split_ifs with hsection
    · rfl
    · exact visible_eq_nil_iff.mpr (by simpa using (not_or.mp hsection).1)
  have hshown := hend.shown
  rw [visible_append, hrest, List.append_nil] at hshown
  exact hshown

/-- Sections one after the other. -/
theorem sections_keep (maxChars : Nat) (sections : List (Option (List Char) × List Char)) : ∃ pieces : List Piece,
    pieces.map (fun piece => (piece.content, piece.heading)) = (sections.flatMap fun part =>
      (sectionContents maxChars part.1 part.2).map fun content => (content, part.1)) ∧
    (∀ piece ∈ pieces, piece.Fits maxChars ∧ ∃ part ∈ sections, piece.heading = part.1) ∧
    visible (pieces.flatMap Piece.body) = visible (sectionBodies sections) := by
  induction sections with
  | nil => exact ⟨[], rfl, fun _ h => absurd h List.not_mem_nil, rfl⟩
  | cons part sections ih =>
      obtain ⟨others, hothers, hfits, hshown⟩ := ih
      obtain ⟨pieces, hcontents, hpieces, hbody⟩ := sectionContents_keeps maxChars part.1 part.2
      refine ⟨pieces ++ others, ?_, ?_, ?_⟩
      · rw [List.map_append, hothers, List.flatMap_cons, ← hcontents, List.map_map]
        congr 1
        apply List.map_congr_left
        intro piece hpiece
        exact Prod.ext rfl (hpieces piece hpiece).1
      · intro piece hpiece
        rcases List.mem_append.mp hpiece with hfirst | hrest
        · obtain ⟨hheading, hfit⟩ := hpieces piece hfirst
          exact ⟨hfit, part, List.mem_cons_self, hheading⟩
        · obtain ⟨hfit, other, hother, hheading⟩ := hfits piece hrest
          exact ⟨hfit, other, List.mem_cons_of_mem _ hother, hheading⟩
      · rw [List.flatMap_append, visible_append, hbody, hshown, ← visible_append]
        rfl

/-- Empty chunks show nothing. -/
theorem visible_filter_content (pieces : List Piece) :
    visible ((pieces.filter fun piece => piece.content ≠ []).flatMap Piece.body) =
      visible (pieces.flatMap Piece.body) := by
  induction pieces with
  | nil => rfl
  | cons piece pieces ih =>
      rw [List.filter_cons, List.flatMap_cons, visible_append, ← ih]
      by_cases hempty : piece.content = []
      · have hnone : visible (piece.start ++ piece.body) = [] := by
          rw [← visible_trim, ← Piece.content, hempty, visible_nil]
        rw [visible_append] at hnone
        rw [(List.append_eq_nil_iff.mp hnone).2, if_neg (by simp [hempty]), List.nil_append]
      · rw [if_pos (by simp [hempty]), List.flatMap_cons, visible_append]

theorem visible_bodyText_of_blank {text : List Char} (h : isBlank text = true) : visible (bodyText text) = [] := by
  have hlines : visible (lines text).flatten = [] := (visible_lines text).trans (visible_eq_nil_iff.mpr h)
  rw [visible_eq_nil_iff, isBlank, List.all_eq_true] at hlines ⊢
  intro c hc
  obtain ⟨line, hline, hmem⟩ := List.mem_flatten.mp hc
  exact hlines c (List.mem_flatten.mpr ⟨line, List.mem_of_mem_filter hline, hmem⟩)

/-- The chunks are made of pieces in their order: each is the heading of its section, or not, and a part of the body. The
pieces show the lines of the text that are no headings, once and in order. Each is within the bytes of the budget and
its heading, unless there is no budget and it is one character. -/
theorem chunkMarkdown_keeps (text : List Char) (maxTokens : Nat) : ∃ pieces : List Piece,
    chunkMarkdown text maxTokens = pieces.zipIdx.map (fun (piece, i) => ⟨i, piece.content, piece.heading⟩) ∧
    visible (pieces.flatMap Piece.body) = visible (bodyText text) ∧
    ∀ piece ∈ pieces, (∀ h, piece.heading = some h → h ∈ headings text) ∧
      (size piece.content ≤ maxTokens * 4 + size piece.start ∨ maxTokens = 0 ∧ piece.content.length = 1) := by
  rw [chunkMarkdown]
  split_ifs with hblank
  · exact ⟨[], rfl, (visible_bodyText_of_blank hblank).symm, fun _ h => absurd h List.not_mem_nil⟩
  obtain ⟨hbodies, hheadings⟩ := splitOnHeadings_spec text
  obtain ⟨pieces, hcontents, hpieces, hshown⟩ := sections_keep (maxTokens * 4 % 2 ^ 64) (splitOnHeadings text)
  refine ⟨pieces.filter fun piece => piece.content ≠ [], ?_, ?_, ?_⟩
  · dsimp only
    rw [← hcontents, List.filter_map, List.zipIdx_map, List.map_map]
    rfl
  · rw [visible_filter_content, hshown, hbodies]
  · intro piece hpiece
    obtain ⟨hmem, hnonempty⟩ := List.mem_filter.mp hpiece
    obtain ⟨hfits, part, hpart, hheading⟩ := hpieces piece hmem
    refine ⟨fun h hsome => hheadings part hpart h (hheading.symm.trans hsome), ?_⟩
    have hwrapped : maxTokens * 4 % 2 ^ 64 ≤ maxTokens * 4 := Nat.mod_le _ _
    rcases hfits with hle | hone
    · exact Or.inl (by omega)
    · by_cases hzero : maxTokens = 0
      · have hpos := List.length_pos_of_ne_nil (of_decide_eq_true hnonempty)
        exact Or.inr ⟨hzero, by omega⟩
      · have hfour := size_le_of_length_le_one hone
        exact Or.inl (by omega)

theorem splitOnLines_no_budget : splitOnLines ['é', '\n'] 0 = [['é', '\n']] := by
  have hlines : lines ['é', '\n'] = [['é']] := by decide
  have hpiece : splitWithinLine 1 ['é'] = [['é', '\n']] := by
    have hnext : nextPiece 1 ['é'] = ['é'] := by decide
    have hend : splitWithinLine 1 [] = [] := by rw [splitWithinLine, dif_pos rfl]
    rw [splitWithinLine, dif_neg (by decide), if_neg (by decide), hnext]
    show (['é'] ++ ['\n']) :: splitWithinLine 1 [] = _
    rw [hend]
    rfl
  have hline : Buffered.splitLine 1 ⟨[], []⟩ ['é'] = ⟨[['é', '\n']], []⟩ := by
    rw [Buffered.splitLine, if_pos (by decide), hpiece]
    rfl
  show ((lines ['é', '\n']).foldl (Buffered.splitLine 1) ⟨[], []⟩).flush.done = _
  rw [hlines, List.foldl_cons, hline]
  rfl

theorem chunkMarkdown_one_character : chunkMarkdown ['é'] 0 = [⟨0, ['é'], none⟩] := by
  have hparagraphs : splitOnBlankLines ['é', '\n'] = [['é', '\n']] := by decide
  have hparagraph : Buffered.paragraph none 0 ⟨[], headingPrefix none⟩ ['é', '\n'] = ⟨[['é']], []⟩ := by
    have htrim : [['é', '\n']].map trim = [['é']] := by decide
    have hfull : ¬(0 < size (headingPrefix none) + size ['é', '\n'] ∧ isBlank (headingPrefix none) = false) := by decide
    have hblank : ¬isBlank (headingPrefix none) = false := by decide
    have hlong : 0 < size ['é', '\n'] := by decide
    rw [Buffered.paragraph]
    dsimp only
    rw [if_pos hlong, if_neg hfull, if_neg hblank, splitOnLines_no_budget, htrim]
    rfl
  have hcontents : sectionContents 0 none ['é', '\n'] = [['é']] := by
    rw [sectionContents, if_neg (by decide), hparagraphs, List.foldl_cons, hparagraph]
    rfl
  have hsections : splitOnHeadings ['é'] = [(none, ['é', '\n'])] := by decide
  rw [chunkMarkdown, if_neg (by decide), hsections]
  show ((((sectionContents 0 none ['é', '\n']).map fun content => (content, none)) ++ []).filter _).zipIdx.map _ = _
  rw [hcontents]
  rfl

/-- Without a budget a chunk is still a whole character, here of two bytes. -/
theorem chunkMarkdown_over_budget : ∃ chunk ∈ chunkMarkdown ['é'] 0,
    max (0 * 4) 1 + size (headingPrefix chunk.heading) < size chunk.content := by
  rw [chunkMarkdown_one_character]
  exact ⟨_, List.mem_singleton_self _, by decide⟩

end TinyCortex.Chunks.Semantic
