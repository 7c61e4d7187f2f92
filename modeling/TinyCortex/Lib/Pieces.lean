import TinyCortex.Lib.Lines

/-! A list cut into pieces: behind some of its elements, or before each head of a section. -/

namespace TinyCortex.Pieces

variable {α : Type*}

/-- The element goes to the first piece, which is a new one if there is none. -/
def consFirst (a : α) : List (List α) → List (List α)
  | [] => [[a]]
  | piece :: pieces => (a :: piece) :: pieces

theorem flatten_consFirst (a : α) (pieces : List (List α)) :
    (consFirst a pieces).flatten = a :: pieces.flatten := by
  cases pieces with
  | nil => rfl
  | cons piece pieces => rfl

theorem nonempty_consFirst (a : α) {pieces : List (List α)} (h : ∀ piece ∈ pieces, piece ≠ []) :
    ∀ piece ∈ consFirst a pieces, piece ≠ [] := by
  cases pieces with
  | nil => exact List.forall_mem_singleton.mpr (List.cons_ne_nil a [])
  | cons piece pieces =>
      exact List.forall_mem_cons.mpr ⟨List.cons_ne_nil a piece, (List.forall_mem_cons.mp h).2⟩

/-- Cut behind each element that ends a piece, by what follows it. -/
def cutAfter (ends : α → Option α → Bool) : List α → List (List α)
  | [] => []
  | a :: rest =>
      if ends a rest.head? then [a] :: cutAfter ends rest else consFirst a (cutAfter ends rest)

theorem flatten_cutAfter (ends : α → Option α → Bool) (l : List α) : (cutAfter ends l).flatten = l := by
  induction l with
  | nil => rfl
  | cons a rest ih =>
      rw [cutAfter]
      split_ifs
      · rw [List.flatten_cons, ih, List.singleton_append]
      · rw [flatten_consFirst, ih]

theorem nonempty_cutAfter (ends : α → Option α → Bool) (l : List α) :
    ∀ piece ∈ cutAfter ends l, piece ≠ [] := by
  induction l with
  | nil => exact fun _ h => absurd h List.not_mem_nil
  | cons a rest ih =>
      rw [cutAfter]
      split_ifs
      · exact List.forall_mem_cons.mpr ⟨List.cons_ne_nil a [], ih⟩
      · exact nonempty_consFirst a ih

theorem cutAfter_line [DecidableEq α] {sep : α} {line : List α} (h : sep ∉ line) (rest : List α) :
    cutAfter (fun a _ => a == sep) (line ++ sep :: rest) =
      (line ++ [sep]) :: cutAfter (fun a _ => a == sep) rest := by
  induction line with
  | nil => rw [List.nil_append, List.nil_append, cutAfter, if_pos (beq_self_eq_true sep)]
  | cons b line ih =>
      obtain ⟨hb, hline⟩ := not_or.mp fun hmem => h (List.mem_cons.mpr hmem)
      rw [List.cons_append, cutAfter, if_neg (by rw [beq_iff_eq]; exact Ne.symm hb), ih hline]
      rfl

/-- Lines are cut apart behind their separators. -/
theorem cutAfter_joined [DecidableEq α] {sep : α} {lines : List (List α)} (h : ∀ line ∈ lines, sep ∉ line) :
    cutAfter (fun a _ => a == sep) (Lines.joined sep lines) = lines.map (· ++ [sep]) := by
  induction lines with
  | nil => rfl
  | cons line lines ih =>
      obtain ⟨hline, hlines⟩ := List.forall_mem_cons.mp h
      rw [Lines.joined_cons, cutAfter_line hline, ih hlines, List.map_cons]

section Doubled

variable [DecidableEq α] (sep : α)

/-- Cut behind each doubled separator, from the left. -/
def cutDoubled : List α → List (List α)
  | [] => []
  | [a] => [[a]]
  | a :: b :: rest =>
      if a = sep ∧ b = sep then [a, b] :: cutDoubled rest else consFirst a (cutDoubled (b :: rest))

theorem flatten_cutDoubled (l : List α) : (cutDoubled sep l).flatten = l := by
  induction l using cutDoubled.induct sep with
  | case1 => rfl
  | case2 a => rfl
  | case3 a b rest hsep ih =>
      rw [cutDoubled, if_pos hsep, List.flatten_cons, ih]
      rfl
  | case4 a b rest hsep ih => rw [cutDoubled, if_neg hsep, flatten_consFirst, ih]

theorem nonempty_cutDoubled (l : List α) : ∀ piece ∈ cutDoubled sep l, piece ≠ [] := by
  induction l using cutDoubled.induct sep with
  | case1 => exact fun _ h => absurd h List.not_mem_nil
  | case2 a => exact List.forall_mem_singleton.mpr (List.cons_ne_nil a [])
  | case3 a b rest hsep ih =>
      rw [cutDoubled, if_pos hsep]
      exact List.forall_mem_cons.mpr ⟨List.cons_ne_nil a [b], ih⟩
  | case4 a b rest hsep ih =>
      rw [cutDoubled, if_neg hsep]
      exact nonempty_consFirst a ih

end Doubled

/-- More than one piece, none of them empty, that make up a list. -/
structure Tiling (l : List α) where
  pieces : List (List α)
  many : 1 < pieces.length
  flatten : pieces.flatten = l
  nonempty : ∀ piece ∈ pieces, piece ≠ []

/-- The pieces as a tiling, when there is more than one. -/
def tilingOf {l : List α} (pieces : List (List α)) (flatten : pieces.flatten = l)
    (nonempty : ∀ piece ∈ pieces, piece ≠ []) : Option (Tiling l) :=
  if many : 1 < pieces.length then some ⟨pieces, many, flatten, nonempty⟩ else none

/-- Each piece of a tiling is shorter than the whole. -/
theorem Tiling.length_lt {l : List α} (t : Tiling l) {piece : List α} (h : piece ∈ t.pieces) :
    piece.length < l.length := by
  obtain ⟨before, after, hpieces⟩ := List.append_of_mem h
  have hmany := t.many
  have hflat := t.flatten
  have hne := t.nonempty
  rw [hpieces] at hmany hflat hne
  rw [← hflat, List.flatten_append, List.flatten_cons, List.length_append, List.length_append]
  have hother : 0 < before.flatten.length ∨ 0 < after.flatten.length := by
    cases before with
    | cons first before =>
        have hfirst := List.length_pos_of_ne_nil (hne first List.mem_cons_self)
        left
        rw [List.flatten_cons, List.length_append]
        omega
    | nil =>
        cases after with
        | nil => exact absurd hmany (Nat.lt_irrefl 1)
        | cons first after =>
            have hfirst := List.length_pos_of_ne_nil
              (hne first (List.mem_cons_of_mem piece List.mem_cons_self))
            right
            rw [List.flatten_cons, List.length_append]
            omega
  omega

section Sections

variable (isHead : List α → Bool)

/-- The sections of a list, each from its head up to the next one; a head is told by what follows too. What
comes before the first head is dropped. -/
def sections : Option (List α) → List α → List (List α)
  | current, [] => current.toList
  | current, a :: rest =>
      if isHead (a :: rest) then current.toList ++ sections (some [a]) rest
      else sections (current.map (· ++ [a])) rest

/-- A head and elements that are none, whatever follows. -/
structure Section (isHead : List α → Bool) (block : List α) : Prop where
  head : ∃ a tail, block = a :: tail ∧ ∀ rest, isHead (a :: (tail ++ rest))
  plain : ∀ b ∈ block.tail, ∀ rest, ¬isHead (b :: rest)

variable {isHead}

theorem sections_plain {plain : List α} (h : ∀ b ∈ plain, ∀ rest, ¬isHead (b :: rest)) (current : List α)
    (rest : List α) :
    sections isHead (some current) (plain ++ rest) = sections isHead (some (current ++ plain)) rest := by
  induction plain generalizing current with
  | nil => rw [List.nil_append, List.append_nil]
  | cons b plain ih =>
      obtain ⟨hb, hplain⟩ := List.forall_mem_cons.mp h
      rw [List.cons_append, sections, if_neg (hb _), Option.map_some, ih hplain, List.append_assoc,
        List.singleton_append]

theorem sections_block {block : List α} (h : Section isHead block) (current : Option (List α))
    (rest : List α) :
    sections isHead current (block ++ rest) = current.toList ++ sections isHead (some block) rest := by
  obtain ⟨a, tail, rfl, hhead⟩ := h.head
  have hplain : ∀ b ∈ tail, ∀ rest, ¬isHead (b :: rest) := h.plain
  rw [List.cons_append, sections, if_pos (hhead rest), sections_plain hplain, List.singleton_append]

/-- Sections one after the other are found again; what follows them goes to the last one. -/
theorem map_sections {β : Type*} {blocks : List (List α)} {extra : List α} {f : List α → β}
    (hblocks : ∀ block ∈ blocks, Section isHead block) (hextra : ∀ b ∈ extra, ∀ rest, ¬isHead (b :: rest))
    (hf : ∀ block, f (block ++ extra) = f block) (current : List α) :
    (sections isHead (some current) (blocks.flatten ++ extra)).map f = f current :: blocks.map f := by
  induction blocks generalizing current with
  | nil =>
      have hlast := sections_plain hextra current []
      rw [List.append_nil] at hlast
      rw [List.flatten_nil, List.nil_append, hlast, sections]
      exact congrArg (· :: []) (hf current)
  | cons block blocks ih =>
      obtain ⟨hblock, hrest⟩ := List.forall_mem_cons.mp hblocks
      rw [List.flatten_cons, List.append_assoc, sections_block hblock, List.map_append, ih hrest]
      rfl

theorem map_sections_start {β : Type*} {block : List α} {blocks : List (List α)} {extra : List α}
    {f : List α → β} (hblocks : ∀ other ∈ block :: blocks, Section isHead other)
    (hextra : ∀ b ∈ extra, ∀ rest, ¬isHead (b :: rest)) (hf : ∀ block, f (block ++ extra) = f block) :
    (sections isHead none ((block :: blocks).flatten ++ extra)).map f = (block :: blocks).map f := by
  obtain ⟨hblock, hrest⟩ := List.forall_mem_cons.mp hblocks
  rw [List.flatten_cons, List.append_assoc, sections_block hblock]
  exact map_sections hrest hextra hf block

end Sections

end TinyCortex.Pieces
