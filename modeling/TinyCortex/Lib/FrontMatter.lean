import TinyCortex.Lib.Lines
import TinyCortex.Lib.Text

/-! Texts with a block of header lines between two fences: where the block ends, and its lines. Searches for a part of
a text are those of lists (`dropPrefix?`, `dropSuffix?`, `dropInfix?`). -/

namespace TinyCortex.FrontMatter

open Lines

/-! ### Finding a part -/

section Find

variable {α : Type*} [DecidableEq α] {sep : α}

theorem dropPrefix?_append (pre rest : List α) : (pre ++ rest).dropPrefix? pre = some rest :=
  List.dropPrefix?_append_of_beq rest (beq_iff_eq.mpr rfl)

theorem dropPrefix?_eq_none {pre text : List α} (h : ¬pre <+: text) : text.dropPrefix? pre = none := by
  cases hdrop : text.dropPrefix? pre with
  | none => rfl
  | some rest =>
      obtain ⟨pre', htext, hbeq⟩ := List.dropPrefix?_eq_some_iff.mp hdrop
      exact absurd ⟨rest, by rw [htext, eq_of_beq hbeq]⟩ h

/-- A common start does not matter. -/
theorem dropPrefix?_append_append (start text pre : List α) :
    (start ++ text).dropPrefix? (start ++ pre) = text.dropPrefix? pre := by
  induction start with
  | nil => rfl
  | cons c start ih => rw [List.cons_append, List.cons_append, List.dropPrefix?, beq_self_eq_true, if_pos rfl, ih]

theorem dropSuffix?_append (rest suf : List α) : (rest ++ suf).dropSuffix? suf = some rest :=
  List.dropSuffix?_eq_some_iff.mpr ⟨suf, rfl, beq_iff_eq.mpr rfl⟩

/-- Two texts with one separator, which stands in neither first part, have the same parts. -/
theorem append_sep_inj {left right rest rest' : List α} (hleft : sep ∉ left) (hright : sep ∉ right)
    (h : left ++ sep :: rest = right ++ sep :: rest') : left = right ∧ rest = rest' := by
  have hsplit := congrArg (split sep) h
  rw [split_line hleft, split_line hright] at hsplit
  obtain rfl := (List.cons.inj (Prod.mk.inj hsplit).1).1
  exact ⟨rfl, (List.cons.inj (List.append_cancel_left h)).2⟩

/-- The first separator ends what contains none. -/
theorem dropInfix?_sep {left : List α} (h : sep ∉ left) (rest : List α) :
    (left ++ sep :: rest).dropInfix? [sep] = some (left, rest) := by
  refine List.dropInfix?_eq_some_iff.mpr ⟨⟨[sep], by simp, beq_iff_eq.mpr rfl⟩, fun p i s heq hi => ?_⟩
  obtain rfl := eq_of_beq hi
  rw [List.append_assoc, List.singleton_append] at heq
  rcases List.append_eq_append_iff.mp heq with ⟨more, rfl, -⟩ | ⟨more, hleft, hrest⟩
  · simp
  · cases more with
    | nil => simp [hleft]
    | cons c more =>
        obtain ⟨rfl, -⟩ := List.cons.inj hrest
        exact absurd (hleft ▸ List.mem_append_right _ List.mem_cons_self) h

/-- No fence line stands before the end of lines that are none. -/
theorem length_le_of_fence {fence : List α} (hfence : sep ∉ fence) {lines : List (List α)} (hne : lines ≠ [])
    (hlines : ∀ line ∈ lines, sep ∉ line) (hnone : ∀ line ∈ lines, line ≠ fence) {body p s : List α}
    (h : List.intercalate [sep] lines ++ sep :: (fence ++ sep :: body) = p ++ sep :: (fence ++ sep :: s)) :
    (List.intercalate [sep] lines).length ≤ p.length := by
  induction lines generalizing p with
  | nil => exact absurd rfl hne
  | cons line more ih =>
      obtain ⟨hline, hmore⟩ := List.forall_mem_cons.mp hlines
      obtain ⟨-, hnone⟩ := List.forall_mem_cons.mp hnone
      -- A separator inside the line is impossible, so that the found one stands at its end or behind it.
      have hend : ∀ {rest : List α}, line ++ sep :: rest = p ++ sep :: (fence ++ sep :: s) →
          (p = line ∧ rest = fence ++ sep :: s) ∨
            ∃ behind, p = line ++ sep :: behind ∧ rest = behind ++ sep :: (fence ++ sep :: s) := by
        intro rest heq
        rcases List.append_eq_append_iff.mp heq with ⟨gap, rfl, hover⟩ | ⟨gap, hover, hrest⟩
        · cases gap with
          | nil => exact Or.inl ⟨List.append_nil _, (List.cons.inj hover).2⟩
          | cons c behind =>
              obtain ⟨rfl, hbehind⟩ := List.cons.inj hover
              exact Or.inr ⟨behind, rfl, hbehind⟩
        · cases gap with
          | nil => exact Or.inl ⟨(hover.trans (List.append_nil _)).symm, ((List.cons.inj hrest).2).symm⟩
          | cons c gap =>
              obtain ⟨rfl, -⟩ := List.cons.inj hrest
              exact absurd (hover ▸ List.mem_append_right _ List.mem_cons_self) hline
      by_cases hnil : more = []
      · subst hnil
        rw [List.intercalate_singleton] at h ⊢
        rcases hend h with ⟨rfl, -⟩ | ⟨behind, rfl, -⟩
        · exact le_rfl
        · simp
      · rw [List.intercalate_cons_of_ne_nil hnil, List.append_assoc, List.append_assoc,
          List.singleton_append] at h
        rcases hend h with ⟨-, hrest⟩ | ⟨behind, rfl, hrest⟩
        · obtain ⟨next, rest, rfl⟩ := List.exists_cons_of_ne_nil hnil
          have hnext : ∃ tail, List.intercalate [sep] (next :: rest) ++ sep :: (fence ++ sep :: body) =
              next ++ sep :: tail := by
            by_cases hlast : rest = []
            · rw [hlast, List.intercalate_singleton]
              exact ⟨_, rfl⟩
            · rw [List.intercalate_cons_of_ne_nil hlast, List.append_assoc, List.append_assoc]
              exact ⟨_, rfl⟩
          obtain ⟨tail, htail⟩ := hnext
          rw [htail] at hrest
          have heq := (append_sep_inj (hmore next List.mem_cons_self) hfence hrest).1
          exact absurd heq (hnone next List.mem_cons_self)
        · have hle := ih hnil hmore hnone hrest
          rw [List.intercalate_cons_of_ne_nil hnil]
          simp only [List.length_append, List.length_cons, List.length_nil]
          omega

/-- The closing fence is found behind the lines, when none of them is a fence itself. -/
theorem dropInfix?_fence {fence : List α} (hfence : sep ∉ fence) {lines : List (List α)} (hne : lines ≠ [])
    (hlines : ∀ line ∈ lines, sep ∉ line) (hnone : ∀ line ∈ lines, line ≠ fence) (body : List α) :
    (List.intercalate [sep] lines ++ sep :: (fence ++ sep :: body)).dropInfix? (sep :: (fence ++ [sep])) =
      some (List.intercalate [sep] lines, body) := by
  refine List.dropInfix?_eq_some_iff.mpr
    ⟨⟨sep :: (fence ++ [sep]), by simp, beq_iff_eq.mpr rfl⟩, fun p i s heq hi => ?_⟩
  obtain rfl := eq_of_beq hi
  have hsplit : p ++ (sep :: (fence ++ [sep])) ++ s = p ++ sep :: (fence ++ sep :: s) := by simp
  exact length_le_of_fence hfence hne hlines hnone (heq.trans hsplit)

/-- The first copy of a part that is there. -/
theorem exists_dropInfix? {text part before behind : List α} (h : text = before ++ part ++ behind) :
    ∃ p s, text.dropInfix? part = some (p, s) ∧ text = p ++ part ++ s ∧ p.length ≤ before.length := by
  classical
  have hexists : ∃ n, ∃ p s, text = p ++ part ++ s ∧ p.length = n := ⟨before.length, before, behind, h, Eq.refl _⟩
  obtain ⟨p, s, heq, hlength⟩ := Nat.find_spec hexists
  refine ⟨p, s, List.dropInfix?_eq_some_iff.mpr ⟨⟨part, heq, beq_iff_eq.mpr (Eq.refl part)⟩, ?_⟩, heq, ?_⟩
  · intro p' part' s' heq' hbeq
    rw [eq_of_beq hbeq] at heq'
    exact hlength.trans_le (Nat.find_min' hexists ⟨p', s', heq', Eq.refl _⟩)
  · exact hlength.trans_le (Nat.find_min' hexists ⟨before, behind, h, Eq.refl _⟩)

end Find

/-! ### Fences -/

section Fences

variable {α : Type*} {sep : α}

/-- A part without a character is on one side of it. -/
theorem infix_append_cons {c : α} {part left right : List α} (hc : c ∉ part) (h : part <:+: left ++ c :: right) :
    part <:+: left ∨ part <:+: right := by
  have hstart : ∀ l, l <+: c :: right → c ∉ l → l = [] := by
    intro l hl hmem
    rcases List.prefix_cons_iff.mp hl with hnil | ⟨t, rfl, -⟩
    · exact hnil
    · exact absurd List.mem_cons_self hmem
  rcases List.infix_append_iff.mp h with hleft | hright | ⟨l₁, l₂, rfl, hleft, hright⟩
  · exact Or.inl hleft
  · rcases List.infix_cons_iff.mp hright with hpre | hbehind
    · rw [hstart part hpre hc]
      exact Or.inl (List.nil_infix)
    · exact Or.inr hbehind
  · rw [hstart l₂ hright fun hmem => hc (List.mem_append_right _ hmem), List.append_nil]
    exact Or.inl hleft.isInfix

/-- A fence does not start in a label without separators. -/
theorem fence_infix_of_label {fence label right : List α} (hlabel : sep ∉ label)
    (h : sep :: fence <:+: label ++ right) : sep :: fence <:+: right := by
  rcases List.infix_append_iff.mp h with hleft | hright | ⟨l₁, l₂, heq, hleft, hright⟩
  · exact absurd (hleft.subset List.mem_cons_self) hlabel
  · exact hright
  · cases l₁ with
    | nil =>
        rw [heq]
        exact hright.isInfix
    | cons c l₁ =>
        obtain ⟨rfl, -⟩ := List.cons.inj heq
        exact absurd (hleft.subset List.mem_cons_self) hlabel

/-- A fence between lines that start otherwise is in one of them. -/
theorem exists_line_of_fence {fence : List α} (hfence : sep ∉ fence) {lines : List (List α)}
    (hhead : ∀ line ∈ lines, ∀ tail, ¬fence <+: line ++ tail)
    (h : sep :: (fence ++ [sep]) <:+: joined sep lines) : ∃ line ∈ lines, sep :: (fence ++ [sep]) <:+: line ++ [sep] := by
  induction lines with
  | nil => exact absurd (h.subset List.mem_cons_self) List.not_mem_nil
  | cons line lines ih =>
      obtain ⟨-, hrest⟩ := List.forall_mem_cons.mp hhead
      have hsplit : joined sep (line :: lines) = (line ++ [sep]) ++ joined sep lines := by
        rw [joined_cons, List.append_assoc, List.singleton_append]
      rw [hsplit] at h
      rcases List.infix_append_iff_ne_nil.mp h with hline | hlines | ⟨l₁, l₂, hne₁, hne₂, heq, hleft, hright⟩
      · exact ⟨line, List.mem_cons_self, hline⟩
      · obtain ⟨other, hother, hin⟩ := ih hrest hlines
        exact ⟨other, List.mem_cons_of_mem _ hother, hin⟩
      · -- The fence would go on behind the end of the line, so the next line would start with it.
        obtain ⟨init, last, rfl⟩ := (List.eq_nil_or_concat' l₁).resolve_left hne₁
        obtain ⟨body, final, rfl⟩ := (List.eq_nil_or_concat' l₂).resolve_left hne₂
        obtain ⟨front, hfront⟩ := hleft
        rw [← List.append_assoc] at hfront
        obtain ⟨-, hlast⟩ := List.append_inj' hfront (Eq.refl _)
        obtain rfl : sep = last := (List.cons.inj hlast).1.symm
        cases init with
        | nil =>
            have htail : fence ++ [sep] = body ++ [final] := (List.cons.inj heq).2
            obtain ⟨rfl, -⟩ := List.append_inj' htail (Eq.refl _)
            cases lines with
            | nil => exact absurd (List.prefix_nil.mp hright) hne₂
            | cons next lines =>
                rw [joined_cons] at hright
                exact absurd ((List.prefix_append _ _).trans hright) (hrest next List.mem_cons_self _)
        | cons c init =>
            have htail : fence ++ [sep] = (init ++ sep :: body) ++ [final] := by
              rw [(List.cons.inj heq).2]
              simp
            obtain ⟨rfl, -⟩ := List.append_inj' htail (Eq.refl _)
            exact absurd (List.mem_append_right _ List.mem_cons_self) hfence

/-- A fence that starts before the end of a text is in it. -/
theorem fence_infix_of_lt {fence : List α} (hfence : sep ∉ fence) {text p s behind : List α}
    (h : p ++ (sep :: (fence ++ [sep])) ++ s = text ++ sep :: behind) (hlt : p.length < text.length) :
    sep :: (fence ++ [sep]) <:+: text ++ [sep] := by
  rw [List.append_assoc] at h
  rcases List.append_eq_append_iff.mp h with ⟨gap, rfl, hgap⟩ | ⟨gap, rfl, -⟩
  · cases gap with
    | nil =>
        rw [List.append_nil] at hlt
        exact absurd hlt (lt_irrefl _)
    | cons c gap =>
        rw [List.cons_append, List.cons_append, List.cons.injEq, List.append_assoc, List.singleton_append] at hgap
        obtain ⟨rfl, hgap⟩ := hgap
        rcases List.append_eq_append_iff.mp hgap with ⟨more, rfl, hmore⟩ | ⟨more, rfl, hmore⟩
        · cases more with
          | nil => exact ⟨p, [], by simp⟩
          | cons d more =>
              obtain ⟨rfl, -⟩ := List.cons.inj hmore
              exact ⟨p, more ++ [sep], by simp⟩
        · cases more with
          | nil => exact ⟨p, [], by simp⟩
          | cons d more =>
              obtain ⟨rfl, -⟩ := List.cons.inj hmore
              exact absurd (List.mem_append_right _ List.mem_cons_self) hfence
  · rw [List.length_append] at hlt
    omega

end Fences

/-! ### Lines -/

def stripReturn (line : List Char) : List Char :=
  if line.getLast? = some '\r' then line.dropLast else line

/-- `str::lines`: an unterminated last line keeps its carriage return. -/
def lines (text : List Char) : List (List Char) :=
  let pieces := split '\n' text
  pieces.1.map stripReturn ++ if pieces.2 = [] then [] else [pieces.2]

theorem newline_not_mem_stripReturn {line : List Char} (h : '\n' ∉ line) : '\n' ∉ stripReturn line := by
  unfold stripReturn
  split_ifs
  · exact fun hmem => h (List.dropLast_subset _ hmem)
  · exact h

theorem newline_not_mem_lines {text line : List Char} (h : line ∈ lines text) : '\n' ∉ line := by
  rcases List.mem_append.mp h with hmap | htail
  · obtain ⟨piece, hpiece, rfl⟩ := List.mem_map.mp hmap
    exact newline_not_mem_stripReturn (not_mem_line hpiece)
  · split_ifs at htail with hnil
    · exact absurd htail List.not_mem_nil
    · rw [List.mem_singleton.mp htail]
      exact not_mem_tail text

theorem lines_joined {ls : List (List Char)} (h : ∀ line ∈ ls, '\n' ∉ line) :
    lines (joined '\n' ls) = ls.map stripReturn := by
  rw [lines, split_joined h]
  exact List.append_nil _

/-- The lines of a text whose last line is not terminated. -/
theorem lines_joined_append {ls : List (List Char)} (h : ∀ line ∈ ls, '\n' ∉ line) {last : List Char}
    (hlast : '\n' ∉ last) (hne : last ≠ []) :
    lines (joined '\n' ls ++ last) = ls.map stripReturn ++ [last] := by
  rw [lines, split_append, split_joined h, List.nil_append, split_of_not_mem hlast]
  dsimp only
  rw [if_neg hne, List.append_nil]

theorem intercalate_concat (ls : List (List Char)) (last : List Char) :
    List.intercalate ['\n'] (ls ++ [last]) = joined '\n' ls ++ last := by
  induction ls with
  | nil => rw [List.nil_append, List.intercalate_singleton, joined, List.flatMap_nil, List.nil_append]
  | cons line ls ih =>
      rw [List.cons_append, List.intercalate_cons_of_ne_nil (List.append_ne_nil_of_right_ne_nil _ (List.cons_ne_nil _ _)),
        ih, joined_cons, List.append_assoc, List.append_assoc]
      rfl

theorem stripReturn_append {pre rest : List Char} (h : rest ≠ []) :
    stripReturn (pre ++ rest) = pre ++ stripReturn rest := by
  unfold stripReturn
  rw [List.getLast?_append_of_ne_nil _ h]
  split_ifs
  · exact List.dropLast_append_of_ne_nil h
  · rfl

theorem stripReturn_of_last {line : List Char} (h : line.getLast? ≠ some '\r') : stripReturn line = line :=
  if_neg h

/-- Lines that are not empty and end in no carriage return, without a newline behind the last one. -/
theorem lines_intercalate {ls : List (List Char)} (hne : ls ≠ []) (hline : ∀ line ∈ ls, '\n' ∉ line)
    (hfull : ∀ line ∈ ls, line ≠ [] ∧ line.getLast? ≠ some '\r') : lines (List.intercalate ['\n'] ls) = ls := by
  obtain ⟨init, last, rfl⟩ := (List.eq_nil_or_concat' ls).resolve_left hne
  have hlast := hfull last (List.mem_append_right _ (List.mem_singleton_self _))
  have hinit : init.map stripReturn = init := by
    conv_rhs => rw [← List.map_id init]
    exact List.map_congr_left fun line hmem => stripReturn_of_last (hfull line (List.mem_append_left _ hmem)).2
  rw [intercalate_concat, lines_joined_append (fun line hmem => hline line (List.mem_append_left _ hmem))
    (hline last (List.mem_append_right _ (List.mem_singleton_self _))) hlast.1, hinit]

/-! ### Trimming -/

/-- `str::trim`. -/
def trim (text : List Char) : List Char := (text.dropWhile Text.isWhitespace).rdropWhile Text.isWhitespace

theorem rdropWhile_append_of_all {α : Type*} {p : α → Bool} {text closing : List α} (h : ∀ c ∈ closing, p c) :
    (text ++ closing).rdropWhile p = text.rdropWhile p := by
  have hrev : ∀ c ∈ closing.reverse, p c := fun c hc => h c (List.mem_reverse.mp hc)
  rw [List.rdropWhile, List.reverse_append, List.dropWhile_append_of_pos hrev, List.rdropWhile]

theorem trim_cons_space {c : Char} (h : Text.isWhitespace c) (text : List Char) : trim (c :: text) = trim text := by
  rw [trim, List.dropWhile_cons_of_pos h, trim]

/-- What starts and ends with other characters is left as it is. -/
theorem trim_of_ends {text : List Char} (hhead : ∀ c, text.head? = some c → Text.isWhitespace c = false)
    (hlast : ∀ c, text.getLast? = some c → Text.isWhitespace c = false) : trim text = text := by
  have hdrop : text.dropWhile Text.isWhitespace = text := by
    cases text with
    | nil => rfl
    | cons c text =>
        refine List.dropWhile_cons_of_neg ?_
        rw [hhead c rfl]
        exact Bool.false_ne_true
  rw [trim, hdrop]
  refine List.rdropWhile_eq_self_iff.mpr fun hne hws => ?_
  rw [hlast _ (List.getLast?_eq_some_getLast hne)] at hws
  exact Bool.false_ne_true hws

theorem trim_of_forall {text : List Char} (h : ∀ c ∈ text, Text.isWhitespace c = false) : trim text = text :=
  trim_of_ends (fun c hc => h c (List.mem_of_head? hc)) fun c hc => h c (List.mem_of_getLast? hc)

theorem trim_sublist (text : List Char) : (trim text).Sublist text :=
  (List.rdropWhile_prefix _ _).sublist.trans (List.dropWhile_suffix _).sublist

theorem isWhitespace_head_trim {text : List Char} {c : Char} (h : (trim text).head? = some c) :
    Text.isWhitespace c = false := by
  obtain ⟨rest, hrest⟩ := List.rdropWhile_prefix Text.isWhitespace (text.dropWhile Text.isWhitespace)
  change (List.rdropWhile _ _).head? = some c at h
  have hnot := List.head?_dropWhile_not Text.isWhitespace text
  rw [← hrest, List.head?_append, h, Option.some_or] at hnot
  exact hnot

theorem isWhitespace_last_trim {text : List Char} {c : Char} (h : (trim text).getLast? = some c) :
    Text.isWhitespace c = false := by
  have hne : trim text ≠ [] := by
    intro hnil
    rw [hnil] at h
    cases h
  have hnot := List.rdropWhile_last_not Text.isWhitespace (text.dropWhile Text.isWhitespace) hne
  rw [List.getLast?_eq_some_getLast hne] at h
  rw [← Option.some.inj h]
  exact eq_false_of_ne_true hnot

theorem trim_stripReturn (text : List Char) : trim (stripReturn text) = trim text := by
  unfold stripReturn
  split_ifs with h
  · obtain ⟨front, rfl⟩ : ∃ front, text = front ++ ['\r'] := by
      have hne : text ≠ [] := by
        rintro rfl
        cases h
      refine ⟨text.dropLast, ?_⟩
      rw [List.getLast?_eq_some_getLast hne] at h
      have happ := List.dropLast_append_getLast hne
      rw [Option.some.inj h] at happ
      exact happ.symm
    rw [List.dropLast_concat, trim, trim]
    by_cases hall : ∀ c ∈ front, Text.isWhitespace c
    · have hdrop : front.dropWhile Text.isWhitespace = [] := List.dropWhile_eq_nil_iff.mpr hall
      rw [List.dropWhile_append, hdrop]
      rfl
    · have hdrop : front.dropWhile Text.isWhitespace ≠ [] := fun hnil => hall (List.dropWhile_eq_nil_iff.mp hnil)
      rw [List.dropWhile_append, if_neg (by simpa using hdrop)]
      exact (List.rdropWhile_concat_pos _ _ _ (by decide)).symm
  · rfl

end TinyCortex.FrontMatter
