import TinyCortex.Persona.SplitRules

/-! What the scan of an instruction file keeps. Seen from outside, a scan has closed rules and one rule that is open: a
line closes it, starts the next one or goes on with it. -/

namespace TinyCortex.Persona.SplitRules

open FrontMatter

/-! ### Ends of a line -/

section Trimmed

variable {raw : List Char}

theorem trimmedLine_head {c : Char} (h : (trimmedLine raw).head? = some c) : Text.isWhitespace c = false := by
  have hnot := List.head?_dropWhile_not Text.isWhitespace (trimEnd raw)
  change (List.dropWhile _ _).head? = some c at h
  rw [h] at hnot
  exact hnot

theorem trimmedLine_last {c : Char} (h : (trimmedLine raw).getLast? = some c) : Text.isWhitespace c = false := by
  obtain ⟨front, hfront⟩ := List.dropWhile_suffix (l := trimEnd raw) Text.isWhitespace
  change (List.dropWhile _ _).getLast? = some c at h
  have hlast : (trimEnd raw).getLast? = some c := by
    rw [← hfront, List.getLast?_append, h, Option.some_or]
  have hne : trimEnd raw ≠ [] := by
    intro hnil
    rw [hnil] at hlast
    cases hlast
  have hnot := List.rdropWhile_last_not Text.isWhitespace raw hne
  rw [List.getLast?_eq_some_getLast hne] at hlast
  rw [← Option.some.inj hlast]
  exact eq_false_of_ne_true hnot

theorem trim_trimmedLine : trim (trimmedLine raw) = trimmedLine raw :=
  trim_of_ends (fun _ => trimmedLine_head) fun _ => trimmedLine_last

theorem trim_trimEnd : trim (trimEnd raw) = trimmedLine raw := by
  refine List.rdropWhile_eq_self_iff.mpr fun hne hws => ?_
  have hgetLast : (trimmedLine raw).getLast? = some (List.getLast _ hne) := List.getLast?_eq_some_getLast hne
  rw [trimmedLine_last hgetLast] at hws
  exact Bool.false_ne_true hws

theorem trim_trimStart (text : List Char) : trim (trimStart text) = trim text := by
  unfold trim trimStart
  rw [List.dropWhile_idempotent]

theorem trim_append_blanks (text : List Char) {closing : List Char} (h : ∀ c ∈ closing, Text.isWhitespace c) :
    trim (text ++ closing) = trim text := by
  unfold trim
  rw [List.dropWhile_append]
  split_ifs with hempty
  · rw [List.isEmpty_iff.mp hempty, List.dropWhile_eq_nil_iff.mpr h]
  · exact rdropWhile_append_of_all h

theorem trim_trimEnd_eq (text : List Char) : trim (trimEnd text) = trim text := by
  have hparts : trimEnd text ++ text.rtakeWhile Text.isWhitespace = text := List.rdropWhile_append_rtakeWhile
  conv_rhs => rw [← hparts]
  exact (trim_append_blanks _ fun c hc => List.mem_rtakeWhile_imp hc).symm

/-- What ends in no blank has something behind every cut. -/
theorem trim_ne_nil {pre rest : List Char} (h : trimmedLine raw = pre ++ rest) (hne : rest ≠ []) : trim rest ≠ [] := by
  intro hnil
  have hgetLast : (trimmedLine raw).getLast? = some (rest.getLast hne) := by
    rw [h, List.getLast?_append_of_ne_nil _ hne, List.getLast?_eq_some_getLast hne]
  have hlast := trimmedLine_last hgetLast
  have hblank : Visible.isBlank rest = true := Visible.trim_eq_nil_iff.mp hnil
  rw [List.all_eq_true.mp hblank _ (List.getLast_mem hne)] at hlast
  cases hlast

end Trimmed

/-! ### Joined lines -/

section Joined

variable {texts : List (List Char)} {text : List Char}

theorem dropWhile_intercalate (h : trim text ≠ []) :
    (List.intercalate ['\n'] (text :: texts)).dropWhile Text.isWhitespace =
      List.intercalate ['\n'] (trimStart text :: texts) := by
  by_cases hnil : texts = []
  · rw [hnil, List.intercalate_singleton, List.intercalate_singleton]
    rfl
  · have hstart : (text.dropWhile Text.isWhitespace).isEmpty = false := by
      rw [List.isEmpty_eq_false_iff]
      intro hempty
      exact h (by rw [trim, hempty, List.rdropWhile_nil])
    rw [List.intercalate_cons_of_ne_nil hnil, List.intercalate_cons_of_ne_nil hnil, List.append_assoc,
      List.dropWhile_append, hstart, if_neg Bool.false_ne_true, List.append_assoc]
    rfl

theorem rdropWhile_intercalate (h : trim text ≠ []) :
    (List.intercalate ['\n'] (texts ++ [text])).rdropWhile Text.isWhitespace =
      List.intercalate ['\n'] (texts ++ [trimEnd text]) := by
  rw [intercalate_concat, intercalate_concat]
  have hend : (text.reverse.dropWhile Text.isWhitespace).isEmpty = false := by
    rw [List.isEmpty_eq_false_iff]
    intro hempty
    refine h (Visible.trim_eq_nil_iff.mpr (List.all_eq_true.mpr fun c hc => ?_))
    exact List.dropWhile_eq_nil_iff.mp hempty c (List.mem_reverse.mpr hc)
  unfold trimEnd List.rdropWhile
  rw [List.reverse_append, List.dropWhile_append, hend, if_neg Bool.false_ne_true, List.reverse_append,
    List.reverse_reverse]

/-- Trimming what is joined from lines trims the first line and the last one. -/
theorem splitOn_trim (hne : texts ≠ []) (hnewline : ∀ text ∈ texts, '\n' ∉ text)
    (hblank : ∀ text ∈ texts, trim text ≠ []) :
    ((trim (List.intercalate ['\n'] texts)).splitOn '\n').map trim = texts.map trim := by
  obtain ⟨first, more, rfl⟩ := List.exists_cons_of_ne_nil hne
  rw [List.forall_mem_cons] at hnewline hblank
  unfold trim
  rw [dropWhile_intercalate hblank.1]
  have hmap : (trimStart first :: more).map trim = (first :: more).map trim := by
    rw [List.map_cons, List.map_cons, trim_trimStart]
  have hnewline' : ∀ text ∈ trimStart first :: more, '\n' ∉ text := List.forall_mem_cons.mpr
    ⟨fun hmem => hnewline.1 (List.dropWhile_subset _ hmem), hnewline.2⟩
  have hblank' : ∀ text ∈ trimStart first :: more, trim text ≠ [] := List.forall_mem_cons.mpr
    ⟨by rw [trim_trimStart]; exact hblank.1, hblank.2⟩
  obtain ⟨front, last, heq⟩ := (List.eq_nil_or_concat' (trimStart first :: more)).resolve_left (List.cons_ne_nil _ _)
  rw [heq] at hmap hnewline' hblank' ⊢
  rw [List.forall_mem_append, List.forall_mem_singleton] at hnewline' hblank'
  rw [rdropWhile_intercalate hblank'.2, List.splitOn_intercalate]
  · refine Eq.trans ?_ hmap
    change (front ++ [trimEnd last]).map trim = (front ++ [last]).map trim
    rw [List.map_append, List.map_append, List.map_singleton, List.map_singleton, trim_trimEnd_eq]
  · rw [List.forall_mem_append, List.forall_mem_singleton]
    exact ⟨hnewline'.1, fun hmem => hnewline'.2 ((List.rdropWhile_prefix _ _).subset hmem)⟩
  · exact List.append_ne_nil_of_right_ne_nil _ (List.cons_ne_nil _ _)

end Joined

/-! ### List markers -/

section Markers

variable {trimmed : List Char}

theorem number_append {digits rest : List Char} {mark : Char} (hdigits : ∀ c ∈ digits, c.isDigit)
    (hmark : mark = '.' ∨ mark = ')') : number (digits ++ mark :: rest) = digits := by
  unfold number
  rw [List.takeWhile_append_of_pos, List.takeWhile_cons_of_neg, List.append_nil]
  · rcases hmark with rfl | rfl <;> decide
  · intro c hc
    have hdigit := hdigits c hc
    by_contra hnot
    rw [Bool.and_eq_true, decide_eq_true_eq, decide_eq_true_eq, not_and_or, not_not, not_not] at hnot
    rcases hnot with rfl | rfl
    · exact absurd hdigit (by decide)
    · exact absurd hdigit (by decide)

theorem space_mem_of_isBullet (h : isBullet trimmed = true) : ' ' ∈ trimmed := by
  simp only [isBullet, Bool.or_eq_true, Bool.and_eq_true, decide_eq_true_eq] at h
  rcases h with ((h | h) | h) | ⟨-, h | h⟩
  · exact h.subset (by decide)
  · exact h.subset (by decide)
  · exact h.subset (by decide)
  · exact h.subset (by decide)
  · exact h.subset (by decide)

theorem head_of_isBullet (h : isBullet trimmed = true) :
    ∃ c, trimmed.head? = some c ∧ (c = '-' ∨ c = '*' ∨ c = '+' ∨ c.isDigit) := by
  simp only [isBullet, Bool.or_eq_true, Bool.and_eq_true, decide_eq_true_eq] at h
  rcases h with ((⟨rest, rfl⟩ | ⟨rest, rfl⟩) | ⟨rest, rfl⟩) | ⟨hhead, -⟩
  · exact ⟨'-', Eq.refl _, Or.inl (Eq.refl _)⟩
  · exact ⟨'*', Eq.refl _, Or.inr (Or.inl (Eq.refl _))⟩
  · exact ⟨'+', Eq.refl _, Or.inr (Or.inr (Or.inl (Eq.refl _)))⟩
  · obtain ⟨c, hc, hdigit⟩ := (Option.any_eq_true _ _).mp hhead
    exact ⟨c, hc, Or.inr (Or.inr (Or.inr hdigit))⟩

/-- A digit comes first. -/
theorem head_of_falseNumber (h : FalseNumber trimmed) : ∃ c, trimmed.head? = some c ∧ c.isDigit := by
  obtain ⟨digits, mark, rest, hne, hdigits, -, rfl, -⟩ := h
  obtain ⟨c, more, rfl⟩ := List.exists_cons_of_ne_nil hne
  exact ⟨c, Eq.refl _, hdigits c List.mem_cons_self⟩

/-- What is cut from a bullet: a bullet character and a blank, or a number with its mark, or nothing. -/
theorem stripBullet_cases (trimmed : List Char) :
    (∃ c rest, (c = '-' ∨ c = '*' ∨ c = '+') ∧ trimmed = c :: ' ' :: rest ∧ stripBullet trimmed = trimStart rest) ∨
      (∃ digits mark rest, (∀ c ∈ digits, c.isDigit) ∧ (mark = '.' ∨ mark = ')') ∧
        trimmed = digits ++ mark :: rest ∧ stripBullet trimmed = trimStart rest) ∨
      stripBullet trimmed = trimmed ∧ ¬FalseNumber trimmed := by
  cases hdrop : (trimmed.dropPrefix? "- ".toList).or
      ((trimmed.dropPrefix? "* ".toList).or (trimmed.dropPrefix? "+ ".toList)) with
  | some rest =>
      have hstrip : stripBullet trimmed = trimStart rest := by rw [stripBullet, hdrop]
      have hfound : ∀ {pre : List Char}, trimmed.dropPrefix? pre = some rest → trimmed = pre ++ rest := by
        intro pre hpre
        obtain ⟨pre', htext, hbeq⟩ := List.dropPrefix?_eq_some_iff.mp hpre
        rw [htext, eq_of_beq hbeq]
      left
      rcases Option.or_eq_some_iff.mp hdrop with h | ⟨-, h⟩
      · exact ⟨'-', rest, Or.inl (Eq.refl _), hfound h, hstrip⟩
      · rcases Option.or_eq_some_iff.mp h with h | ⟨-, h⟩
        · exact ⟨'*', rest, Or.inr (Or.inl (Eq.refl _)), hfound h, hstrip⟩
        · exact ⟨'+', rest, Or.inr (Or.inr (Eq.refl _)), hfound h, hstrip⟩
  | none =>
      right
      have hparts : number trimmed ++ trimmed.dropWhile (fun c => c ≠ '.' && c ≠ ')') = trimmed :=
        List.takeWhile_append_dropWhile
      have hbehind : trimmed.drop (number trimmed).length = trimmed.dropWhile fun c => c ≠ '.' && c ≠ ')' :=
        List.append_cancel_left ((List.prefix_iff_eq_append.mp (List.takeWhile_prefix _)).trans hparts.symm)
      have hfalse : FalseNumber trimmed →
          trimmed.drop (number trimmed).length ≠ [] ∧ (number trimmed).all Char.isDigit = true := by
        rintro ⟨digits, mark, rest, -, hdigits, hmark, rfl, -⟩
        rw [number_append hdigits hmark, List.drop_left]
        exact ⟨List.cons_ne_nil _ _, List.all_eq_true.mpr hdigits⟩
      cases hrest : trimmed.dropWhile fun c => c ≠ '.' && c ≠ ')' with
      | nil =>
          rw [hbehind, hrest] at hfalse
          have hstrip : stripBullet trimmed = trimmed := by simp only [stripBullet, hdrop, hbehind, hrest]
          exact Or.inr ⟨hstrip, fun h => (hfalse h).1 (Eq.refl _)⟩
      | cons mark rest =>
          rw [hrest] at hparts
          have hstrip : stripBullet trimmed =
              if (number trimmed).all Char.isDigit then trimStart rest else trimmed := by
            simp only [stripBullet, hdrop, hbehind, hrest]
          by_cases hall : (number trimmed).all Char.isDigit = true
          · left
            rw [if_pos hall] at hstrip
            have hmark := List.head?_dropWhile_not (fun c => decide (c ≠ '.') && decide (c ≠ ')')) trimmed
            rw [hrest] at hmark
            refine ⟨number trimmed, mark, rest, List.all_eq_true.mp hall, ?_, hparts.symm, hstrip⟩
            change (decide (mark ≠ '.') && decide (mark ≠ ')')) = false at hmark
            rwa [Bool.and_eq_false_iff, decide_eq_false_iff_not, decide_eq_false_iff_not, not_not, not_not] at hmark
          · rw [if_neg hall] at hstrip
            exact Or.inr ⟨hstrip, fun h => hall (hfalse h).2⟩

/-- No list marker is in front of a false number. -/
theorem not_marker_of_falseNumber (h : FalseNumber trimmed) {marker rest : List Char} (hmarker : ListMarker marker) :
    trimmed ≠ marker ++ rest := by
  intro heq
  obtain ⟨c, hc, hdigit⟩ := head_of_falseNumber h
  obtain ⟨digits, mark, behind, -, hdigits, hmark, rfl, hblank⟩ := h
  obtain ⟨lead, blank, hspace, rfl, hlead⟩ := hmarker
  have hnone : ∀ {b : Char}, b.isDigit = false → lead ≠ [b] := by
    rintro b hb rfl
    rw [heq] at hc
    obtain rfl : b = c := Option.some.inj hc
    rw [hdigit] at hb
    cases hb
  rcases hlead with hb | hb | hb | ⟨digits', -, hdigits', hb⟩
  · exact hnone (by decide) hb
  · exact hnone (by decide) hb
  · exact hnone (by decide) hb
  · obtain ⟨mark', hmark', rfl⟩ : ∃ mark', (mark' = '.' ∨ mark' = ')') ∧ lead = digits' ++ [mark'] := by
      rcases hb with hb | hb
      · exact ⟨'.', Or.inl (Eq.refl _), hb⟩
      · exact ⟨')', Or.inr (Eq.refl _), hb⟩
    rw [List.append_assoc, List.append_assoc] at heq
    change digits ++ mark :: behind = digits' ++ mark' :: blank :: rest at heq
    have hsame := congrArg number heq
    rw [number_append hdigits hmark, number_append hdigits' hmark'] at hsame
    rw [hsame] at heq
    have hbehind := (List.cons.inj (List.append_cancel_left heq)).2
    have hnot := hblank blank (by rw [hbehind]; exact Eq.refl _)
    rcases hspace with rfl | rfl
    · exact hnot.1 (Eq.refl _)
    · exact hnot.2 (Eq.refl _)

/-- A bullet is kept up to its marker, unless the number is a false one. -/
theorem verbatim_stripBullet_iff {raw : List Char} (h : isBullet (trimmedLine raw) = true) :
    Verbatim raw (stripBullet (trimmedLine raw)) ↔ ¬FalseNumber (trimmedLine raw) := by
  rcases stripBullet_cases (trimmedLine raw) with
    ⟨c, rest, hc, heq, hstrip⟩ | ⟨digits, mark, rest, hdigits, hmark, heq, hstrip⟩ | ⟨hstrip, hfalse⟩
  · apply iff_of_true
    · refine Or.inr ⟨[c, ' '], rest, ⟨[c], ' ', Or.inl (Eq.refl _), Eq.refl _, ?_⟩, heq, ?_⟩
      · rcases hc with rfl | rfl | rfl
        · exact Or.inl (Eq.refl _)
        · exact Or.inr (Or.inl (Eq.refl _))
        · exact Or.inr (Or.inr (Or.inl (Eq.refl _)))
      · rw [hstrip, trim_trimStart]
    · intro hfalse
      obtain ⟨b, hb, hdigit⟩ := head_of_falseNumber hfalse
      rw [heq] at hb
      obtain rfl : c = b := Option.some.inj hb
      rcases hc with rfl | rfl | rfl
      · exact absurd hdigit (by decide)
      · exact absurd hdigit (by decide)
      · exact absurd hdigit (by decide)
  · rw [hstrip]
    constructor
    · rintro (htrim | ⟨marker, behind, hmarker, hsplit, -⟩) hfalse
      · have hlength := (trim_sublist rest).length_le
        rw [trim_trimStart] at htrim
        rw [htrim, heq, List.length_append, List.length_cons] at hlength
        omega
      · exact not_marker_of_falseNumber hfalse hmarker hsplit
    · intro htrue
      have hne : digits ≠ [] := by
        rintro rfl
        obtain ⟨c, hc, hlead⟩ := head_of_isBullet h
        rw [heq] at hc
        obtain rfl : mark = c := Option.some.inj hc
        rcases hmark with rfl | rfl
        · exact absurd hlead (by decide)
        · exact absurd hlead (by decide)
      have hblank : ∃ blank behind, (blank = ' ' ∨ blank = '\t') ∧ rest = blank :: behind := by
        by_contra hnone
        refine htrue ⟨digits, mark, rest, hne, hdigits, hmark, heq, fun c hc => ?_⟩
        obtain ⟨behind, rfl⟩ := List.head?_eq_some_iff.mp hc
        constructor
        · exact fun hspace => hnone ⟨c, behind, Or.inl hspace, Eq.refl _⟩
        · exact fun htab => hnone ⟨c, behind, Or.inr htab, Eq.refl _⟩
      obtain ⟨blank, behind, hspace, rfl⟩ := hblank
      refine Or.inr ⟨digits ++ [mark] ++ [blank], behind,
        ⟨digits ++ [mark], blank, hspace, Eq.refl _, Or.inr (Or.inr (Or.inr ⟨digits, hne, hdigits, ?_⟩))⟩, ?_, ?_⟩
      · rcases hmark with rfl | rfl
        · exact Or.inl (Eq.refl _)
        · exact Or.inr (Eq.refl _)
      · rw [heq, List.append_assoc, List.append_assoc]
        exact Eq.refl _
      · rw [trim_trimStart, trim_cons_space]
        rcases hspace with rfl | rfl
        · decide
        · decide
  · rw [hstrip]
    exact iff_of_true (Or.inl trim_trimmedLine) hfalse

end Markers

/-! ### Open and closed rules -/

section View

variable {scan : Scan} {raw : List Char} {n : Nat}

/-- The rules to which no line can be added. -/
def Scan.closed (scan : Scan) : List Rule := if scan.bullet = [] then scan.rules else flushInto scan.para scan.rules

/-- The rule that goes on. -/
def Scan.current (scan : Scan) : Rule := if scan.bullet = [] then scan.para else scan.bullet

/-- The line is pushed. -/
def Scan.takes (scan : Scan) (raw : List Char) : Bool :=
  !scan.inFence && !isFence (trimmedLine raw) &&
    (!(trimmedLine raw).isEmpty && decide ((trimmedLine raw).head? ≠ some '#'))

/-- The line starts a rule. -/
def Scan.Starts (scan : Scan) (raw : List Char) : Prop :=
  isBullet (trimmedLine raw) = true ∧ (trimmedLine raw = trimEnd raw ∨ scan.bullet = [])

theorem flushInto_nil (rules : List Rule) : flushInto [] rules = rules := if_pos (Eq.refl [])

theorem flatten_flushInto (lines : Rule) (rules : List Rule) :
    (flushInto lines rules).flatten = rules.flatten ++ lines := by
  unfold flushInto
  split_ifs with hnil
  · rw [hnil, List.append_nil]
  · rw [List.flatten_append, List.flatten_singleton]

theorem mem_flushInto {lines rule : Rule} {rules : List Rule} :
    rule ∈ flushInto lines rules ↔ rule ∈ rules ∨ lines ≠ [] ∧ rule = lines := by
  unfold flushInto
  split_ifs with hnil
  · rw [or_iff_left fun h => h.1 hnil]
  · rw [List.mem_append, List.mem_singleton, and_iff_right hnil]

theorem flush_rules (scan : Scan) : scan.flush.rules = flushInto scan.current scan.closed := by
  unfold Scan.flush Scan.current Scan.closed
  split_ifs with hbullet
  · rw [hbullet]
    exact flushInto_nil _
  · rfl

theorem flush_current (scan : Scan) : scan.flush.current = [] := if_pos (Eq.refl [])

theorem flush_of_idle (h : scan.current = []) : scan.flush = scan := by
  obtain ⟨rules, para, bullet, inFence⟩ := scan
  unfold Scan.current at h
  by_cases hbullet : bullet = []
  · subst hbullet
    obtain rfl : para = [] := h
    rfl
  · rw [if_neg hbullet] at h
    exact absurd h hbullet

/-- A line that is not pushed closes the open rule. -/
theorem scanLine_closes (hidle : scan.inFence = true → scan.current = []) (h : scan.takes raw = false) :
    scanLine scan (raw, n) =
      { scan.flush with inFence := if isFence (trimmedLine raw) then !scan.inFence else scan.inFence } := by
  unfold scanLine
  change (if isFence (trimmedLine raw) then _ else if scan.inFence then _ else if trimmedLine raw = [] then _
    else if (trimmedLine raw).head? = some '#' then _ else _) = _
  by_cases hfence : isFence (trimmedLine raw) = true
  · rw [if_pos hfence, if_pos hfence]
  rw [if_neg hfence, if_neg hfence]
  by_cases hin : scan.inFence = true
  · rw [if_pos hin, flush_of_idle (hidle hin)]
  rw [if_neg hin]
  by_cases hnil : trimmedLine raw = []
  · rw [if_pos hnil]
    rfl
  rw [if_neg hnil]
  by_cases hhash : (trimmedLine raw).head? = some '#'
  · rw [if_pos hhash]
    rfl
  · unfold Scan.takes at h
    rw [eq_false_of_ne_true hfence, eq_false_of_ne_true hin, List.isEmpty_eq_false_iff.mpr hnil,
      decide_eq_true hhash] at h
    cases h

/-- What a pushed line does. -/
theorem scanLine_of_takes (h : scan.takes raw = true) :
    scanLine scan (raw, n) =
      if isBullet (trimmedLine raw) then
        if trimmedLine raw = trimEnd raw then { scan.flush with bullet := [(n, stripBullet (trimmedLine raw))] }
        else if scan.bullet ≠ [] then { scan with bullet := scan.bullet ++ [(n, trimmedLine raw)] }
        else { scan with bullet := [(n, stripBullet (trimmedLine raw))] }
      else if scan.bullet ≠ [] then { scan with bullet := scan.bullet ++ [(n, trimmedLine raw)] }
      else { scan with para := scan.para ++ [(n, trimEnd raw)] } := by
  simp only [Scan.takes, Bool.and_eq_true, Bool.not_eq_true', decide_eq_true_eq, List.isEmpty_eq_false_iff] at h
  obtain ⟨⟨hin, hfence⟩, hnil, hhash⟩ := h
  unfold scanLine
  change (if isFence (trimmedLine raw) then _ else if scan.inFence then _ else if trimmedLine raw = [] then _
    else if (trimmedLine raw).head? = some '#' then _ else _) = _
  rw [if_neg (ne_true_of_eq_false hfence), if_neg (ne_true_of_eq_false hin), if_neg hnil, if_neg hhash]
  rfl

theorem scanLine_starts (h : scan.takes raw = true) (hstarts : scan.Starts raw) :
    (scanLine scan (raw, n)).closed = scan.flush.rules ∧
      (scanLine scan (raw, n)).current = [(n, stripBullet (trimmedLine raw))] ∧
      (scanLine scan (raw, n)).bullet ≠ [] ∧ (scanLine scan (raw, n)).inFence = scan.inFence := by
  rw [scanLine_of_takes h, if_pos hstarts.1]
  by_cases hindent : trimmedLine raw = trimEnd raw
  · rw [if_pos hindent]
    refine ⟨?_, if_neg (List.cons_ne_nil _ _), List.cons_ne_nil _ _, Eq.refl _⟩
    exact (if_neg (List.cons_ne_nil _ _)).trans (flushInto_nil _)
  · have hbullet := hstarts.2.resolve_left hindent
    rw [if_neg hindent, if_neg (not_not_intro hbullet)]
    refine ⟨?_, if_neg (List.cons_ne_nil _ _), List.cons_ne_nil _ _, Eq.refl _⟩
    have hcurrent : scan.current = scan.para := if_pos hbullet
    have hclosed : scan.closed = scan.rules := if_pos hbullet
    rw [flush_rules, hcurrent, hclosed]
    exact if_neg (List.cons_ne_nil _ _)

theorem scanLine_continues (h : scan.takes raw = true) (hstarts : ¬scan.Starts raw) :
    (scanLine scan (raw, n)).closed = scan.closed ∧
      (∃ text, (text = trimmedLine raw ∨ text = trimEnd raw) ∧
        (scanLine scan (raw, n)).current = scan.current ++ [(n, text)]) ∧
      ((scanLine scan (raw, n)).bullet = [] ↔ scan.bullet = []) ∧
      (scanLine scan (raw, n)).inFence = scan.inFence := by
  have hgoes : scanLine scan (raw, n) =
      if scan.bullet ≠ [] then { scan with bullet := scan.bullet ++ [(n, trimmedLine raw)] }
      else { scan with para := scan.para ++ [(n, trimEnd raw)] } := by
    rw [scanLine_of_takes h]
    by_cases hbullet : isBullet (trimmedLine raw) = true
    · have hopen : ¬(trimmedLine raw = trimEnd raw ∨ scan.bullet = []) := fun hor => hstarts ⟨hbullet, hor⟩
      rw [not_or] at hopen
      rw [if_pos hbullet, if_neg hopen.1, if_pos hopen.2, if_pos hopen.2]
    · rw [if_neg hbullet]
  rw [hgoes]
  by_cases hnil : scan.bullet = []
  · rw [if_neg (not_not_intro hnil)]
    unfold Scan.closed Scan.current
    dsimp only
    rw [if_pos hnil, if_pos hnil, if_pos hnil, if_pos hnil]
    exact ⟨Eq.refl _, ⟨_, Or.inr (Eq.refl _), Eq.refl _⟩, Iff.rfl, Eq.refl _⟩
  · rw [if_pos hnil]
    have hlonger : scan.bullet ++ [(n, trimmedLine raw)] ≠ [] := List.append_ne_nil_of_left_ne_nil hnil _
    unfold Scan.closed Scan.current
    dsimp only
    rw [if_neg hlonger, if_neg hlonger, if_neg hnil, if_neg hnil]
    exact ⟨Eq.refl _, ⟨_, Or.inl (Eq.refl _), Eq.refl _⟩, iff_of_false hlonger hnil, Eq.refl _⟩

end View

/-! ### The scan of all lines -/

/-- What is kept of a line that is pushed. -/
def Carried (ls : List (List Char)) (entry : Nat × List Char) : Prop :=
  ∃ raw, ls[entry.1]? = some raw ∧
    (Stripped ls entry.1 raw ∧ entry.2 = stripBullet (trimmedLine raw) ∨
      ¬Stripped ls entry.1 raw ∧ (entry.2 = trimmedLine raw ∨ entry.2 = trimEnd raw))

/-- The line is no bullet that stands at the margin. -/
def Inner (ls : List (List Char)) (n : Nat) : Prop :=
  ∀ raw, ls[n]? = some raw → ¬(isBullet (trimmedLine raw) = true ∧ trimmedLine raw = trimEnd raw)

/-- A rule that has lines, one behind the other. -/
def Run (rule : Rule) : Prop := rule ≠ [] ∧ ∃ start, rule.map Prod.fst = List.range' start rule.length

/-- The line stands in a rule, and not first. -/
def Behind (rules : List Rule) (n : Nat) : Prop := ∃ rule ∈ rules, ∃ entry ∈ rule.tail, entry.1 = n

/-- The closed rules and the open one behind the lines. -/
structure Shelved (ls : List (List Char)) (closed : List Rule) (current : Rule) : Prop where
  numbers : (closed.flatten ++ current).map Prod.fst = (List.range ls.length).filter (pushes ls)
  last : ∀ n, n + 1 = ls.length → pushes ls n = true → current ≠ []
  reaches : ∃ start, start + current.length = ls.length ∧ current.map Prod.fst = List.range' start current.length
  runs : ∀ rule ∈ closed, Run rule
  texts : ∀ rule ∈ closed ++ [current], ∀ entry ∈ rule, Carried ls entry
  tails : ∀ rule ∈ closed ++ [current], ∀ entry ∈ rule.tail, Inner ls entry.1
  joined : ∀ n raw, ls[n + 1]? = some raw → pushes ls (n + 1) = true → isBullet (trimmedLine raw) = false →
    pushes ls n = true → Behind (closed ++ [current]) (n + 1)

section Step

variable {ls : List (List Char)} {raw : List Char} {closed : List Rule} {current : Rule}

theorem stripped_concat {n : Nat} {line : List Char} (h : n ≤ ls.length) :
    Stripped (ls ++ [raw]) n line ↔ Stripped ls n line := by
  unfold Stripped
  rw [List.take_append_of_le_length h]

theorem Carried.concat {entry : Nat × List Char} (h : Carried ls entry) : Carried (ls ++ [raw]) entry := by
  obtain ⟨line, hline, htext⟩ := h
  have hlt := (List.getElem?_eq_some_iff.mp hline).1
  refine ⟨line, by rw [List.getElem?_append_left hlt, hline], ?_⟩
  rwa [stripped_concat hlt.le]

theorem Inner.concat {n : Nat} (h : Inner ls n) (hn : n < ls.length) : Inner (ls ++ [raw]) n := by
  intro line hline
  rw [List.getElem?_append_left hn] at hline
  exact h line hline

theorem filter_range_concat : (List.range (ls ++ [raw]).length).filter (pushes (ls ++ [raw])) =
    (List.range ls.length).filter (pushes ls) ++ if pushes (ls ++ [raw]) ls.length then [ls.length] else [] := by
  rw [List.length_append, List.length_singleton, List.range_succ, List.filter_append, List.filter_singleton]
  congr 1
  · exact List.filter_congr fun n hn => pushes_concat_lt (List.mem_range.mp hn)
  · exact cond_eq_ite _ _ _

theorem behind_flush {n : Nat} {open' : Rule} (h : Behind (closed ++ [current]) n) :
    Behind (flushInto current closed ++ [open']) n := by
  obtain ⟨rule, hrule, entry, hentry, hn⟩ := h
  refine ⟨rule, List.mem_append_left _ (mem_flushInto.mpr ?_), entry, hentry, hn⟩
  rcases List.mem_append.mp hrule with hclosed | hcurrent
  · exact Or.inl hclosed
  · obtain rfl := List.mem_singleton.mp hcurrent
    refine Or.inr ⟨fun hnil => ?_, Eq.refl _⟩
    rw [hnil] at hentry
    exact List.not_mem_nil hentry

theorem mem_shelf_of_flush {rule open' : Rule} (h : rule ∈ flushInto current closed ++ [open']) :
    rule ∈ closed ++ [current] ∨ rule = open' := by
  rcases List.mem_append.mp h with hflush | hopen
  · rcases mem_flushInto.mp hflush with hclosed | ⟨-, rfl⟩
    · exact Or.inl (List.mem_append_left _ hclosed)
    · exact Or.inl (List.mem_append_right _ (List.mem_singleton_self _))
  · exact Or.inr (List.mem_singleton.mp hopen)

/-- Line numbers in rules are those of lines. -/
theorem Shelved.lt (h : Shelved ls closed current) {rule : Rule} (hrule : rule ∈ closed ++ [current])
    {entry : Nat × List Char} (hentry : entry ∈ rule) : entry.1 < ls.length := by
  obtain ⟨line, hline, -⟩ := h.texts rule hrule entry hentry
  exact (List.getElem?_eq_some_iff.mp hline).1

theorem Shelved.runs_flush (h : Shelved ls closed current) {rule : Rule} (hrule : rule ∈ flushInto current closed) :
    Run rule := by
  rcases mem_flushInto.mp hrule with hclosed | ⟨hne, rfl⟩
  · exact h.runs rule hclosed
  · obtain ⟨start, -, hnumbers⟩ := h.reaches
    exact ⟨hne, start, hnumbers⟩

/-- What is true of the lines in the rules stays true. -/
theorem Shelved.older (h : Shelved ls closed current) {rule : Rule} (hrule : rule ∈ closed ++ [current]) :
    (∀ entry ∈ rule, Carried (ls ++ [raw]) entry) ∧ ∀ entry ∈ rule.tail, Inner (ls ++ [raw]) entry.1 :=
  ⟨fun entry hentry => (h.texts rule hrule entry hentry).concat, fun entry hentry =>
    (h.tails rule hrule entry hentry).concat (h.lt hrule (List.mem_of_mem_tail hentry))⟩

theorem Shelved.older_joined (h : Shelved ls closed current) {n : Nat} {line : List Char} (hn : n + 1 < ls.length)
    (hline : (ls ++ [raw])[n + 1]? = some line) (hpush : pushes (ls ++ [raw]) (n + 1) = true)
    (hbullet : isBullet (trimmedLine line) = false) (hbefore : pushes (ls ++ [raw]) n = true) :
    Behind (closed ++ [current]) (n + 1) := by
  rw [List.getElem?_append_left hn] at hline
  rw [pushes_concat_lt hn] at hpush
  rw [pushes_concat_lt (by omega)] at hbefore
  exact h.joined n line hline hpush hbullet hbefore

/-- A line that is not pushed closes the open rule. -/
theorem Shelved.close (h : Shelved ls closed current) (hpush : pushes (ls ++ [raw]) ls.length = false) :
    Shelved (ls ++ [raw]) (flushInto current closed) [] where
  numbers := by
    rw [List.append_nil, flatten_flushInto, filter_range_concat, h.numbers, hpush]
    exact (List.append_nil _).symm
  last := by
    intro n hn hlast
    rw [List.length_append, List.length_singleton] at hn
    obtain rfl : n = ls.length := by omega
    rw [hpush] at hlast
    cases hlast
  reaches := ⟨(ls ++ [raw]).length, Nat.add_zero _, Eq.refl _⟩
  runs := fun _ hrule => h.runs_flush hrule
  texts := by
    intro rule hrule
    rcases mem_shelf_of_flush hrule with hold | rfl
    · exact (h.older hold).1
    · exact fun _ hmem => absurd hmem List.not_mem_nil
  tails := by
    intro rule hrule
    rcases mem_shelf_of_flush hrule with hold | rfl
    · exact (h.older hold).2
    · exact fun _ hmem => absurd hmem List.not_mem_nil
  joined := by
    intro n line hline hnext hbullet hbefore
    have hlt := (List.getElem?_eq_some_iff.mp hline).1
    rw [List.length_append, List.length_singleton] at hlt
    by_cases hn : n + 1 < ls.length
    · exact behind_flush (h.older_joined hn hline hnext hbullet hbefore)
    · obtain hlast : n + 1 = ls.length := by omega
      rw [hlast, hpush] at hnext
      cases hnext

/-- A bullet closes the open rule and starts the next one. -/
theorem Shelved.start (h : Shelved ls closed current) (hpush : pushes (ls ++ [raw]) ls.length = true)
    (hbullet : isBullet (trimmedLine raw) = true) {text : List Char} (htext : Carried (ls ++ [raw]) (ls.length, text)) :
    Shelved (ls ++ [raw]) (flushInto current closed) [(ls.length, text)] where
  numbers := by
    rw [flatten_flushInto, List.map_append, filter_range_concat, h.numbers, if_pos hpush]
    exact Eq.refl _
  last := fun _ _ _ => List.cons_ne_nil _ _
  reaches := ⟨ls.length, by rw [List.length_append, List.length_singleton, List.length_singleton], Eq.refl _⟩
  runs := fun _ hrule => h.runs_flush hrule
  texts := by
    intro rule hrule entry hentry
    rcases mem_shelf_of_flush hrule with hold | rfl
    · exact (h.older hold).1 entry hentry
    · rw [List.mem_singleton.mp hentry]
      exact htext
  tails := by
    intro rule hrule
    rcases mem_shelf_of_flush hrule with hold | rfl
    · exact (h.older hold).2
    · exact fun _ hmem => absurd hmem List.not_mem_nil
  joined := by
    intro n line hline hnext hnone hbefore
    have hlt := (List.getElem?_eq_some_iff.mp hline).1
    rw [List.length_append, List.length_singleton] at hlt
    by_cases hn : n + 1 < ls.length
    · exact behind_flush (h.older_joined hn hline hnext hnone hbefore)
    · obtain hlast : n + 1 = ls.length := by omega
      rw [hlast, List.getElem?_concat_length, Option.some.injEq] at hline
      rw [← hline, hbullet] at hnone
      cases hnone

/-- Another pushed line goes into the open rule. -/
theorem Shelved.push (h : Shelved ls closed current) (hpush : pushes (ls ++ [raw]) ls.length = true)
    {text : List Char} (htext : Carried (ls ++ [raw]) (ls.length, text)) (hinner : Inner (ls ++ [raw]) ls.length) :
    Shelved (ls ++ [raw]) closed (current ++ [(ls.length, text)]) where
  numbers := by
    rw [← List.append_assoc, List.map_append, filter_range_concat, h.numbers, if_pos hpush]
    exact Eq.refl _
  last := fun _ _ _ => List.append_ne_nil_of_right_ne_nil _ (List.cons_ne_nil _ _)
  reaches := by
    obtain ⟨start, hlength, hnumbers⟩ := h.reaches
    refine ⟨start, by simp only [List.length_append, List.length_singleton]; omega, ?_⟩
    rw [List.map_append, hnumbers, List.length_append, List.length_singleton, List.range'_concat, Nat.one_mul, hlength]
    exact Eq.refl _
  runs := h.runs
  texts := by
    intro rule hrule entry hentry
    rcases List.mem_append.mp hrule with hold | hcurrent
    · exact (h.older (List.mem_append_left _ hold)).1 entry hentry
    · rw [List.mem_singleton.mp hcurrent] at hentry
      rcases List.mem_append.mp hentry with hbefore | hlast
      · exact (h.older (List.mem_append_right _ (List.mem_singleton_self _))).1 entry hbefore
      · rw [List.mem_singleton.mp hlast]
        exact htext
  tails := by
    intro rule hrule entry hentry
    rcases List.mem_append.mp hrule with hold | hcurrent
    · exact (h.older (List.mem_append_left _ hold)).2 entry hentry
    · rw [List.mem_singleton.mp hcurrent] at hentry
      by_cases hnil : current = []
      · rw [hnil] at hentry
        exact absurd hentry List.not_mem_nil
      · rw [List.tail_append_of_ne_nil hnil] at hentry
        rcases List.mem_append.mp hentry with hbefore | hlast
        · exact (h.older (List.mem_append_right _ (List.mem_singleton_self _))).2 entry hbefore
        · rw [List.mem_singleton.mp hlast]
          exact hinner
  joined := by
    intro n line hline hnext hnone hbefore
    have hlt := (List.getElem?_eq_some_iff.mp hline).1
    rw [List.length_append, List.length_singleton] at hlt
    by_cases hn : n + 1 < ls.length
    · obtain ⟨rule, hrule, entry, hentry, hnumber⟩ := h.older_joined hn hline hnext hnone hbefore
      rcases List.mem_append.mp hrule with hold | hcurrent
      · exact ⟨rule, List.mem_append_left _ hold, entry, hentry, hnumber⟩
      · rw [List.mem_singleton.mp hcurrent] at hentry
        refine ⟨_, List.mem_append_right _ (List.mem_singleton_self _), entry, ?_, hnumber⟩
        rw [List.tail_append_of_ne_nil (List.ne_nil_of_mem (List.mem_of_mem_tail hentry))]
        exact List.mem_append_left _ hentry
    · have hlast : n + 1 = ls.length := by omega
      rw [pushes_concat_lt (by omega)] at hbefore
      refine ⟨_, List.mem_append_right _ (List.mem_singleton_self _), (ls.length, text), ?_, hlast.symm⟩
      rw [List.tail_append_of_ne_nil (h.last n hlast hbefore)]
      exact List.mem_append_right _ (List.mem_singleton_self _)

end Step

/-- What holds of a scan behind the lines. -/
structure Scanned (ls : List (List Char)) (scan : Scan) : Prop where
  fence : scan.inFence = fenced ls
  idle : scan.inFence = true → scan.current = []
  bullet : scan.bullet ≠ [] ↔ BulletOpen ls
  shelved : Shelved ls scan.closed scan.current

theorem scanned_start : Scanned [] .start where
  fence := Eq.refl _
  idle := nofun
  bullet := by
    apply iff_of_false
    · exact fun h => h (Eq.refl _)
    · rintro ⟨i, raw, hraw, -⟩
      cases hraw
  shelved :=
    { numbers := Eq.refl _
      last := nofun
      reaches := ⟨0, Eq.refl _, Eq.refl _⟩
      runs := nofun
      texts := by
        intro rule hrule entry hentry
        rw [List.mem_singleton.mp hrule] at hentry
        exact absurd hentry List.not_mem_nil
      tails := by
        intro rule hrule entry hentry
        rw [List.mem_singleton.mp hrule] at hentry
        exact absurd hentry List.not_mem_nil
      joined := nofun }

section Scan

variable {ls : List (List Char)} {raw : List Char} {scan : Scan}

theorem Scanned.takes (h : Scanned ls scan) : scan.takes raw = pushes (ls ++ [raw]) ls.length := by
  rw [pushes_concat_length, Scan.takes, h.fence]

/-- A bullet is stripped when it starts a rule. -/
theorem Scanned.starts_iff (h : Scanned ls scan) : scan.Starts raw ↔ Stripped (ls ++ [raw]) ls.length raw := by
  rw [stripped_concat le_rfl]
  unfold Scan.Starts Stripped
  rw [List.take_length, ← h.bullet, not_not]

theorem Scanned.line (h : Scanned ls scan) : Scanned (ls ++ [raw]) (scanLine scan (raw, ls.length)) := by
  have hlast : (ls ++ [raw])[ls.length]? = some raw := List.getElem?_concat_length
  cases htakes : scan.takes raw with
  | false =>
      have hpush := htakes
      rw [h.takes] at hpush
      rw [scanLine_closes h.idle htakes]
      refine ⟨?_, fun _ => flush_current scan, ?_, ?_⟩
      · rw [fenced_concat, h.fence]
      · apply iff_of_false
        · exact fun hne => hne (Eq.refl _)
        · rw [bulletOpen_concat, hpush]
          exact fun hopen => Bool.false_ne_true hopen.1
      · have hshelved := h.shelved.close hpush
        rw [← flush_rules] at hshelved
        exact hshelved
  | true =>
      have hpush := htakes
      rw [h.takes] at hpush
      have hfence : isFence (trimmedLine raw) = false ∧ scan.inFence = false := by
        simp only [Scan.takes, Bool.and_eq_true, Bool.not_eq_true'] at htakes
        exact ⟨htakes.1.2, htakes.1.1⟩
      have hsame : fenced (ls ++ [raw]) = fenced ls := by
        rw [fenced_concat, if_neg (ne_true_of_eq_false hfence.1)]
      by_cases hstarts : scan.Starts raw
      · obtain ⟨hclosed, hcurrent, hbullet, hin⟩ := scanLine_starts (n := ls.length) htakes hstarts
        refine ⟨by rw [hin, hsame, h.fence], ?_, ?_, ?_⟩
        · rw [hin, hfence.2]
          exact fun hfalse => absurd hfalse Bool.false_ne_true
        · rw [iff_true_left hbullet, bulletOpen_concat]
          exact ⟨hpush, Or.inl hstarts.1⟩
        · rw [hclosed, hcurrent, flush_rules]
          exact h.shelved.start hpush hstarts.1 ⟨raw, hlast, Or.inl ⟨h.starts_iff.mp hstarts, Eq.refl _⟩⟩
      · obtain ⟨hclosed, ⟨text, htext, hcurrent⟩, hbullet, hin⟩ :=
          scanLine_continues (n := ls.length) htakes hstarts
        have hopen : isBullet (trimmedLine raw) = true → scan.bullet ≠ [] := fun hb hnil => hstarts ⟨hb, Or.inr hnil⟩
        refine ⟨by rw [hin, hsame, h.fence], ?_, ?_, ?_⟩
        · rw [hin, hfence.2]
          exact fun hfalse => absurd hfalse Bool.false_ne_true
        · rw [bulletOpen_concat, ← h.bullet, Ne, hbullet, and_iff_right hpush]
          exact ⟨Or.inr, fun hor => hor.elim hopen id⟩
        · rw [hclosed, hcurrent]
          refine h.shelved.push hpush ⟨raw, hlast, Or.inr ⟨mt h.starts_iff.mpr hstarts, htext⟩⟩ fun line hline => ?_
          rw [hlast, Option.some.injEq] at hline
          rw [← hline]
          exact fun hmargin => hstarts ⟨hmargin.1, Or.inl hmargin.2⟩

theorem scanned_foldl (ls : List (List Char)) : Scanned ls (ls.zipIdx.foldl scanLine .start) := by
  induction ls using List.reverseRecOn with
  | nil => exact scanned_start
  | append_singleton ls raw ih =>
      rw [List.zipIdx_append, List.foldl_append, Nat.zero_add]
      exact ih.line

end Scan

/-! ### The rules of a file -/

section Rules

variable {md : List Char} {rule : Rule} {entry : Nat × List Char}

theorem rulesOf_shelved (md : List Char) : ∃ closed current,
    Shelved (lines md) closed current ∧ rulesOf md = flushInto current closed :=
  ⟨_, _, (scanned_foldl (lines md)).shelved, flush_rules _⟩

theorem numbers_rulesOf (md : List Char) :
    (rulesOf md).flatten.map Prod.fst = (List.range (lines md).length).filter (pushes (lines md)) := by
  obtain ⟨closed, current, hshelved, heq⟩ := rulesOf_shelved md
  rw [heq, flatten_flushInto, hshelved.numbers]

theorem run_of_mem_rulesOf (h : rule ∈ rulesOf md) : Run rule := by
  obtain ⟨closed, current, hshelved, heq⟩ := rulesOf_shelved md
  rw [heq] at h
  exact hshelved.runs_flush h

theorem mem_shelf_of_rulesOf {closed : List Rule} {current : Rule} (h : rule ∈ flushInto current closed) :
    rule ∈ closed ++ [current] := by
  rcases mem_flushInto.mp h with hclosed | ⟨-, rfl⟩
  · exact List.mem_append_left _ hclosed
  · exact List.mem_append_right _ (List.mem_singleton_self _)

theorem carried_of_mem_rulesOf (h : rule ∈ rulesOf md) (hentry : entry ∈ rule) : Carried (lines md) entry := by
  obtain ⟨closed, current, hshelved, heq⟩ := rulesOf_shelved md
  rw [heq] at h
  exact hshelved.texts rule (mem_shelf_of_rulesOf h) entry hentry

theorem inner_of_mem_tail (h : rule ∈ rulesOf md) (hentry : entry ∈ rule.tail) : Inner (lines md) entry.1 := by
  obtain ⟨closed, current, hshelved, heq⟩ := rulesOf_shelved md
  rw [heq] at h
  exact hshelved.tails rule (mem_shelf_of_rulesOf h) entry hentry

theorem behind_rulesOf {n : Nat} {raw : List Char} (hraw : (lines md)[n + 1]? = some raw)
    (hpush : pushes (lines md) (n + 1) = true) (hbullet : isBullet (trimmedLine raw) = false)
    (hbefore : pushes (lines md) n = true) : Behind (rulesOf md) (n + 1) := by
  obtain ⟨closed, current, hshelved, heq⟩ := rulesOf_shelved md
  obtain ⟨rule, hrule, entry, hentry, hnumber⟩ :=
    @behind_flush _ _ _ [] (hshelved.joined n raw hraw hpush hbullet hbefore)
  rcases List.mem_append.mp hrule with hold | hnil
  · exact ⟨rule, heq ▸ hold, entry, hentry, hnumber⟩
  · rw [List.mem_singleton.mp hnil] at hentry
    exact absurd hentry List.not_mem_nil

/-- A line is in a rule when it is pushed. -/
theorem mem_rulesOf_iff {n : Nat} :
    (∃ rule ∈ rulesOf md, ∃ entry ∈ rule, entry.1 = n) ↔ n < (lines md).length ∧ pushes (lines md) n = true := by
  have hmem : n ∈ (rulesOf md).flatten.map Prod.fst ↔ n < (lines md).length ∧ pushes (lines md) n = true := by
    rw [numbers_rulesOf, List.mem_filter, List.mem_range]
  rw [← hmem, List.mem_map]
  constructor
  · rintro ⟨rule, hrule, entry, hentry, hn⟩
    exact ⟨entry, List.mem_flatten.mpr ⟨rule, hrule, hentry⟩, hn⟩
  · rintro ⟨entry, hentry, hn⟩
    obtain ⟨rule, hrule, hmem⟩ := List.mem_flatten.mp hentry
    exact ⟨rule, hrule, entry, hmem, hn⟩

/-- The line before one that is not first in its rule is pushed. -/
theorem pushes_before (h : rule ∈ rulesOf md) (hentry : entry ∈ rule.tail) :
    ∃ n, entry.1 = n + 1 ∧ pushes (lines md) n = true := by
  obtain ⟨-, start, hnumbers⟩ := run_of_mem_rulesOf h
  cases rule with
  | nil => exact absurd hentry List.not_mem_nil
  | cons first more =>
      rw [List.tail_cons] at hentry
      rw [List.length_cons, List.range'_succ, List.map_cons, List.cons.injEq] at hnumbers
      have hmem : entry.1 ∈ List.range' (start + 1) more.length := hnumbers.2 ▸ List.mem_map_of_mem hentry
      rw [List.mem_range'_1] at hmem
      refine ⟨entry.1 - 1, by omega, (mem_rulesOf_iff.mp ⟨_, h, ?_⟩).2⟩
      by_cases hfirst : entry.1 = start + 1
      · exact ⟨first, List.mem_cons_self, by omega⟩
      · have hbefore : entry.1 - 1 ∈ more.map Prod.fst := by
          rw [hnumbers.2, List.mem_range'_1]
          omega
        obtain ⟨before, hbefore, hn⟩ := List.mem_map.mp hbefore
        exact ⟨before, List.mem_cons_of_mem _ hbefore, hn⟩

/-- A line that is pushed leaves a text on one line. -/
theorem text_of_carried {ls : List (List Char)} (hls : ∀ raw ∈ ls, '\n' ∉ raw) (h : Carried ls entry)
    (hpush : pushes ls entry.1 = true) : '\n' ∉ entry.2 ∧ trim entry.2 ≠ [] := by
  obtain ⟨raw, hraw, htext⟩ := h
  have hnewline := hls raw (List.mem_of_getElem? hraw)
  have hline : '\n' ∉ trimEnd raw := fun hmem => hnewline ((List.rdropWhile_prefix _ _).subset hmem)
  have htrimmed : '\n' ∉ trimmedLine raw := fun hmem => hline (List.dropWhile_subset _ hmem)
  have hne : trimmedLine raw ≠ [] := by
    rw [pushes, hraw, Option.any_some, Bool.and_eq_true, Bool.and_eq_true, Bool.not_eq_true',
      List.isEmpty_eq_false_iff] at hpush
    exact hpush.2.1
  rcases htext with ⟨⟨hbullet, -⟩, heq⟩ | ⟨-, heq | heq⟩
  · rw [heq]
    have hspace := space_mem_of_isBullet hbullet
    have hcut : ∀ {pre rest : List Char}, trimmedLine raw = pre ++ rest → rest ≠ [] →
        '\n' ∉ trimStart rest ∧ trim (trimStart rest) ≠ [] := by
      intro pre rest hsplit hrest
      constructor
      · exact fun hmem => htrimmed (hsplit ▸ List.mem_append_right _ (List.dropWhile_subset _ hmem))
      · rw [trim_trimStart]
        exact trim_ne_nil hsplit hrest
    rcases stripBullet_cases (trimmedLine raw) with
      ⟨c, rest, -, hsplit, hstrip⟩ | ⟨digits, mark, rest, hdigits, hmark, hsplit, hstrip⟩ | ⟨hstrip, -⟩
    · rw [hstrip]
      refine @hcut [c, ' '] _ hsplit ?_
      rintro rfl
      have hgetLast : (trimmedLine raw).getLast? = some ' ' := by
        rw [hsplit]
        exact Eq.refl _
      have hlast := trimmedLine_last hgetLast
      exact absurd hlast (by decide)
    · rw [hstrip]
      refine @hcut (digits ++ [mark]) _ (by rw [hsplit, List.append_assoc]; exact Eq.refl _) ?_
      rintro rfl
      rw [hsplit] at hspace
      rcases List.mem_append.mp hspace with hdigit | hlast
      · exact absurd (hdigits _ hdigit) (by decide)
      · rcases hmark with rfl | rfl
        · exact absurd hlast (by decide)
        · exact absurd hlast (by decide)
    · rw [hstrip, trim_trimmedLine]
      exact ⟨htrimmed, hne⟩
  · rw [heq, trim_trimmedLine]
    exact ⟨htrimmed, hne⟩
  · rw [heq, trim_trimEnd]
    exact ⟨hline, hne⟩

theorem rendered_rulesOf (h : rule ∈ rulesOf md) :
    ((render rule).splitOn '\n').map trim = rule.map fun entry => trim entry.2 := by
  have htext : ∀ entry ∈ rule, '\n' ∉ entry.2 ∧ trim entry.2 ≠ [] := fun entry hentry =>
    text_of_carried (fun raw => newline_not_mem_lines) (carried_of_mem_rulesOf h hentry)
      (mem_rulesOf_iff.mp ⟨rule, h, entry, hentry, Eq.refl _⟩).2
  unfold render
  rw [splitOn_trim, List.map_map]
  · rfl
  · exact fun hnil => (run_of_mem_rulesOf h).1 (List.map_eq_nil_iff.mp hnil)
  · exact List.forall_mem_map.mpr fun entry hentry => (htext entry hentry).1
  · exact List.forall_mem_map.mpr fun entry hentry => (htext entry hentry).2

/-! ### When nothing is lost -/

theorem isHeading_head {trimmed : List Char} (h : isHeading trimmed = true) : trimmed.head? = some '#' := by
  rw [isHeading, Bool.and_eq_true, decide_eq_true_eq] at h
  cases trimmed with
  | nil => exact absurd h.1.1 (by decide)
  | cons c rest =>
      by_cases hc : c = '#'
      · rw [hc, List.head?_cons]
      · rw [List.takeWhile_cons_of_neg (by rwa [decide_eq_true_eq])] at h
        exact absurd h.1.1 (by decide)

theorem outside_of_pushes {ls : List (List Char)} {n : Nat} (h : pushes ls n = true) : outside ls n = true := by
  rw [pushes, Bool.and_eq_true] at h
  exact h.1

theorem pushes_iff {ls : List (List Char)} {n : Nat} {raw : List Char} (hraw : ls[n]? = some raw) :
    pushes ls n = true ↔ outside ls n = true ∧ trimmedLine raw ≠ [] ∧ (trimmedLine raw).head? ≠ some '#' := by
  rw [pushes, hraw, Option.any_some, Bool.and_eq_true, Bool.and_eq_true, Bool.not_eq_true',
    List.isEmpty_eq_false_iff, decide_eq_true_eq]

theorem relevant_iff {ls : List (List Char)} {n : Nat} {raw : List Char} (hraw : ls[n]? = some raw) :
    relevant ls n = true ↔ outside ls n = true ∧ trimmedLine raw ≠ [] ∧ isHeading (trimmedLine raw) = false := by
  rw [relevant, hraw, Option.any_some, Bool.and_eq_true, Bool.and_eq_true, Bool.not_eq_true',
    List.isEmpty_eq_false_iff, Bool.not_eq_true']

/-- The lines that are to be kept are pushed, when no line looks like a heading without being one. -/
theorem numbers_iff (md : List Char) :
    (rulesOf md).flatten.map Prod.fst = (List.range (lines md).length).filter (relevant (lines md)) ↔
      ∀ n raw, (lines md)[n]? = some raw → outside (lines md) n = true → (trimmedLine raw).head? = some '#' →
        isHeading (trimmedLine raw) = true := by
  rw [numbers_rulesOf]
  constructor
  · intro heq n raw hraw hout hhash
    by_contra hnot
    have hne : trimmedLine raw ≠ [] := by
      intro hnil
      rw [hnil] at hhash
      cases hhash
    have hmem : n ∈ (List.range (lines md).length).filter (relevant (lines md)) := List.mem_filter.mpr
      ⟨List.mem_range.mpr (List.getElem?_eq_some_iff.mp hraw).1,
        (relevant_iff hraw).mpr ⟨hout, hne, eq_false_of_ne_true hnot⟩⟩
    rw [← heq, List.mem_filter, pushes_iff hraw] at hmem
    exact hmem.2.2.2 hhash
  · intro hheadings
    refine List.filter_congr fun n hn => ?_
    have hraw := List.getElem?_eq_getElem (List.mem_range.mp hn)
    rw [Bool.eq_iff_iff, pushes_iff hraw, relevant_iff hraw]
    refine and_congr_right fun hout => and_congr_right fun _ => ?_
    rw [← Bool.not_eq_true]
    exact not_congr ⟨hheadings n _ hraw hout, isHeading_head⟩

/-- Every line is kept verbatim, when no false number is taken for a list marker. -/
theorem verbatim_iff (md : List Char) :
    (∀ rule ∈ rulesOf md, ∀ entry ∈ rule, ∃ raw, (lines md)[entry.1]? = some raw ∧ Verbatim raw entry.2) ↔
      ∀ n raw, (lines md)[n]? = some raw → outside (lines md) n = true → Stripped (lines md) n raw →
        ¬FalseNumber (trimmedLine raw) := by
  constructor
  · intro hverbatim n raw hraw hout hstripped
    obtain ⟨c, hc, hlead⟩ := head_of_isBullet hstripped.1
    have hpush : pushes (lines md) n = true := by
      refine (pushes_iff hraw).mpr ⟨hout, ?_, ?_⟩
      · intro hnil
        rw [hnil] at hc
        cases hc
      · intro hhash
        rw [hc, Option.some.injEq] at hhash
        rw [hhash] at hlead
        exact absurd hlead (by decide)
    obtain ⟨rule, hrule, entry, hentry, rfl⟩ :=
      mem_rulesOf_iff.mpr ⟨(List.getElem?_eq_some_iff.mp hraw).1, hpush⟩
    obtain ⟨line, hline, hkept⟩ := hverbatim rule hrule entry hentry
    obtain rfl : raw = line := Option.some.inj (hraw.symm.trans hline)
    obtain ⟨line, hline, ⟨-, htext⟩ | ⟨hnot, -⟩⟩ := carried_of_mem_rulesOf hrule hentry
    · obtain rfl : raw = line := Option.some.inj (hraw.symm.trans hline)
      rw [htext] at hkept
      exact (verbatim_stripBullet_iff hstripped.1).mp hkept
    · obtain rfl : raw = line := Option.some.inj (hraw.symm.trans hline)
      exact absurd hstripped hnot
  · intro hnumbers rule hrule entry hentry
    have hpush := (mem_rulesOf_iff.mp ⟨rule, hrule, entry, hentry, Eq.refl _⟩).2
    obtain ⟨raw, hraw, htext⟩ := carried_of_mem_rulesOf hrule hentry
    refine ⟨raw, hraw, ?_⟩
    rcases htext with ⟨hstripped, heq⟩ | ⟨-, heq | heq⟩
    · rw [heq]
      exact (verbatim_stripBullet_iff hstripped.1).mpr (hnumbers _ raw hraw (outside_of_pushes hpush) hstripped)
    · exact Or.inl (by rw [heq, trim_trimmedLine])
    · exact Or.inl (by rw [heq, trim_trimEnd])

theorem pushes_of_topLevelBullet {ls : List (List Char)} {n : Nat} {raw : List Char} (hraw : ls[n]? = some raw)
    (hout : outside ls n = true) (h : TopLevelBullet raw) : pushes ls n = true := by
  obtain ⟨-, marker, rest, ⟨mark, blank, -, rfl, hmark⟩, heq⟩ := h
  obtain ⟨c, more, rfl, hc⟩ : ∃ c more, mark = c :: more ∧ c ≠ '#' := by
    rcases hmark with rfl | rfl | rfl | ⟨digits, hne, hdigits, hmark⟩
    · exact ⟨_, _, Eq.refl _, by decide⟩
    · exact ⟨_, _, Eq.refl _, by decide⟩
    · exact ⟨_, _, Eq.refl _, by decide⟩
    · obtain ⟨c, more, rfl⟩ := List.exists_cons_of_ne_nil hne
      have hc : c ≠ '#' := by
        rintro rfl
        exact absurd (hdigits _ List.mem_cons_self) (by decide)
      rcases hmark with rfl | rfl
      · exact ⟨c, _, Eq.refl _, hc⟩
      · exact ⟨c, _, Eq.refl _, hc⟩
  refine (pushes_iff hraw).mpr ⟨hout, ?_, ?_⟩
  · rw [heq]
    exact List.cons_ne_nil _ _
  · rw [heq]
    exact fun hhash => hc (Option.some.inj hhash)

/-- A list item at the margin is first in its rule, when it is taken for a bullet or nothing is in front. -/
theorem bullets_iff (md : List Char) :
    (∀ rule ∈ rulesOf md, ∀ entry ∈ rule.tail, ∀ raw, (lines md)[entry.1]? = some raw → ¬TopLevelBullet raw) ↔
      ∀ n raw, (lines md)[n + 1]? = some raw → outside (lines md) (n + 1) = true → TopLevelBullet raw →
        isBullet (trimmedLine raw) = false → pushes (lines md) n = false := by
  constructor
  · intro hfirst n raw hraw hout htop hnone
    rw [← Bool.not_eq_true]
    intro hbefore
    obtain ⟨rule, hrule, entry, hentry, hn⟩ :=
      behind_rulesOf hraw (pushes_of_topLevelBullet hraw hout htop) hnone hbefore
    exact hfirst rule hrule entry hentry raw (hn ▸ hraw) htop
  · intro hbullets rule hrule entry hentry raw hraw htop
    obtain ⟨n, hn, hbefore⟩ := pushes_before hrule hentry
    have hpush := (mem_rulesOf_iff.mp ⟨rule, hrule, entry, List.mem_of_mem_tail hentry, Eq.refl _⟩).2
    have hnone : isBullet (trimmedLine raw) = false :=
      eq_false_of_ne_true fun hbullet => inner_of_mem_tail hrule hentry raw hraw ⟨hbullet, htop.1⟩
    rw [hn] at hraw hpush
    rw [hbullets n raw hraw (outside_of_pushes hpush) htop hnone] at hbefore
    cases hbefore

/-- The rules of a file hold all its lines, exactly when the lines are orderly. -/
theorem keepsRules_iff (md : List Char) : KeepsRules md ↔ Orderly (lines md) := by
  constructor
  · exact fun h => ⟨(numbers_iff md).mp h.numbers, (verbatim_iff md).mp h.verbatim, (bullets_iff md).mp h.bullets⟩
  · intro h
    exact
      { numbers := (numbers_iff md).mpr h.headings
        verbatim := (verbatim_iff md).mpr h.numbers
        bullets := (bullets_iff md).mpr h.bullets
        consecutive := fun rule hrule => (run_of_mem_rulesOf hrule).2
        rendered := fun rule hrule => rendered_rulesOf hrule
        returned := Eq.refl _ }

/-- A rule that starts with an issue number is lost. -/
theorem keepsRules_hash : splitRules "#1 rule: never push\n3.5 hours. Not more".toList = ["5 hours. Not more".toList] ∧
    ¬KeepsRules "#1 rule: never push\n3.5 hours. Not more".toList := by
  constructor
  · decide +kernel
  · intro h
    exact absurd h.numbers (by decide +kernel)

end Rules

end TinyCortex.Persona.SplitRules
