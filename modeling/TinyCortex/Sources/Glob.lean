import TinyCortex.Lib.Regex

/-! Globs of folder sources (`glob_to_regex` of `sources/readers/folder.rs`): the expression that is built from a
glob, and what the glob says by its documentation. -/

namespace TinyCortex.Sources

/-! ### The expression -/

/-- The characters that get a backslash. -/
def escaped : List Char := ['.', '+', '(', ')', '|', '^', '$', '\x7b', '\x7d', '[', ']', '\\']

/-- A loop that looks at a character and what follows it, and passes over so many of the following ones. -/
def scan {β : Type} (step : Char → List Char → β × Nat) : Nat → List Char → List β
  | _, [] => []
  | 0, c :: rest => (step c rest).1 :: scan step (step c rest).2 rest
  | skip + 1, _ :: rest => scan step skip rest

/-- One turn of the loop of `glob_to_regex`. -/
def globPiece (c : Char) (rest : List Char) : List Char × Nat :=
  if c = '*' then
    if rest[0]? = some '*' then
      if rest[1]? = some '/' then ("(?:.*/)?".toList, 2) else (".*".toList, 1)
    else ("[^/]*".toList, 0)
  else if c = '?' then ("[^/]".toList, 0)
  else if c = '/' then (['/'], 0)
  else if c ∈ escaped then (['\\', c], 0)
  else ([c], 0)

def globToRegex (pattern : List Char) : List Char := '^' :: ((scan globPiece 0 pattern).flatten ++ ['$'])

/-- `Regex::is_match` of the compiled glob. -/
def globMatches (pattern path : List Char) : Bool :=
  match Regex.read (globToRegex pattern) with
  | some regex => regex.accepts path
  | none => false

/-! ### The documented meaning -/

inductive GlobToken
  | one
  | run
  | anything
  | directories
  | literal (c : Char)

/-- The longest form of stars is taken first. -/
def globToken (c : Char) (rest : List Char) : GlobToken × Nat :=
  if c = '*' then
    if rest[0]? = some '*' then
      if rest[1]? = some '/' then (.directories, 2) else (.anything, 1)
    else (.run, 0)
  else if c = '?' then (.one, 0)
  else (.literal c, 0)

/-- A glob is read from the left. -/
def globTokens (pattern : List Char) : List GlobToken := scan globToken 0 pattern

/-- The texts a token stands for. Of the characters only those of `free` are taken for a run across separators. -/
def GlobToken.Stands (free : Char → Prop) : GlobToken → List Char → Prop
  | .one, w => ∃ c, c ≠ '/' ∧ w = [c]
  | .run, w => ∀ c ∈ w, c ≠ '/'
  | .anything, w => ∀ c ∈ w, free c
  | .directories, w => ∃ names : List (List Char), (∀ name ∈ names, ∀ c ∈ name, c ≠ '/' ∧ free c) ∧
      w = names.flatMap (· ++ ['/'])
  | .literal c, w => w = [c]

def TokensStand (free : Char → Prop) : List GlobToken → List Char → Prop
  | [], w => w = []
  | token :: tokens, w => ∃ u v, token.Stands free u ∧ TokensStand free tokens v ∧ u ++ v = w

/-- The path is in the language of the glob. -/
def InGlob (pattern path : List Char) : Prop := TokensStand (fun _ => True) (globTokens pattern) path

/-- The path is in the language with no newline under a double star. -/
def InGlobLines (pattern path : List Char) : Prop := TokensStand (· ≠ '\n') (globTokens pattern) path

/-! ### From a glob to the parsed expression -/

/-- What is written for a token. -/
def GlobToken.write : GlobToken → List Char
  | .one => "[^/]".toList
  | .run => "[^/]*".toList
  | .anything => ".*".toList
  | .directories => "(?:.*/)?".toList
  | .literal c => if c ∈ escaped then ['\\', c] else [c]

def GlobToken.regex : GlobToken → Regex
  | .one => .chars (.not '/')
  | .run => .star (.chars (.not '/'))
  | .anything => .star (.chars .dot)
  | .directories => Regex.opt (Regex.ofList [.star (.chars .dot), .chars (.only '/')])
  | .literal c => .chars (.only c)

theorem scan_map {β γ : Type} {step : Char → List Char → β × Nat} {step' : Char → List Char → γ × Nat} {f : β → γ}
    (h : ∀ c rest, step' c rest = (f (step c rest).1, (step c rest).2)) (text : List Char) (skip : Nat) :
    scan step' skip text = (scan step skip text).map f := by
  induction text generalizing skip with
  | nil =>
      rw [scan, scan]
      rfl
  | cons c text ih =>
      cases skip with
      | zero => rw [scan, scan, h, ih, List.map_cons]
      | succ skip => rw [scan, scan, ih]

theorem mem_scan {β : Type} {step : Char → List Char → β × Nat} {text : List Char} {skip : Nat} {b : β}
    (h : b ∈ scan step skip text) : ∃ c rest, b = (step c rest).1 := by
  induction text generalizing skip with
  | nil =>
      rw [scan] at h
      cases h
  | cons c text ih =>
      cases skip with
      | zero =>
          rw [scan] at h
          rcases List.mem_cons.mp h with hfirst | hrest
          · exact ⟨c, text, hfirst⟩
          · exact ih hrest
      | succ skip =>
          rw [scan] at h
          exact ih h

theorem globPiece_eq (c : Char) (rest : List Char) :
    globPiece c rest = ((globToken c rest).1.write, (globToken c rest).2) := by
  unfold globPiece globToken
  by_cases hstar : c = '*'
  · rw [if_pos hstar, if_pos hstar]
    split_ifs
    all_goals rfl
  · rw [if_neg hstar, if_neg hstar]
    by_cases hquestion : c = '?'
    · rw [if_pos hquestion, if_pos hquestion]
      rfl
    · rw [if_neg hquestion, if_neg hquestion]
      by_cases hslash : c = '/'
      · rw [if_pos hslash, hslash]
        rfl
      · rw [if_neg hslash]
        show (if c ∈ escaped then (['\\', c], 0) else ([c], 0)) = (if c ∈ escaped then ['\\', c] else [c], 0)
        split_ifs
        all_goals rfl

theorem globToRegex_eq (pattern : List Char) :
    globToRegex pattern = '^' :: ((globTokens pattern).flatMap GlobToken.write ++ ['$']) := by
  rw [globToRegex, scan_map globPiece_eq, ← List.flatMap_def, globTokens]

/-- A star or a question mark is no literal. -/
theorem literal_of_globToken {c d : Char} {rest : List Char} (h : (globToken c rest).1 = .literal d) :
    d ≠ '*' ∧ d ≠ '?' := by
  unfold globToken at h
  by_cases hstar : c = '*'
  · rw [if_pos hstar] at h
    split_ifs at h
  · by_cases hquestion : c = '?'
    · rw [if_neg hstar, if_pos hquestion] at h
      cases h
    · rw [if_neg hstar, if_neg hquestion] at h
      rw [← GlobToken.literal.inj h]
      exact ⟨hstar, hquestion⟩

theorem literal_of_mem {c : Char} {pattern : List Char} (h : GlobToken.literal c ∈ globTokens pattern) :
    c ≠ '*' ∧ c ≠ '?' := by
  obtain ⟨d, rest, hd⟩ := mem_scan h
  exact literal_of_globToken hd.symm

theorem next_escaped {c : Char} (h : c ∈ escaped) (items : List Regex) :
    ['\\', c].foldlM Regex.Reader.next ⟨.nothing, items, []⟩ = some ⟨.nothing, .chars (.only c) :: items, []⟩ := by
  have hspecial : c ∈ Regex.special := by
    have hall : ∀ d ∈ escaped, d ∈ Regex.special := by simp [escaped, Regex.special]
    exact hall c h
  have hnext : Regex.Reader.next ⟨.escape, items, []⟩ c = some ⟨.nothing, .chars (.only c) :: items, []⟩ :=
    if_pos hspecial
  show (Regex.Reader.next ⟨.escape, items, []⟩ c).bind some = _
  rw [hnext, Option.bind_some]

theorem next_plain {c : Char} (h : c ∉ escaped) (hstar : c ≠ '*') (hquestion : c ≠ '?') (items : List Regex) :
    [c].foldlM Regex.Reader.next ⟨.nothing, items, []⟩ = some ⟨.nothing, .chars (.only c) :: items, []⟩ := by
  have hplain : c ∉ Regex.special := by
    have hall : ∀ d ∈ Regex.special, d ∈ escaped ∨ d = '*' ∨ d = '?' := by simp [escaped, Regex.special]
    intro hspecial
    rcases hall c hspecial with hin | hin | hin
    · exact h hin
    · exact hstar hin
    · exact hquestion hin
  have hne (d : Char) (hd : d ∈ Regex.special) : c ≠ d := fun heq => hplain (heq ▸ hd)
  have hnext : Regex.Reader.next ⟨.nothing, items, []⟩ c = some ⟨.nothing, .chars (.only c) :: items, []⟩ := by
    unfold Regex.Reader.next
    rw [if_neg (hne '\\' (by decide)), if_neg (hne '[' (by decide)), if_neg (hne '(' (by decide)),
      if_neg (hne ')' (by decide)), if_neg hstar, if_neg hquestion, if_neg (hne '.' (by decide)),
      if_neg (hne '$' (by decide)), if_neg hplain]
    rfl
  show (Regex.Reader.next ⟨.nothing, items, []⟩ c).bind some = _
  rw [hnext, Option.bind_some]

/-- A written token is read as one item. -/
theorem next_write {token : GlobToken} (h : ∀ c, token = .literal c → c ≠ '*' ∧ c ≠ '?') (items : List Regex) :
    token.write.foldlM Regex.Reader.next ⟨.nothing, items, []⟩ = some ⟨.nothing, token.regex :: items, []⟩ := by
  cases token with
  | one => rfl
  | run => rfl
  | anything => rfl
  | directories => rfl
  | literal c =>
      obtain ⟨hstar, hquestion⟩ := h c (Eq.refl _)
      show (if c ∈ escaped then ['\\', c] else [c]).foldlM Regex.Reader.next ⟨.nothing, items, []⟩ =
        some ⟨.nothing, .chars (.only c) :: items, []⟩
      by_cases hescaped : c ∈ escaped
      · rw [if_pos hescaped, next_escaped hescaped]
      · rw [if_neg hescaped, next_plain hescaped hstar hquestion]

theorem next_tokens {tokens : List GlobToken} (h : ∀ c, GlobToken.literal c ∈ tokens → c ≠ '*' ∧ c ≠ '?')
    (items : List Regex) :
    (tokens.flatMap GlobToken.write).foldlM Regex.Reader.next ⟨.nothing, items, []⟩ =
      some ⟨.nothing, (tokens.map GlobToken.regex).reverse ++ items, []⟩ := by
  induction tokens generalizing items with
  | nil => rfl
  | cons token tokens ih =>
      have hfirst : ∀ c, token = .literal c → c ≠ '*' ∧ c ≠ '?' := fun c hc => h c (hc ▸ List.mem_cons_self)
      have hrest : ∀ c, GlobToken.literal c ∈ tokens → c ≠ '*' ∧ c ≠ '?' := fun c hc => h c (List.mem_cons_of_mem _ hc)
      rw [List.flatMap_cons, List.foldlM_append, next_write hfirst, Option.bind_eq_bind, Option.bind_some, ih hrest,
        List.map_cons, List.reverse_cons, List.append_assoc, List.singleton_append]

/-- The expression is read as the items of the tokens. -/
theorem read_globToRegex (pattern : List Char) :
    Regex.read (globToRegex pattern) = some (Regex.ofList ((globTokens pattern).map GlobToken.regex)) := by
  rw [globToRegex_eq, Regex.read, List.foldlM_append, next_tokens fun c hc => literal_of_mem hc]
  simp only [List.append_nil]
  show some (Regex.ofList (((globTokens pattern).map GlobToken.regex).reverse).reverse) = _
  rw [List.reverse_reverse]

/-! ### The language -/

/-- A path of directories is empty or ends in a separator. -/
theorem directories_iff {free : Char → Prop} (hslash : free '/') (w : List Char) :
    (∃ names : List (List Char), (∀ name ∈ names, ∀ c ∈ name, c ≠ '/' ∧ free c) ∧ w = names.flatMap (· ++ ['/'])) ↔
      w = [] ∨ ∃ u, (∀ c ∈ u, free c) ∧ w = u ++ ['/'] := by
  constructor
  · intro ⟨names, hnames, hw⟩
    rw [hw]
    clear hw
    induction names with
    | nil => exact Or.inl (Eq.refl _)
    | cons name names ih =>
        have hname : ∀ c ∈ name, free c := fun c hc => (hnames name List.mem_cons_self c hc).2
        rcases ih fun n hn => hnames n (List.mem_cons_of_mem _ hn) with hnil | ⟨u, hu, hrest⟩
        · rw [List.flatMap_cons, hnil, List.append_nil]
          exact Or.inr ⟨name, hname, Eq.refl _⟩
        · rw [List.flatMap_cons, hrest, ← List.append_assoc]
          refine Or.inr ⟨name ++ ['/'] ++ u, ?_, Eq.refl _⟩
          intro c hc
          rcases List.mem_append.mp hc with hfront | hback
          · rcases List.mem_append.mp hfront with hc | hc
            · exact hname c hc
            · rw [List.mem_singleton.mp hc]
              exact hslash
          · exact hu c hback
  · intro h
    rcases h with hnil | ⟨u, hu, hw⟩
    · exact ⟨[], fun _ h => absurd h List.not_mem_nil, hnil⟩
    · rw [hw]
      clear hw
      -- the separators of the text cut it into the names
      induction u with
      | nil =>
          refine ⟨[[]], ?_, Eq.refl _⟩
          intro name hn
          rw [List.mem_singleton.mp hn]
          exact fun _ h => absurd h List.not_mem_nil
      | cons c u ih =>
          obtain ⟨names, hnames, hrest⟩ := ih fun d hd => hu d (List.mem_cons_of_mem c hd)
          rw [List.cons_append, hrest]
          by_cases hc : c = '/'
          · refine ⟨[] :: names, ?_, ?_⟩
            · intro name hn
              rcases List.mem_cons.mp hn with hfirst | hmore
              · rw [hfirst]
                exact fun _ h => absurd h List.not_mem_nil
              · exact hnames name hmore
            · rw [hc, List.flatMap_cons]
              rfl
          · cases names with
            | nil => exact absurd hrest (List.append_ne_nil_of_right_ne_nil _ (List.cons_ne_nil _ _))
            | cons name names =>
                refine ⟨(c :: name) :: names, ?_, ?_⟩
                · intro n hn
                  rcases List.mem_cons.mp hn with hfirst | hmore
                  · rw [hfirst]
                    intro d hd
                    rcases List.mem_cons.mp hd with hdc | hdn
                    · rw [hdc]
                      exact ⟨hc, hu c List.mem_cons_self⟩
                    · exact hnames name List.mem_cons_self d hdn
                  · exact hnames n (List.mem_cons_of_mem _ hmore)
                · rw [List.flatMap_cons, List.flatMap_cons, List.cons_append, List.cons_append]

theorem mem_regex_iff {token : GlobToken} {w : List Char} :
    w ∈ token.regex.language ↔ token.Stands (· ≠ '\n') w := by
  cases token with
  | one =>
      constructor
      · intro ⟨c, hc, hw⟩
        exact ⟨c, bne_iff_ne.mp hc, hw⟩
      · intro ⟨c, hc, hw⟩
        exact ⟨c, bne_iff_ne.mpr hc, hw⟩
  | run =>
      rw [GlobToken.regex, Regex.mem_star_chars, GlobToken.Stands]
      simp only [CharSet.has, bne_iff_ne]
  | anything =>
      rw [GlobToken.regex, Regex.mem_star_chars, GlobToken.Stands]
      simp only [CharSet.has, bne_iff_ne]
  | directories =>
      rw [GlobToken.regex, Regex.mem_opt, GlobToken.Stands, directories_iff (by decide)]
      apply or_congr Iff.rfl
      rw [Regex.mem_ofList_cons]
      simp only [Regex.mem_star_chars, CharSet.has, bne_iff_ne]
      constructor
      · intro ⟨u, hu, v, hv, h⟩
        obtain ⟨last, ⟨c, hc, hlast⟩, v', hv', hv⟩ := Regex.mem_ofList_cons.mp hv
        refine ⟨u, hu, ?_⟩
        rw [← h, ← hv, hlast, beq_iff_eq.mp hc, (Language.mem_one v').mp hv']
        rfl
      · intro ⟨u, hu, h⟩
        refine ⟨u, hu, ['/'], ?_, h.symm⟩
        exact Regex.mem_ofList_cons.mpr ⟨['/'], ⟨'/', beq_self_eq_true '/', Eq.refl _⟩, [], Eq.refl _, Eq.refl _⟩
  | literal c =>
      constructor
      · intro ⟨d, hd, hw⟩
        rw [hw, beq_iff_eq.mp hd]
        exact Eq.refl [c]
      · intro hw
        exact ⟨c, beq_self_eq_true c, hw⟩

theorem mem_regexes_iff {tokens : List GlobToken} {w : List Char} :
    w ∈ (Regex.ofList (tokens.map GlobToken.regex)).language ↔ TokensStand (· ≠ '\n') tokens w := by
  induction tokens generalizing w with
  | nil => exact Language.mem_one w
  | cons token tokens ih =>
      rw [List.map_cons, Regex.mem_ofList_cons, TokensStand]
      simp only [mem_regex_iff, ih]
      constructor
      · intro ⟨u, hu, v, hv, h⟩
        exact ⟨u, v, hu, hv, h⟩
      · intro ⟨u, v, hu, hv, h⟩
        exact ⟨u, hu, v, hv, h⟩

/-- The compiled glob matches the paths of the language that need no newline under a double star. -/
theorem globMatches_iff (pattern path : List Char) : globMatches pattern path = true ↔ InGlobLines pattern path := by
  rw [globMatches, read_globToRegex]
  exact Regex.accepts_iff.trans mem_regexes_iff

theorem GlobToken.Stands.mono {free free' : Char → Prop} {token : GlobToken} {w : List Char}
    (hfree : ∀ c ∈ w, free c → free' c) (h : token.Stands free w) : token.Stands free' w := by
  cases token with
  | one => exact h
  | run => exact h
  | anything => exact fun c hc => hfree c hc (h c hc)
  | directories =>
      obtain ⟨names, hnames, hw⟩ := h
      refine ⟨names, fun name hn c hc => ?_, hw⟩
      have hmem : c ∈ w := by
        rw [hw]
        exact List.mem_flatMap.mpr ⟨name, hn, List.mem_append_left _ hc⟩
      exact ⟨(hnames name hn c hc).1, hfree c hmem (hnames name hn c hc).2⟩
  | literal c => exact h

theorem TokensStand.mono {free free' : Char → Prop} {tokens : List GlobToken} {w : List Char}
    (hfree : ∀ c ∈ w, free c → free' c) (h : TokensStand free tokens w) : TokensStand free' tokens w := by
  induction tokens generalizing w with
  | nil => exact h
  | cons token tokens ih =>
      obtain ⟨u, v, hu, hv, hw⟩ := h
      have hleft : ∀ c ∈ u, free c → free' c := fun c hc => hfree c (hw ▸ List.mem_append_left v hc)
      have hright : ∀ c ∈ v, free c → free' c := fun c hc => hfree c (hw ▸ List.mem_append_right u hc)
      exact ⟨u, v, hu.mono hleft, ih hright hv, hw⟩

theorem inGlob_of_lines {pattern path : List Char} (h : InGlobLines pattern path) : InGlob pattern path :=
  h.mono fun _ _ _ => trivial

/-- A path on one line is matched as documented. -/
theorem globMatches_of_line {pattern path : List Char} (h : '\n' ∉ path) :
    globMatches pattern path = true ↔ InGlob pattern path := by
  rw [globMatches_iff]
  constructor
  · exact inGlob_of_lines
  · intro hin
    apply TokensStand.mono ?_ hin
    intro c hc _ hnewline
    exact h (hnewline ▸ hc)

/-- The compiled glob has its documented meaning for a path exactly when the path is outside the language, or in it
with no newline under a double star. -/
theorem glob_exact_iff (pattern path : List Char) :
    (globMatches pattern path = true ↔ InGlob pattern path) ↔ (InGlob pattern path → InGlobLines pattern path) := by
  rw [globMatches_iff]
  constructor
  · exact Iff.mpr
  · intro h
    exact ⟨inGlob_of_lines, h⟩

/-- `**` does not match a name with a newline in it. -/
theorem not_exact_newline : ¬∀ pattern path, globMatches pattern path = true ↔ InGlob pattern path := by
  intro h
  have hin : InGlob "**".toList "a\nb".toList :=
    ⟨"a\nb".toList, [], fun _ _ => trivial, Eq.refl _, Eq.refl _⟩
  exact absurd ((h _ _).mpr hin) (by decide)

example : globMatches "**/*.md".toList "notes/a.b/c.md".toList = true := by decide

end TinyCortex.Sources
