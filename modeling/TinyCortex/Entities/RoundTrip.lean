import TinyCortex.Entities.Frontmatter

/-! What reading an entity file gives back: the entity itself exactly when none of its texts holds a newline, no text
that is written without quotes has blanks at its ends, and the id is not in double quotes. -/

namespace TinyCortex.Entities

open Lines FrontMatter

/-! ### Scalars -/

theorem newline_not_mem_yamlString {s : List Char} (h : '\n' ∉ s) : '\n' ∉ yamlString s := by
  have hmark : ∀ a b : Char, '\n' ≠ a → '\n' ≠ b → ∀ t : List Char, '\n' ∉ t →
      '\n' ∉ t.flatMap fun c => if c = a then [b, a] else [c] := by
    intro a b ha hb t ht hmem
    obtain ⟨c, hc, hin⟩ := List.mem_flatMap.mp hmem
    split_ifs at hin with hca
    · rcases List.mem_pair.mp hin with heq | heq
      · exact hb heq
      · exact ha heq
    · rw [List.mem_singleton] at hin
      exact ht (hin ▸ hc)
  unfold yamlString
  split_ifs
  · have hescape : '\n' ∉ escape s := hmark '"' '\\' (by decide) (by decide) _ (hmark '\\' '\\' (by decide) (by decide) s h)
    simp [hescape]
  · exact h

theorem needsQuote_false {s : List Char} {c : Char} (h : needsQuote s = false)
    (hc : [':', '#', '\n', '"', '\'', '[', ']', '{', '}'].contains c) : c ∉ s := by
  intro hmem
  have hneeds : needsQuote s = true := List.any_eq_true.mpr ⟨c, hmem, hc⟩
  rw [h] at hneeds
  cases hneeds

/-- The first pass over an escaped text puts the quotes back. -/
theorem replacePair_quotes (s : List Char) :
    replacePair '\\' '"' '"' (escape s) = s.flatMap fun c => if c = '\\' then ['\\', '\\'] else [c] := by
  unfold escape
  induction s with
  | nil => rfl
  | cons c s ih =>
      rw [List.flatMap_cons, List.flatMap_append]
      have hnext : ∀ t : List Char, ((t.flatMap fun c => if c = '\\' then ['\\', '\\'] else [c]).flatMap
          fun c => if c = '"' then ['\\', '"'] else [c]).head? ≠ some '"' := by
        intro t
        cases t with
        | nil => simp
        | cons d t =>
            by_cases hd : d = '\\'
            · subst hd
              simp
            · by_cases hq : d = '"'
              · subst hq
                simp
              · simp [hd, hq]
      by_cases hc : c = '\\'
      · subst hc
        have hhead := hnext s
        generalize ((s.flatMap fun c => if c = '\\' then ['\\', '\\'] else [c]).flatMap
          fun c => if c = '"' then ['\\', '"'] else [c]) = t at ih hhead ⊢
        cases t with
        | nil => simpa [replacePair] using ih
        | cons d t =>
            have hd : d ≠ '"' := fun heq => hhead (by rw [heq]; rfl)
            simp only [List.flatMap_cons, if_pos, List.flatMap_nil, List.append_nil, List.cons_append,
              List.nil_append]
            simp [replacePair, hd, ih]
      · by_cases hq : c = '"'
        · subst hq
          simp [replacePair, ih]
        · simp only [if_neg hc, List.flatMap_cons, if_neg hq, List.flatMap_nil, List.append_nil,
            List.singleton_append]
          generalize ((s.flatMap fun c => if c = '\\' then ['\\', '\\'] else [c]).flatMap
            fun c => if c = '"' then ['\\', '"'] else [c]) = t at ih ⊢
          cases t with
          | nil =>
              rw [← ih]
              rfl
          | cons d t => rw [replacePair, if_neg (fun h => hc h.1), ih]

/-- The second pass puts the backslashes back. -/
theorem replacePair_backslashes (s : List Char) :
    replacePair '\\' '\\' '\\' (s.flatMap fun c => if c = '\\' then ['\\', '\\'] else [c]) = s := by
  induction s with
  | nil => rfl
  | cons c s ih =>
      rw [List.flatMap_cons]
      by_cases hc : c = '\\'
      · subst hc
        rw [if_pos rfl, List.cons_append, List.singleton_append, replacePair, if_pos ⟨rfl, rfl⟩, ih]
      · rw [if_neg hc, List.singleton_append]
        generalize (s.flatMap fun c => if c = '\\' then ['\\', '\\'] else [c]) = t at ih ⊢
        cases t with
        | nil =>
            rw [← ih]
            rfl
        | cons d t => rw [replacePair, if_neg (fun h => hc h.1), ih]

theorem unescape_escape (s : List Char) : unescape (escape s) = s := by
  rw [unescape, replacePair_quotes, replacePair_backslashes]

theorem between_quoted (s : List Char) : between ('"' :: s ++ ['"']) = some s := by
  have hpre : ('"' :: s ++ ['"']).dropPrefix? ['"'] = some (s ++ ['"']) := dropPrefix?_append ['"'] (s ++ ['"'])
  rw [between, hpre, Option.bind_some, dropSuffix?_append]

theorem between_eq_some {s inner : List Char} (h : between s = some inner) : s = '"' :: inner ++ ['"'] := by
  obtain ⟨mid, hpre, hsuf⟩ := Option.bind_eq_some_iff.mp h
  obtain ⟨q, rfl, hq⟩ := List.dropPrefix?_eq_some_iff.mp hpre
  obtain ⟨q', rfl, hq'⟩ := List.dropSuffix?_eq_some_iff.mp hsuf
  rw [eq_of_beq hq, eq_of_beq hq']
  rfl

theorem unquote_of_no_quote {s : List Char} (h : '"' ∉ s) : unquote s = s := by
  have hnone : between s = none := by
    cases hb : between s with
    | none => rfl
    | some inner =>
        rw [between_eq_some hb] at h
        exact absurd List.mem_cons_self h
  rw [unquote, hnone]
  rfl

theorem length_replacePair_le (a b r : Char) (s : List Char) : (replacePair a b r s).length ≤ s.length := by
  induction s using replacePair.induct a b with
  | case1 => exact le_rfl
  | case2 c => exact le_rfl
  | case3 c d rest h ih =>
      rw [replacePair, if_pos h, List.length_cons, List.length_cons, List.length_cons]
      omega
  | case4 c d rest h ih =>
      rw [replacePair, if_neg h, List.length_cons, List.length_cons]
      omega

theorem length_unescape_le (s : List Char) : (unescape s).length ≤ s.length :=
  (length_replacePair_le _ _ _ _).trans (length_replacePair_le _ _ _ _)

/-- A text in double quotes gets shorter, and any other one stays. -/
theorem unquote_eq_self_iff {s : List Char} : unquote s = s ↔ between s = none := by
  unfold unquote
  cases hb : between s with
  | none => simp
  | some inner =>
      refine iff_of_false (fun heq => ?_) (by simp)
      have hlen := congrArg List.length heq
      rw [Option.map_some, Option.getD_some] at hlen
      have hle := length_unescape_le inner
      have hs := congrArg List.length (between_eq_some hb)
      rw [List.length_append, List.length_cons, List.length_singleton] at hs
      omega

theorem unquote_length_le (s : List Char) : (unquote s).length ≤ s.length := by
  unfold unquote
  cases hb : between s with
  | none => exact le_rfl
  | some inner =>
      have hs := congrArg List.length (between_eq_some hb)
      rw [List.length_append, List.length_cons, List.length_singleton] at hs
      have hle := length_unescape_le inner
      rw [Option.map_some, Option.getD_some]
      omega

/-- An id comes back exactly when it has no blanks at its ends and is not in double quotes. -/
theorem unquote_trim_eq_iff {s : List Char} : unquote (trim s) = s ↔ trim s = s ∧ between s = none := by
  constructor
  · intro h
    have hlen : s.length ≤ (trim s).length := (congrArg List.length h).ge.trans (unquote_length_le _)
    have htrim : trim s = s := (trim_sublist s).eq_of_length_le hlen
    rw [htrim] at h
    exact ⟨htrim, unquote_eq_self_iff.mp h⟩
  · rintro ⟨htrim, hb⟩
    rw [htrim, unquote_eq_self_iff.mpr hb]

/-- What a scalar reads back as. -/
def readBack (s : String) : String := String.ofList (unquote (trim (yamlString s.toList)))

/-- A scalar comes back exactly when it is quoted or has no blanks at its ends. -/
theorem readBack_eq_iff {s : String} : readBack s = s ↔ needsQuote s.toList ∨ trim s.toList = s.toList := by
  have hstr : readBack s = s ↔ unquote (trim (yamlString s.toList)) = s.toList := by
    rw [readBack]
    constructor
    · intro h
      have hl := congrArg String.toList h
      rwa [String.toList_ofList] at hl
    · intro h
      rw [h, String.ofList_toList]
  rw [hstr, yamlString]
  cases hq : needsQuote s.toList with
  | true =>
      refine iff_of_true ?_ (Or.inl rfl)
      rw [if_pos rfl]
      have htrim : trim ('"' :: escape s.toList ++ ['"']) = '"' :: escape s.toList ++ ['"'] := by
        refine trim_of_ends (fun c hc => ?_) (fun c hc => ?_)
        · obtain rfl := Option.some.inj hc
          decide
        · rw [List.getLast?_concat] at hc
          obtain rfl := Option.some.inj hc
          decide
      rw [htrim, unquote, between_quoted, Option.map_some, Option.getD_some, unescape_escape]
  | false =>
      rw [if_neg Bool.false_ne_true, unquote_trim_eq_iff]
      have hb : between s.toList = none := by
        cases hb : between s.toList with
        | none => rfl
        | some inner =>
            have hmem : '"' ∉ s.toList := needsQuote_false hq (by decide)
            rw [between_eq_some hb] at hmem
            exact absurd List.mem_cons_self hmem
      simp [hb]

/-! ### One line -/

theorem yamlString_shape (s : String) : (yamlString s.toList).head? = some '"' ∨ ':' ∉ yamlString s.toList := by
  unfold yamlString
  cases hq : needsQuote s.toList with
  | true => exact Or.inl rfl
  | false =>
      rw [if_neg Bool.false_ne_true]
      exact Or.inr (needsQuote_false hq (by decide))

/-- Text behind a label on a line, without a carriage return at its end. -/
theorem stripReturn_label {label : List Char} (hlabel : label.getLast? = some ' ') (v : List Char) :
    stripReturn (label ++ v) = label ++ stripReturn v := by
  by_cases hv : v = []
  · rw [hv, List.append_nil, stripReturn_of_last (by rw [hlabel]; decide)]
    exact (List.append_nil label).symm
  · exact stripReturn_append hv

theorem mem_of_mem_stripReturn {v : List Char} {c : Char} (h : c ∈ stripReturn v) : c ∈ v := by
  unfold stripReturn at h
  split_ifs at h
  · exact List.dropLast_subset _ h
  · exact h

/-- A written scalar does not look like the start of a key. -/
theorem not_prefix_stripReturn {key : List Char} (hcolon : ':' ∈ key) (hquote : key.head? ≠ some '"') (s : String) :
    ¬key <+: stripReturn (yamlString s.toList) := by
  rintro ⟨rest, hrest⟩
  rcases yamlString_shape s with hhead | hcol
  · have hstrip : stripReturn (yamlString s.toList) <+: yamlString s.toList := by
      unfold stripReturn
      split_ifs
      · exact List.dropLast_prefix _
      · exact List.prefix_rfl
    obtain ⟨more, hmore⟩ := hstrip
    rw [← hrest] at hmore
    rw [← hmore] at hhead
    cases key with
    | nil => exact absurd hcolon List.not_mem_nil
    | cons c key => exact hquote hhead
  · exact hcol (mem_of_mem_stripReturn (hrest ▸ List.mem_append_left _ hcolon))

theorem trimStartMatches_label {label rest : List Char} {fuel : Nat} (hfuel : 0 < fuel) (h : ¬label <+: rest) :
    trimStartMatches label fuel (label ++ rest) = rest := by
  obtain ⟨fuel, rfl⟩ := Nat.exists_eq_succ_of_ne_zero hfuel.ne'
  rw [trimStartMatches, dropPrefix?_append]
  dsimp only
  cases fuel with
  | zero => rfl
  | succ fuel => rw [trimStartMatches, dropPrefix?_eq_none h]

section Lines

variable {τ : Type} (chrono : Chrono τ) (st : ParseState τ)

/-- Leave a list: push the handle in progress. -/
def ParseState.leave (st : ParseState τ) : ParseState τ := { st.flush with currentList := none }

/-- A line with a key and a value. -/
theorem parseLine_field {key : String} (hcolon : ':' ∉ key.toList) (hhead : key.toList.head? ≠ some ' ')
    (hne : key.toList ≠ []) (htrim : trim key.toList = key.toList) (v : List Char) :
    parseLine chrono st (key.toList ++ ':' :: v) = parseField chrono st.leave key (trim v) := by
  obtain ⟨c, rest, hkey⟩ := List.exists_cons_of_ne_nil hne
  have hc : c ≠ ' ' := by
    rintro rfl
    exact hhead (by rw [hkey]; rfl)
  have hnone : ∀ label : List Char, label.head? = some ' ' → ¬label <+: key.toList ++ ':' :: v := by
    rintro label hlabel ⟨more, hmore⟩
    rw [hkey] at hmore
    cases label with
    | nil => cases hlabel
    | cons d label =>
        obtain rfl := Option.some.inj hlabel
        exact hc (List.cons.inj hmore).1.symm
  have hraw : (key.toList ++ ':' :: v).head? ≠ some ' ' := by
    rw [hkey]
    exact fun h => hc (Option.some.inj h)
  unfold parseLine
  rw [if_neg (hnone _ rfl), if_neg (hnone _ rfl), dropPrefix?_eq_none (hnone _ rfl)]
  dsimp only
  rw [if_pos hraw, dropInfix?_sep hcolon]
  dsimp only
  rw [htrim, String.ofList_toList]
  rfl

/-- An item of the list in progress. -/
theorem parseLine_item (s : String) : parseLine chrono st (stripReturn (item s)) =
    match st.currentList with
    | some .aliases => { st with aliases := st.aliases ++ [readBack s] }
    | some .emails => { st with emails := st.emails ++ [readBack s] }
    | _ => st := by
  have hitem : stripReturn (item s) = "  - ".toList ++ stripReturn (yamlString s.toList) :=
    stripReturn_label rfl _
  have hkind : ¬"  - kind:".toList <+: "  - ".toList ++ stripReturn (yamlString s.toList) := by
    intro h
    have hlabel : "  - kind:".toList = "  - ".toList ++ "kind:".toList := by decide
    rw [hlabel, List.prefix_append_right_inj] at h
    exact not_prefix_stripReturn (by decide) (by decide) s h
  have hvalue : ¬"    value:".toList <+: "  - ".toList ++ stripReturn (yamlString s.toList) := by
    rintro ⟨more, hmore⟩
    have hthird := congrArg (fun l => l[2]?) hmore
    revert hthird
    simp
  unfold parseLine
  rw [hitem, if_neg hkind, if_neg hvalue, dropPrefix?_append]
  dsimp only
  rw [trim_stripReturn]
  rfl

theorem parseLine_handleKind (s : String) :
    parseLine chrono st (stripReturn ("  - kind: ".toList ++ yamlString s.toList)) =
      { st.flush with handleBuf := some ⟨readBack s, ""⟩, currentList := some .handles } := by
  have hline : stripReturn ("  - kind: ".toList ++ yamlString s.toList) =
      "  - kind:".toList ++ ' ' :: stripReturn (yamlString s.toList) := stripReturn_label rfl _
  have hrest : ¬"  - kind:".toList <+: ' ' :: stripReturn (yamlString s.toList) := by
    intro h
    have hlabel : "  - kind:".toList = ' ' :: " - kind:".toList := by decide
    rw [hlabel, List.cons_prefix_cons] at h
    exact not_prefix_stripReturn (by decide) (by decide) s h.2
  unfold parseLine
  rw [hline, if_pos (List.prefix_append _ _), trimStartMatches_label (by simp) hrest]
  dsimp only
  rw [trim_cons_space (by decide), trim_stripReturn]
  rfl

theorem parseLine_handleValue (s : String) :
    parseLine chrono st (stripReturn ("    value: ".toList ++ yamlString s.toList)) =
      { st with handleBuf := st.handleBuf.map fun h => { h with value := readBack s } } := by
  have hline : stripReturn ("    value: ".toList ++ yamlString s.toList) =
      "    value:".toList ++ ' ' :: stripReturn (yamlString s.toList) := stripReturn_label rfl _
  have hkind : ¬"  - kind:".toList <+: "    value:".toList ++ ' ' :: stripReturn (yamlString s.toList) := by
    rintro ⟨more, hmore⟩
    have hthird := congrArg (fun l => l[2]?) hmore
    revert hthird
    simp
  have hrest : ¬"    value:".toList <+: ' ' :: stripReturn (yamlString s.toList) := by
    intro h
    have hlabel : "    value:".toList = ' ' :: "   value:".toList := by decide
    rw [hlabel, List.cons_prefix_cons] at h
    exact not_prefix_stripReturn (by decide) (by decide) s h.2
  unfold parseLine
  rw [hline, if_neg hkind, if_pos (List.prefix_append _ _), trimStartMatches_label (by simp) hrest]
  dsimp only
  rw [trim_cons_space (by decide), trim_stripReturn]
  rfl

/-- A key with its value behind a blank. -/
theorem parseLine_labelled (key : String) (hcolon : ':' ∉ key.toList) (hhead : key.toList.head? ≠ some ' ')
    (hne : key.toList ≠ []) (htrim : trim key.toList = key.toList) (v : List Char) :
    parseLine chrono st (stripReturn (key.toList ++ ':' :: ' ' :: v)) = parseField chrono st.leave key (trim v) := by
  have hlabel : key.toList ++ ':' :: ' ' :: v = (key.toList ++ [':', ' ']) ++ v := by simp
  have hlast : (key.toList ++ [':', ' ']).getLast? = some ' ' := by
    rw [List.getLast?_append_of_ne_nil _ (List.cons_ne_nil _ _)]
    rfl
  have hline : stripReturn (key.toList ++ ':' :: ' ' :: v) = key.toList ++ ':' :: ' ' :: stripReturn v := by
    rw [hlabel, stripReturn_label hlast]
    simp
  rw [hline, parseLine_field chrono st hcolon hhead hne htrim, trim_cons_space (by decide), trim_stripReturn]

/-- A key that opens a list. -/
theorem parseLine_header (key : String) (hcolon : ':' ∉ key.toList) (hhead : key.toList.head? ≠ some ' ')
    (hne : key.toList ≠ []) (htrim : trim key.toList = key.toList) :
    parseLine chrono st (stripReturn (key.toList ++ [':'])) = parseField chrono st.leave key [] := by
  have hlast : (key.toList ++ [':']).getLast? ≠ some '\r' := by
    rw [List.getLast?_concat]
    decide
  rw [stripReturn_of_last hlast, parseLine_field chrono st hcolon hhead hne htrim]
  rfl

end Lines

/-! ### The header -/

section Header

variable {τ : Type} (chrono : Chrono τ) (st : ParseState τ)

/-- The loop over lines as they are written. -/
def readLines (ls : List (List Char)) : ParseState τ := (ls.map stripReturn).foldl (parseLine chrono) st

theorem readLines_append (ls more : List (List Char)) :
    readLines chrono st (ls ++ more) = readLines chrono (readLines chrono st ls) more := by
  rw [readLines, List.map_append, List.foldl_append]
  rfl

theorem readLines_cons (line : List Char) (ls : List (List Char)) :
    readLines chrono st (line :: ls) = readLines chrono (parseLine chrono st (stripReturn line)) ls := rfl

@[simp] theorem leave_leave : st.leave.leave = st.leave := by simp [ParseState.leave, ParseState.flush]

/-- The items of a list that collects them. -/
theorem readLines_aliases (items : List String) (h : st.currentList = some .aliases) :
    readLines chrono st (items.map item) = { st with aliases := st.aliases ++ items.map readBack } := by
  induction items generalizing st with
  | nil => simp [readLines]
  | cons s items ih =>
      rw [List.map_cons, readLines_cons, parseLine_item, h]
      dsimp only
      rw [ih _ rfl, List.append_assoc]
      rfl

theorem readLines_emails (items : List String) (h : st.currentList = some .emails) :
    readLines chrono st (items.map item) = { st with emails := st.emails ++ items.map readBack } := by
  induction items generalizing st with
  | nil => simp [readLines]
  | cons s items ih =>
      rw [List.map_cons, readLines_cons, parseLine_item, h]
      dsimp only
      rw [ih _ rfl, List.append_assoc]
      rfl

def readHandle (h : EntityHandle) : EntityHandle := ⟨readBack h.kind, readBack h.value⟩

theorem readLines_handle (h : EntityHandle) : readLines chrono st (handleLines h) =
    { st.flush with handleBuf := some (readHandle h), currentList := some .handles } := by
  rw [handleLines, readLines_cons, parseLine_handleKind, readLines_cons, parseLine_handleValue]
  rfl

/-- Every handle is pushed once its successor, or what follows the list, is seen. -/
theorem readLines_handles (handles : List EntityHandle) : (readLines chrono st (handles.flatMap handleLines)).leave =
    { st.leave with handles := st.leave.handles ++ handles.map readHandle } := by
  induction handles generalizing st with
  | nil => simp [readLines, ParseState.leave]
  | cons h handles ih =>
      rw [List.flatMap_cons, readLines_append, readLines_handle, ih]
      simp [ParseState.leave, ParseState.flush]

theorem readLines_id (id : String) : (readLines chrono st ["id: ".toList ++ id.toList]).leave =
    { st.leave with id := String.ofList (unquote (trim id.toList)) } := by
  have hline := parseLine_labelled chrono st "id" (by decide) (by decide) (by decide) (by decide) id.toList
  rw [readLines_cons, show "id: ".toList ++ id.toList = "id".toList ++ ':' :: ' ' :: id.toList from rfl, hline]
  simp [readLines, parseField, ParseState.leave, ParseState.flush]

theorem parse_asStr (kind : EntityKind) :
    EntityKind.parse (String.ofList (unquote (trim kind.asStr.toList))) = some kind := by
  cases kind <;> decide +kernel

theorem readLines_kind (kind : EntityKind) : (readLines chrono st ["kind: ".toList ++ kind.asStr.toList]).leave =
    { st.leave with kind := some kind } := by
  have hline := parseLine_labelled chrono st "kind" (by decide) (by decide) (by decide) (by decide)
    kind.asStr.toList
  rw [readLines_cons, show "kind: ".toList ++ kind.asStr.toList = "kind".toList ++ ':' :: ' ' :: kind.asStr.toList
    from rfl, hline, parseField, parse_asStr]
  simp [readLines, ParseState.leave, ParseState.flush]

theorem readLines_displayName (name : Option String) :
    (readLines chrono st (name.toList.map fun name => "display_name: ".toList ++ yamlString name.toList)).leave =
      { st.leave with displayName := (name.map readBack).or st.leave.displayName } := by
  cases name with
  | none => simp [readLines, ParseState.leave, ParseState.flush]
  | some name =>
      have hline := parseLine_labelled chrono st "display_name" (by decide) (by decide) (by decide) (by decide)
        (yamlString name.toList)
      rw [Option.toList_some, List.map_singleton, readLines_cons,
        show "display_name: ".toList ++ yamlString name.toList =
          "display_name".toList ++ ':' :: ' ' :: yamlString name.toList from rfl, hline]
      simp [readLines, parseField, readBack, ParseState.leave, ParseState.flush]

theorem readLines_aliasList (items : List String) : (readLines chrono st (listLines "aliases:" items)).leave =
    { st.leave with aliases := st.leave.aliases ++ items.map readBack } := by
  unfold listLines
  split_ifs with hnil
  · rw [hnil]
    simp [readLines, ParseState.leave, ParseState.flush]
  · have hline := parseLine_header chrono st "aliases" (by decide) (by decide) (by decide) (by decide)
    rw [readLines_cons, show "aliases:".toList = "aliases".toList ++ [':'] from rfl, hline, parseField,
      readLines_aliases _ _ _ rfl]
    simp [ParseState.leave, ParseState.flush]

theorem readLines_emailList (items : List String) : (readLines chrono st (listLines "emails:" items)).leave =
    { st.leave with emails := st.leave.emails ++ items.map readBack } := by
  unfold listLines
  split_ifs with hnil
  · rw [hnil]
    simp [readLines, ParseState.leave, ParseState.flush]
  · have hline := parseLine_header chrono st "emails" (by decide) (by decide) (by decide) (by decide)
    rw [readLines_cons, show "emails:".toList = "emails".toList ++ [':'] from rfl, hline, parseField,
      readLines_emails _ _ _ rfl]
    simp [ParseState.leave, ParseState.flush]

theorem readLines_handleList (handles : List EntityHandle) :
    (readLines chrono st (if handles = [] then [] else "handles:".toList :: handles.flatMap handleLines)).leave =
      { st.leave with handles := st.leave.handles ++ handles.map readHandle } := by
  split_ifs with hnil
  · rw [hnil]
    simp [readLines, ParseState.leave]
  · have hline := parseLine_header chrono st "handles" (by decide) (by decide) (by decide) (by decide)
    rw [readLines_cons, show "handles:".toList = "handles".toList ++ [':'] from rfl, hline, parseField,
      readLines_handles]
    simp [ParseState.leave, ParseState.flush]

theorem unquote_trim_rfc (t : τ) : unquote (trim (chrono.toRfc3339 t)) = chrono.toRfc3339 t := by
  have htrim : trim (chrono.toRfc3339 t) = chrono.toRfc3339 t := by
    refine trim_of_ends (fun c hc => ((chrono.plain t).2 c ?_).1) (fun c hc => ((chrono.plain t).2 c ?_).1)
    · exact List.mem_of_head? hc
    · exact List.mem_of_getLast? hc
  rw [htrim, unquote_of_no_quote fun hmem => ((chrono.plain t).2 _ hmem).2 rfl]

theorem readLines_times (created updated : τ) :
    (readLines chrono st ["created_at: ".toList ++ chrono.toRfc3339 created,
      "updated_at: ".toList ++ chrono.toRfc3339 updated]).leave =
      { st.leave with
        createdAt := chrono.parseFromRfc3339 (chrono.toRfc3339 created)
        updatedAt := chrono.parseFromRfc3339 (chrono.toRfc3339 updated) } := by
  have hcreated := parseLine_labelled chrono st "created_at" (by decide) (by decide) (by decide) (by decide)
    (chrono.toRfc3339 created)
  have hupdated := fun st : ParseState τ => parseLine_labelled chrono st "updated_at" (by decide) (by decide)
    (by decide) (by decide) (chrono.toRfc3339 updated)
  rw [readLines_cons, readLines_cons,
    show "created_at: ".toList ++ chrono.toRfc3339 created =
      "created_at".toList ++ ':' :: ' ' :: chrono.toRfc3339 created from rfl,
    show "updated_at: ".toList ++ chrono.toRfc3339 updated =
      "updated_at".toList ++ ':' :: ' ' :: chrono.toRfc3339 updated from rfl, hcreated, hupdated]
  simp only [parseField, unquote_trim_rfc]
  simp [readLines, ParseState.leave, ParseState.flush]

/-- What the whole header reads back as. -/
theorem readLines_header (e : Entity τ) : (readLines chrono (ParseState.start τ) (headerLines chrono e)).leave =
    ⟨String.ofList (unquote (trim e.id.toList)), some e.kind, e.displayName.map readBack, e.aliases.map readBack,
      e.emails.map readBack, e.handles.map readHandle,
      chrono.parseFromRfc3339 (chrono.toRfc3339 e.createdAt), chrono.parseFromRfc3339 (chrono.toRfc3339 e.updatedAt),
      none, none⟩ := by
  have hpair : ∀ a b : List Char, [a, b] = [a] ++ [b] := fun _ _ => rfl
  rw [headerLines, readLines_append, readLines_times, readLines_append, readLines_handleList, readLines_append,
    readLines_emailList, readLines_append, readLines_aliasList, readLines_append, readLines_displayName,
    hpair, readLines_append, readLines_kind, readLines_id]
  simp [ParseState.leave, ParseState.flush, ParseState.start]

end Header

end TinyCortex.Entities
