import TinyCortex.Content.Paths
import TinyCortex.Lib.FrontMatter

/-! Scalars and front matter of content files (`store/content/compose/yaml.rs`). -/

namespace TinyCortex.Content

open Lines FrontMatter

def sourceTag (scope : String) : String := "source/" ++ slugifySourceId scope

def withSourceTag (scope : String) (tags : List String) : List String :=
  sourceTag scope :: tags.filter fun t => t ≠ sourceTag scope

/-! ### Scalars -/

def needsQuoting (s : List Char) : Bool :=
  s.isEmpty || trim s ≠ s || s.any Text.isControl ||
    (s.head?.any fun c => ['&', '*', '?', '|', '-', '<', '>', '=', '!', '%', '@', '\x60'].contains c) ||
    s.any fun c => [':', '#', '[', ']', '\x7b', '\x7d', '"', '\''].contains c

def escapeChar (c : Char) : List Char :=
  match c with
  | '\\' => ['\\', '\\']
  | '"' => ['\\', '"']
  | '\n' => ['\\', 'n']
  | '\r' => ['\\', 'r']
  | '\t' => ['\\', 't']
  | c => [c]

def yamlScalar (s : List Char) : List Char :=
  if needsQuoting s then '"' :: s.flatMap escapeChar ++ ['"'] else s

/-- An escape that is none of `yaml_scalar` stands for itself. -/
def unescapeChar (c : Char) : List Char :=
  match c with
  | '\\' => ['\\']
  | '"' => ['"']
  | 'n' => ['\n']
  | 'r' => ['\r']
  | 't' => ['\t']
  | other => ['\\', other]

def unescapeDoubleQuoted : List Char → List Char
  | [] => []
  | [c] => [c]
  | c :: d :: rest =>
      if c = '\\' then unescapeChar d ++ unescapeDoubleQuoted rest else c :: unescapeDoubleQuoted (d :: rest)

/-- The value of a scalar as it stands behind its key. -/
def readScalar (rest : List Char) : List Char :=
  match ((trim rest).dropPrefix? ['"']).bind fun inner => inner.dropSuffix? ['"'] with
  | some inner => unescapeDoubleQuoted inner
  | none => trim rest

/-! ### Front matter -/

def scanLine (key raw : List Char) : Option (List Char) :=
  if raw.head? = some ' ' ∨ raw.head? = some '\t' then none
  else (raw.dropPrefix? (key ++ [':', ' '])).map readScalar

def scanFmField (fm key : List Char) : Option (List Char) := (lines fm).findSome? (scanLine key)

def fence : List Char := ['-', '-', '-']

/-- The front matter keeps its fences; one that ends the file has no body. -/
def splitFrontMatter (content : List Char) : Option (List Char × List Char) :=
  (content.dropPrefix? (fence ++ ['\n'])).bind fun rest =>
    match rest.dropInfix? ('\n' :: (fence ++ ['\n'])) with
    | some (yaml, body) => some (fence ++ ['\n'] ++ yaml ++ ('\n' :: (fence ++ ['\n'])), body)
    | none => (rest.dropSuffix? ('\n' :: fence)).map fun yaml => (fence ++ ['\n'] ++ yaml ++ '\n' :: fence, [])

/-! ### The round trip of a scalar -/

theorem unescape_cons {c : Char} (hc : c ≠ '\\') (rest : List Char) :
    unescapeDoubleQuoted (c :: rest) = c :: unescapeDoubleQuoted rest := by
  cases rest with
  | nil => rfl
  | cons d rest => rw [unescapeDoubleQuoted, if_neg hc]

theorem unescape_escaped (d : Char) (rest : List Char) :
    unescapeDoubleQuoted ('\\' :: d :: rest) = unescapeChar d ++ unescapeDoubleQuoted rest := by
  rw [unescapeDoubleQuoted, if_pos rfl]

theorem unescape_escapeChar (c : Char) (rest : List Char) :
    unescapeDoubleQuoted (escapeChar c ++ rest) = c :: unescapeDoubleQuoted rest := by
  unfold escapeChar
  split
  case h_6 hslash _ _ _ _ => rw [List.singleton_append, unescape_cons hslash]
  all_goals
    rw [List.cons_append, List.singleton_append, unescape_escaped]
    rfl

theorem unescape_flatMap (s : List Char) : unescapeDoubleQuoted (s.flatMap escapeChar) = s := by
  induction s with
  | nil => rfl
  | cons c s ih => rw [List.flatMap_cons, unescape_escapeChar, ih]

theorem newline_not_mem_escape (c : Char) : ∀ d ∈ escapeChar c, d ≠ '\n' := by
  unfold escapeChar
  split
  case h_6 _ _ hn _ _ =>
    intro d hd
    rw [List.mem_singleton.mp hd]
    exact hn
  all_goals decide

/-- A text that stands behind a key on a line of its own. -/
structure Clean (text : List Char) : Prop where
  newline : '\n' ∉ text
  last : text.getLast? ≠ some '\r'

theorem Clean.append {text more : List Char} (h : Clean text) (hmore : Clean more) : Clean (text ++ more) := by
  refine ⟨fun hmem => (List.mem_append.mp hmem).elim h.newline hmore.newline, ?_⟩
  have hlast := hmore.last
  rw [List.getLast?_append]
  cases hmore' : more.getLast? with
  | none => exact h.last
  | some c =>
      rw [hmore'] at hlast
      exact hlast

theorem isControl_of_not_needsQuoting {s : List Char} (h : ¬needsQuoting s) :
    trim s = s ∧ (∀ c ∈ s, Text.isControl c = false) ∧ '"' ∉ s := by
  simp only [needsQuoting, Bool.or_eq_true, not_or, decide_eq_true_eq, not_not, List.any_eq_true, not_exists,
    not_and] at h
  obtain ⟨⟨⟨⟨-, htrim⟩, hcontrol⟩, -⟩, hspecial⟩ := h
  exact ⟨htrim, fun c hc => Bool.eq_false_iff.mpr (hcontrol c hc), fun hmem => hspecial '"' hmem (by decide)⟩

theorem clean_yamlScalar (s : List Char) : Clean (yamlScalar s) := by
  unfold yamlScalar
  split_ifs with hquote
  · refine ⟨fun hmem => ?_, ?_⟩
    · rcases List.mem_append.mp hmem with hbody | hend
      · rcases List.mem_cons.mp hbody with heq | hbody
        · exact absurd heq (by decide)
        · obtain ⟨c, -, hc⟩ := List.mem_flatMap.mp hbody
          exact (newline_not_mem_escape c _ hc) rfl
      · exact absurd (List.mem_singleton.mp hend) (by decide)
    · rw [List.getLast?_concat]
      decide
  · obtain ⟨-, hcontrol, -⟩ := isControl_of_not_needsQuoting hquote
    refine ⟨fun hmem => ?_, fun hlast => ?_⟩
    · exact absurd (hcontrol _ hmem) (by decide)
    · exact absurd (hcontrol _ (List.mem_of_getLast? hlast)) (by decide)

/-- A text without blanks at its ends and without a quote is read as it is. -/
theorem readScalar_plain {text : List Char} (htrim : trim text = text) (hquote : '"' ∉ text) :
    readScalar text = text := by
  have hnone : text.dropPrefix? ['"'] = none := by
    refine dropPrefix?_eq_none fun hpre => hquote ?_
    exact hpre.subset (List.mem_singleton_self _)
  rw [readScalar, htrim, hnone, Option.bind_none]

/-- A text without blanks and quotes stands as it is. -/
theorem plain_of_forall {text : List Char} (h : ∀ c ∈ text, Text.isWhitespace c = false ∧ c ≠ '"') :
    Clean text ∧ readScalar text = text := by
  refine ⟨⟨fun hmem => ?_, fun hlast => ?_⟩, readScalar_plain (trim_of_forall fun c hc => (h c hc).1) fun hmem => ?_⟩
  · exact absurd (h _ hmem).1 (by decide)
  · exact absurd (h _ (List.mem_of_getLast? hlast)).1 (by decide)
  · exact (h _ hmem).2 rfl

theorem readScalar_yamlScalar (s : List Char) : readScalar (yamlScalar s) = s := by
  by_cases hquote : needsQuoting s
  · have htrim : trim ('"' :: s.flatMap escapeChar ++ ['"']) = '"' :: s.flatMap escapeChar ++ ['"'] := by
      refine trim_of_ends (fun c hc => ?_) (fun c hc => ?_)
      · obtain rfl := Option.some.inj hc
        rfl
      · rw [List.getLast?_concat] at hc
        obtain rfl := Option.some.inj hc
        rfl
    have hpre : ('"' :: s.flatMap escapeChar ++ ['"']).dropPrefix? ['"'] = some (s.flatMap escapeChar ++ ['"']) :=
      dropPrefix?_append ['"'] _
    rw [yamlScalar, if_pos hquote, readScalar, htrim, hpre, Option.bind_some, dropSuffix?_append]
    exact unescape_flatMap s
  · obtain ⟨htrim, -, hmark⟩ := isControl_of_not_needsQuoting hquote
    rw [yamlScalar, if_neg hquote, readScalar_plain htrim hmark]

end TinyCortex.Content
