import TinyCortex.Content.Compose

/-! Headers of content files as their entries. The lines of a header are read, cut at the tags and stamped entry by
entry, so that rewriting a file is rewriting its header. -/

namespace TinyCortex.Content

open Lines FrontMatter

inductive Value
  | scalar (text : List Char)
  | list (items : List (List Char))

structure Entry where
  key : String
  value : Value

namespace Entry

/-- What stands behind the colon. -/
def rest (e : Entry) : List Char :=
  match e.value with
  | .scalar text => ' ' :: text
  | .list [] => [' ', '[', ']']
  | .list (_ :: _) => []

def items (e : Entry) : List (List Char) :=
  match e.value with
  | .scalar _ => []
  | .list items => items

def head (e : Entry) : Line := e.key.toList ++ ':' :: e.rest

def lines (e : Entry) : List Line := e.head :: e.items.map item

end Entry

def render (header : List Entry) : List Line := header.flatMap Entry.lines

theorem render_cons (e : Entry) (header : List Entry) : render (e :: header) = e.lines ++ render header :=
  List.flatMap_cons

theorem render_append (header more : List Entry) : render (header ++ more) = render header ++ render more :=
  List.flatMap_append

theorem Entry.lines_scalar (key : String) (text : List Char) : (Entry.mk key (.scalar text)).lines = [field key text] :=
  rfl

theorem Entry.lines_list {key : String} {items : List (List Char)} (h : items ≠ []) :
    (Entry.mk key (.list items)).lines = (key.toList ++ [':']) :: items.map item := by
  obtain ⟨v, vs, rfl⟩ := List.exists_cons_of_ne_nil h
  rfl

def KeyOk (key : String) : Prop := key.toList ≠ [] ∧ ∀ c ∈ key.toList, c.isAlpha ∨ c = '_'

instance (key : String) : Decidable (KeyOk key) := inferInstanceAs (Decidable (_ ∧ _))

def listKeys : List String := ["tags", "children", "participants", "aliases"]

def provenanceKeys : List String := ["openhuman_core_version", "memory_artifact_format"]

/-- A list of its own key, or a scalar on one line. -/
structure Entry.Ok (e : Entry) : Prop where
  key : KeyOk e.key
  clean : Clean e.rest
  listed : (∃ items, e.value = .list items) ↔ e.key ∈ listKeys
  aliases : e.key = "aliases" → e.items ≠ []

theorem Entry.ok_scalar {key : String} (hkey : KeyOk key) (hkeys : key ∉ listKeys) {text : List Char}
    (h : Clean text) : (Entry.mk key (.scalar text)).Ok where
  key := hkey
  clean := by
    have hspace : Clean [' '] := ⟨by decide, by decide⟩
    exact hspace.append h
  listed := iff_of_false (fun hlist => by obtain ⟨items, hitems⟩ := hlist; cases hitems) hkeys
  aliases heq := absurd (by rw [show key = "aliases" from heq]; decide) hkeys

theorem Entry.ok_list {key : String} (hkey : KeyOk key) (hkeys : key ∈ listKeys) {items : List (List Char)}
    (h : key = "aliases" → items ≠ []) : (Entry.mk key (.list items)).Ok where
  key := hkey
  clean := by
    cases items with
    | nil =>
        show Clean [' ', '[', ']']
        exact ⟨by decide, by decide⟩
    | cons v vs =>
        show Clean []
        exact ⟨by decide, by decide⟩
  listed := iff_of_true ⟨items, rfl⟩ hkeys
  aliases := h

/-! ### Lines -/

theorem KeyOk.not_mem {key : String} (h : KeyOk key) {c : Char} (hc : c.isAlpha = false) (hne : c ≠ '_') :
    c ∉ key.toList := by
  intro hmem
  rcases h.2 c hmem with halpha | heq
  · rw [hc] at halpha
    cases halpha
  · exact hne heq

theorem KeyOk.head {key : String} (h : KeyOk key) (rest : List Char) :
    ∃ c more, key.toList ++ rest = c :: more ∧ c ≠ ' ' ∧ c ≠ '\t' ∧ c ≠ '-' := by
  obtain ⟨c, more, hcons⟩ := List.exists_cons_of_ne_nil h.1
  have hmem : c ∈ key.toList := hcons ▸ List.mem_cons_self
  refine ⟨c, more ++ rest, by rw [hcons, List.cons_append], ?_, ?_, ?_⟩
  all_goals
    rintro rfl
    exact h.not_mem (by decide) (by decide) hmem

theorem head_inj {key key' : String} (h : KeyOk key) (h' : KeyOk key') {rest rest' : List Char}
    (heq : key.toList ++ ':' :: rest = key'.toList ++ ':' :: rest') : key = key' ∧ rest = rest' := by
  obtain ⟨hkey, hrest⟩ := append_sep_inj (h.not_mem (by decide) (by decide)) (h'.not_mem (by decide) (by decide)) heq
  exact ⟨String.toList_inj.mp hkey, hrest⟩

theorem clean_item (v : List Char) : Clean (item v) := by
  have hdash : Clean [' ', ' ', '-', ' '] := ⟨by decide, by decide⟩
  exact hdash.append (clean_yamlScalar v)

theorem isItem_item (v : List Char) : isItem (item v) := rfl

theorem item_ne_of_head {v : List Char} {line : Line} (h : line.head? ≠ some ' ') : item v ≠ line := by
  rintro rfl
  exact h rfl

namespace Entry.Ok

variable {e : Entry}

theorem head_clean (h : e.Ok) : Clean e.head := by
  have hkey : Clean (e.key.toList ++ [':']) := by
    refine ⟨fun hmem => ?_, ?_⟩
    · rcases List.mem_append.mp hmem with hkey | hcolon
      · exact h.key.not_mem (by decide) (by decide) hkey
      · exact absurd hcolon (by decide)
    · rw [List.getLast?_concat]
      decide
  have hsplit : e.head = (e.key.toList ++ [':']) ++ e.rest := by rw [head, List.append_assoc, List.singleton_append]
  rw [hsplit]
  exact hkey.append h.clean

theorem head_not_item (h : e.Ok) : isItem e.head = false := by
  obtain ⟨c, more, hcons, hspace, -, -⟩ := h.key.head (':' :: e.rest)
  rw [Entry.head, hcons]
  exact Bool.and_eq_false_iff.mpr (Or.inl (beq_eq_false_iff_ne.mpr hspace.symm))

theorem head_ne_fence (h : e.Ok) : e.head ≠ fence := by
  obtain ⟨c, more, hcons, -, -, hdash⟩ := h.key.head (':' :: e.rest)
  rw [Entry.head, hcons]
  exact fun heq => hdash (List.cons.inj heq).1

/-- A line that starts a list stands for an entry with its key. -/
theorem head_eq_iff (h : e.Ok) (key : String) (hkey : KeyOk key) (rest : List Char) :
    e.head = key.toList ++ ':' :: rest ↔ e.key = key ∧ e.rest = rest := by
  refine ⟨fun heq => head_inj h.key hkey heq, fun heq => ?_⟩
  rw [head, heq.1, heq.2]

/-- A line with a value behind a key stands for an entry with that key. -/
theorem prefix_head_iff (h : e.Ok) (key : String) (hkey : KeyOk key) :
    key.toList ++ [':', ' '] <+: e.head ↔ e.key = key ∧ ∃ text, e.rest = ' ' :: text := by
  constructor
  · intro hpre
    obtain ⟨text, htext⟩ := hpre
    rw [List.append_assoc] at htext
    obtain ⟨heq, hrest⟩ := (h.head_eq_iff key hkey _).mp htext.symm
    exact ⟨heq, text, hrest⟩
  · intro heq
    obtain ⟨rfl, text, hrest⟩ := heq
    exact ⟨text, by rw [head, hrest, List.append_assoc]; rfl⟩

end Entry.Ok

theorem mem_render {header : List Entry} {line : Line} :
    line ∈ render header ↔ ∃ e ∈ header, line = e.head ∨ ∃ v ∈ e.items, line = item v := by
  rw [render, List.mem_flatMap]
  refine exists_congr fun e => and_congr_right fun _ => ?_
  rw [Entry.lines, List.mem_cons, List.mem_map]
  refine or_congr_right (exists_congr fun v => and_congr_right fun _ => eq_comm)

def Ok (header : List Entry) : Prop := ∀ e ∈ header, e.Ok

theorem line_clean {header : List Entry} (h : Ok header) {line : Line} (hline : line ∈ render header) :
    Clean line ∧ line ≠ fence := by
  obtain ⟨e, he, rfl | ⟨v, -, rfl⟩⟩ := mem_render.mp hline
  · exact ⟨(h e he).head_clean, (h e he).head_ne_fence⟩
  · exact ⟨clean_item v, item_ne_of_head (by decide)⟩

/-! ### Fences -/

theorem fenced_eq (header : List Line) : fenced header = joined '\n' (fence :: header ++ [fence]) := by
  have hlast : joined '\n' [fence] = fence ++ ['\n'] := List.append_nil _
  rw [joined_append, joined_cons, fenced, hlast]
  simp only [List.append_assoc, List.cons_append, List.nil_append]

theorem lines_fenced {header : List Entry} (h : Ok header) :
    FrontMatter.lines (fenced (render header)) = fence :: render header ++ [fence] := by
  have hfence : Clean fence := ⟨by decide, by decide⟩
  have hclean : ∀ line ∈ fence :: render header ++ [fence], Clean line := by
    intro line hline
    rcases List.mem_append.mp hline with hfront | hlast
    · rcases List.mem_cons.mp hfront with rfl | hmem
      · exact hfence
      · exact (line_clean h hmem).1
    · rw [List.mem_singleton.mp hlast]
      exact hfence
  rw [fenced_eq, lines_joined fun line hline => (hclean line hline).newline]
  conv_rhs => rw [← List.map_id (fence :: render header ++ [fence])]
  exact List.map_congr_left fun line hline => stripReturn_of_last (hclean line hline).last

theorem splitFrontMatter_fenced {header : List Entry} (h : Ok header) (hne : header ≠ []) (body : List Char) :
    splitFrontMatter (fenced (render header) ++ body) = some (fenced (render header), body) := by
  have hlines : render header ≠ [] := by
    obtain ⟨e, more, rfl⟩ := List.exists_cons_of_ne_nil hne
    exact List.cons_ne_nil _ _
  have hjoined : fenced (render header) = fence ++ ['\n'] ++ (List.intercalate ['\n'] (render header) ++
      '\n' :: (fence ++ ['\n'])) := by
    rw [fenced, joined_eq_intercalate_append hlines]
    simp only [List.append_assoc, List.cons_append, List.nil_append]
  have hfound := dropInfix?_fence (by decide) hlines (fun line hline => (line_clean h hline).1.newline)
    (fun line hline => (line_clean h hline).2) body
  have hrest : List.intercalate ['\n'] (render header) ++ '\n' :: (fence ++ ['\n']) ++ body =
      List.intercalate ['\n'] (render header) ++ '\n' :: (fence ++ '\n' :: body) := by
    simp only [List.append_assoc, List.cons_append, List.nil_append]
  rw [splitFrontMatter, hjoined, List.append_assoc, dropPrefix?_append, Option.bind_some, hrest, hfound]
  simp only [List.append_assoc]

/-! ### Values -/

def Entry.scan (e : Entry) : Option (List Char) := (e.rest.dropPrefix? [' ']).map readScalar

/-- The value under a key, where it is a scalar. -/
def valueAt (header : List Entry) (key : String) : Option (List Char) :=
  header.findSome? fun e => if e.key = key then e.scan else none

theorem scanLine_item (key v : List Char) : scanLine key (item v) = none := if_pos (Or.inl rfl)

theorem scanLine_head {e : Entry} (h : e.Ok) {key : String} (hkey : KeyOk key) :
    scanLine key.toList e.head = if e.key = key then e.scan else none := by
  obtain ⟨c, more, hcons, hspace, htab, -⟩ := h.key.head (':' :: e.rest)
  have hstart : ¬(e.head.head? = some ' ' ∨ e.head.head? = some '\t') := by
    rw [Entry.head, hcons]
    rintro (heq | heq)
    · exact hspace (Option.some.inj heq)
    · exact htab (Option.some.inj heq)
  rw [scanLine, if_neg hstart]
  by_cases hsame : e.key = key
  · have hhead : e.head = (key.toList ++ [':']) ++ e.rest := by
      rw [Entry.head, hsame, List.append_assoc, List.singleton_append]
    have hkey : key.toList ++ [':', ' '] = (key.toList ++ [':']) ++ [' '] := by rw [List.append_assoc]; rfl
    rw [if_pos hsame, Entry.scan, hhead, hkey, dropPrefix?_append_append]
  · rw [if_neg hsame, dropPrefix?_eq_none, Option.map_none]
    exact fun hpre => hsame ((h.prefix_head_iff key hkey).mp hpre).1

theorem scanFmField_fenced {header : List Entry} (h : Ok header) {key : String} (hkey : KeyOk key) :
    scanFmField (fenced (render header)) key.toList = valueAt header key := by
  have hfence : scanLine key.toList fence = none := by
    obtain ⟨c, more, hcons, -, -, hdash⟩ := hkey.head [':', ' ']
    rw [scanLine, if_neg (by decide), dropPrefix?_eq_none, Option.map_none]
    rw [hcons]
    intro hpre
    obtain ⟨rest, hrest⟩ := hpre
    exact hdash (List.cons.inj hrest).1
  have hitems (vs : List (List Char)) : (vs.map item).findSome? (scanLine key.toList) = none := by
    rw [List.findSome?_eq_none_iff]
    intro line hline
    obtain ⟨v, -, rfl⟩ := List.mem_map.mp hline
    exact scanLine_item _ v
  have hrender : (render header).findSome? (scanLine key.toList) = valueAt header key := by
    induction header with
    | nil => rfl
    | cons e header ih =>
        obtain ⟨he, hheader⟩ := List.forall_mem_cons.mp h
        rw [render_cons, Entry.lines, List.cons_append, List.findSome?_cons, List.findSome?_append, hitems,
          Option.none_or, ih hheader, scanLine_head he hkey, valueAt, valueAt, List.findSome?_cons]
  rw [scanFmField, lines_fenced h, List.findSome?_append, List.findSome?_cons, hfence, hrender,
    List.findSome?_singleton, hfence, Option.or_none]

theorem valueAt_eq_some_iff {header : List Entry} (hnodup : (header.map Entry.key).Nodup) {key : String}
    {v : List Char} : valueAt header key = some v ↔ ∃ e ∈ header, e.key = key ∧ e.scan = some v := by
  rw [valueAt, List.findSome?_eq_some_iff]
  constructor
  · intro h
    obtain ⟨above, e, below, rfl, hscan, -⟩ := h
    split_ifs at hscan with hkey
    exact ⟨e, List.mem_append_right _ List.mem_cons_self, hkey, hscan⟩
  · intro h
    obtain ⟨e, he, rfl, hscan⟩ := h
    obtain ⟨above, below, rfl⟩ := List.append_of_mem he
    refine ⟨above, e, below, rfl, by rw [if_pos rfl, hscan], fun other hother => if_neg fun heq => ?_⟩
    rw [List.map_append, List.map_cons, List.nodup_append] at hnodup
    exact hnodup.2.2 _ (List.mem_map_of_mem hother) _ List.mem_cons_self heq

theorem valueAt_scalar {header : List Entry} (hnodup : (header.map Entry.key).Nodup) {key : String} {text : List Char}
    (h : ⟨key, .scalar text⟩ ∈ header) : valueAt header key = some (readScalar text) :=
  (valueAt_eq_some_iff hnodup).mpr ⟨_, h, rfl, congrArg (Option.map readScalar) (dropPrefix?_append [' '] text)⟩

theorem valueAt_eq_none {header : List Entry} {key : String} (h : key ∉ header.map Entry.key) :
    valueAt header key = none := by
  refine List.findSome?_eq_none_iff.mpr fun e he => if_neg fun heq => ?_
  exact h (List.mem_map.mpr ⟨e, he, heq⟩)

/-- Headers with the same entries under a key have the same value there. -/
theorem valueAt_congr {header header' : List Entry} (hnodup : (header.map Entry.key).Nodup)
    (hnodup' : (header'.map Entry.key).Nodup) {key : String} (h : ∀ e, e.key = key → (e ∈ header ↔ e ∈ header')) :
    valueAt header key = valueAt header' key := by
  refine Option.ext fun v => ?_
  rw [valueAt_eq_some_iff hnodup, valueAt_eq_some_iff hnodup']
  exact exists_congr fun e => by
    constructor
    · exact fun he => ⟨(h e he.2.1).mp he.1, he.2⟩
    · exact fun he => ⟨(h e he.2.1).mpr he.1, he.2⟩

end TinyCortex.Content
