import TinyCortex.Entities.RoundTrip

/-! Which entities a file gives back. -/

namespace TinyCortex.Entities

open Lines FrontMatter

variable {τ : Type} (chrono : Chrono τ)

def EntityHandle.texts (h : EntityHandle) : List String := [h.kind, h.value]

/-- The texts of an entity besides its id. -/
def Entity.texts (e : Entity τ) : List String :=
  e.displayName.toList ++ e.aliases ++ e.emails ++ e.handles.flatMap EntityHandle.texts

/-- An entity that its file gives back: no text holds a newline, a text written without quotes has no blanks at its
ends, the id, which is never quoted, has none either and is not in double quotes of its own, and the years of the
timestamps have four digits. -/
structure Storable (e : Entity τ) : Prop where
  id_line : '\n' ∉ e.id.toList
  id_plain : trim e.id.toList = e.id.toList ∧ between e.id.toList = none
  texts_line : ∀ s ∈ e.texts, '\n' ∉ s.toList
  texts_plain : ∀ s ∈ e.texts, needsQuote s.toList ∨ trim s.toList = s.toList
  years : chrono.fourDigitYear e.createdAt = true ∧ chrono.fourDigitYear e.updatedAt = true

/-! ### The file splits where it was put together -/

theorem mem_headerLines {e : Entity τ} {line : List Char} (h : line ∈ headerLines chrono e) :
    (∃ label v, line = label ++ v ∧ label.head? ≠ some '-' ∧ label ≠ [] ∧ '\n' ∉ label ∧
      (v = e.id.toList ∨ v = e.kind.asStr.toList ∨ v = [] ∨ (∃ t, v = chrono.toRfc3339 t) ∨
        ∃ s ∈ e.texts, v = yamlString s.toList)) := by
  have hlist : ∀ (header : String) (items : List String), (∀ s ∈ items, s ∈ e.texts) →
      header.toList.head? ≠ some '-' → header.toList ≠ [] → '\n' ∉ header.toList →
      line ∈ listLines header items → (∃ label v, line = label ++ v ∧ label.head? ≠ some '-' ∧ label ≠ [] ∧
        '\n' ∉ label ∧ (v = e.id.toList ∨ v = e.kind.asStr.toList ∨ v = [] ∨ (∃ t, v = chrono.toRfc3339 t) ∨
          ∃ s ∈ e.texts, v = yamlString s.toList)) := by
    intro header items hitems hhead hne hnl hline
    unfold listLines at hline
    split_ifs at hline
    · exact absurd hline List.not_mem_nil
    · rcases List.mem_cons.mp hline with rfl | hitem
      · exact ⟨header.toList, [], (List.append_nil _).symm, hhead, hne, hnl, Or.inr (Or.inr (Or.inl rfl))⟩
      · obtain ⟨s, hs, rfl⟩ := List.mem_map.mp hitem
        exact ⟨"  - ".toList, _, rfl, by decide, by decide, by decide,
          Or.inr (Or.inr (Or.inr (Or.inr ⟨s, hitems s hs, rfl⟩)))⟩
  simp only [headerLines, List.mem_append, or_assoc] at h
  rcases h with hfront | hname | haliases | hemails | hhandles | htimes
  · rcases List.mem_pair.mp hfront with rfl | rfl
    · exact ⟨"id: ".toList, _, rfl, by decide, by decide, by decide, Or.inl rfl⟩
    · exact ⟨"kind: ".toList, _, rfl, by decide, by decide, by decide, Or.inr (Or.inl rfl)⟩
  · obtain ⟨name, hin, rfl⟩ := List.mem_map.mp hname
    have htext : name ∈ e.texts := List.mem_append_left _ (List.mem_append_left _ (List.mem_append_left _ hin))
    exact ⟨"display_name: ".toList, _, rfl, by decide, by decide, by decide,
      Or.inr (Or.inr (Or.inr (Or.inr ⟨name, htext, rfl⟩)))⟩
  · exact hlist "aliases:" e.aliases (fun s hs => by simp [Entity.texts, hs]) (by decide) (by decide) (by decide)
      haliases
  · exact hlist "emails:" e.emails (fun s hs => by simp [Entity.texts, hs]) (by decide) (by decide) (by decide)
      hemails
  · split_ifs at hhandles
    · exact absurd hhandles List.not_mem_nil
    · rcases List.mem_cons.mp hhandles with rfl | hhandle
      · exact ⟨"handles:".toList, [], (List.append_nil _).symm, by decide, by decide, by decide,
          Or.inr (Or.inr (Or.inl rfl))⟩
      · obtain ⟨h, hh, hline⟩ := List.mem_flatMap.mp hhandle
        have htexts : ∀ s ∈ h.texts, s ∈ e.texts := fun s hs =>
          List.mem_append_right _ (List.mem_flatMap.mpr ⟨h, hh, hs⟩)
        rcases List.mem_pair.mp hline with rfl | rfl
        · exact ⟨"  - kind: ".toList, _, rfl, by decide, by decide, by decide,
            Or.inr (Or.inr (Or.inr (Or.inr ⟨h.kind, htexts _ (by simp [EntityHandle.texts]), rfl⟩)))⟩
        · exact ⟨"    value: ".toList, _, rfl, by decide, by decide, by decide,
            Or.inr (Or.inr (Or.inr (Or.inr ⟨h.value, htexts _ (by simp [EntityHandle.texts]), rfl⟩)))⟩
  · rcases List.mem_pair.mp htimes with rfl | rfl
    · exact ⟨"created_at: ".toList, _, rfl, by decide, by decide, by decide,
        Or.inr (Or.inr (Or.inr (Or.inl ⟨_, rfl⟩)))⟩
    · exact ⟨"updated_at: ".toList, _, rfl, by decide, by decide, by decide,
        Or.inr (Or.inr (Or.inr (Or.inl ⟨_, rfl⟩)))⟩

theorem headerLines_ne_fence (e : Entity τ) : ∀ line ∈ headerLines chrono e, line ≠ "---".toList := by
  rintro line hline rfl
  obtain ⟨label, v, heq, hhead, hne, -⟩ := mem_headerLines chrono hline
  obtain ⟨c, label, rfl⟩ := List.exists_cons_of_ne_nil hne
  exact hhead (congrArg some (List.cons.inj heq).1.symm)

theorem newline_not_mem_headerLines {e : Entity τ} (hid : '\n' ∉ e.id.toList)
    (htexts : ∀ s ∈ e.texts, '\n' ∉ s.toList) : ∀ line ∈ headerLines chrono e, '\n' ∉ line := by
  intro line hline
  obtain ⟨label, v, rfl, -, -, hlabel, hv⟩ := mem_headerLines chrono hline
  rw [List.mem_append, not_or]
  refine ⟨hlabel, ?_⟩
  rcases hv with rfl | rfl | rfl | ⟨t, rfl⟩ | ⟨s, hs, rfl⟩
  · exact hid
  · cases e.kind <;> decide
  · exact List.not_mem_nil
  · exact fun hmem => absurd ((chrono.plain t).2 _ hmem).1 (by decide)
  · exact newline_not_mem_yamlString (htexts s hs)

/-- The notes as the file holds them. -/
def storedNotes (notes : List Char) : List Char :=
  '\n' :: notes ++ if notes.getLast? = some '\n' then [] else ['\n']

theorem splitFrontMatter_compose {e : Entity τ} (hlines : ∀ line ∈ headerLines chrono e, '\n' ∉ line)
    (notes : List Char) : splitFrontMatter (compose chrono e notes) =
      some (List.intercalate ['\n'] (headerLines chrono e), storedNotes notes) := by
  have hne : headerLines chrono e ≠ [] := List.append_ne_nil_of_right_ne_nil _ (List.cons_ne_nil _ _)
  have hclose : "---\n\n".toList = "---".toList ++ ['\n', '\n'] := by decide
  have hbody : compose chrono e notes = "---\n".toList ++
      (List.intercalate ['\n'] (headerLines chrono e) ++ '\n' :: ("---".toList ++ '\n' :: storedNotes notes)) := by
    unfold compose
    rw [joined_eq_intercalate_append hne, storedNotes, hclose]
    simp only [List.append_assoc, List.cons_append, List.nil_append]
  have hfence : "\n---\n".toList = '\n' :: ("---".toList ++ ['\n']) := by decide
  rw [splitFrontMatter, hbody, dropPrefix?_append, Option.bind_some, hfence,
    dropInfix?_fence (by decide) hne hlines (headerLines_ne_fence chrono e)]

theorem notesBody_compose {e : Entity τ} (hlines : ∀ line ∈ headerLines chrono e, '\n' ∉ line) (notes : List Char) :
    notesBody (compose chrono e notes) = some (storedNotes notes) := by
  rw [notesBody, splitFrontMatter_compose chrono hlines]
  rfl

theorem lines_header {e : Entity τ} (hlines : ∀ line ∈ headerLines chrono e, '\n' ∉ line) :
    lines (List.intercalate ['\n'] (headerLines chrono e)) = (headerLines chrono e).map stripReturn := by
  obtain ⟨init, hinit⟩ : ∃ init, headerLines chrono e =
      init ++ ["updated_at: ".toList ++ chrono.toRfc3339 e.updatedAt] := by
    exact ⟨_, (List.append_assoc _ ["created_at: ".toList ++ chrono.toRfc3339 e.createdAt]
      ["updated_at: ".toList ++ chrono.toRfc3339 e.updatedAt]).symm⟩
  rw [hinit] at hlines ⊢
  have hlast := hlines _ (List.mem_append_right _ (List.mem_singleton_self _))
  have hreturn : ("updated_at: ".toList ++ chrono.toRfc3339 e.updatedAt).getLast? ≠ some '\r' := by
    intro h
    rcases List.mem_append.mp (List.mem_of_getLast? h) with hlabel | htime
    · exact absurd hlabel (by decide)
    · exact absurd ((chrono.plain _).2 _ htime).1 (by decide)
  rw [intercalate_concat, lines_joined_append (fun line hline => hlines line (List.mem_append_left _ hline)) hlast
    (List.append_ne_nil_of_left_ne_nil (by decide) _), List.map_append, List.map_singleton, stripReturn_of_last hreturn]

/-- A file whose texts hold no newline reads back field by field. -/
theorem parse_compose (now : τ) {e : Entity τ} (hid : '\n' ∉ e.id.toList)
    (htexts : ∀ s ∈ e.texts, '\n' ∉ s.toList) (notes : List Char) : parse chrono now (compose chrono e notes) =
      some ⟨String.ofList (unquote (trim e.id.toList)), e.kind, e.displayName.map readBack, e.aliases.map readBack,
        e.emails.map readBack, e.handles.map readHandle,
        (chrono.parseFromRfc3339 (chrono.toRfc3339 e.createdAt)).getD now,
        (chrono.parseFromRfc3339 (chrono.toRfc3339 e.updatedAt)).getD now⟩ := by
  have hlines := newline_not_mem_headerLines chrono hid htexts
  have hread := readLines_header chrono e
  rw [parse, splitFrontMatter_compose chrono hlines, Option.bind_some, lines_header chrono hlines]
  dsimp only
  rw [show ((headerLines chrono e).map stripReturn).foldl (parseLine chrono) (ParseState.start τ) =
    readLines chrono (ParseState.start τ) (headerLines chrono e) from rfl]
  generalize readLines chrono (ParseState.start τ) (headerLines chrono e) = st at hread ⊢
  simp only [ParseState.leave, ParseState.flush, ParseState.mk.injEq] at hread
  obtain ⟨hid', hkind, hname, haliases, hemails, hhandles, hcreated, hupdated, -⟩ := hread
  simp only [ParseState.flush, hid', hkind, hname, haliases, hemails, hhandles, hcreated, hupdated]
  rfl

/-! ### No line gives a text with a newline -/

theorem newline_not_mem_replacePair {a b r : Char} (hr : '\n' ≠ r) {s : List Char} (h : '\n' ∉ s) :
    '\n' ∉ replacePair a b r s := by
  induction s using replacePair.induct a b with
  | case1 => exact h
  | case2 c => exact h
  | case3 c d rest heq ih =>
      rw [replacePair, if_pos heq]
      simp only [List.mem_cons, not_or] at h ⊢
      exact ⟨hr, ih h.2.2⟩
  | case4 c d rest hne ih =>
      rw [replacePair, if_neg hne, List.mem_cons, not_or]
      rw [List.mem_cons, not_or] at h
      exact ⟨h.1, ih h.2⟩

theorem newline_not_mem_unquote {s : List Char} (h : '\n' ∉ s) : '\n' ∉ unquote s := by
  unfold unquote
  cases hb : between s with
  | none => exact h
  | some inner =>
      have hinner : '\n' ∉ inner := by
        rw [between_eq_some hb] at h
        exact fun hmem => h (List.mem_cons_of_mem _ (List.mem_append_left _ hmem))
      exact newline_not_mem_replacePair (by decide) (newline_not_mem_replacePair (by decide) hinner)

/-- A value on a line. -/
theorem newline_not_mem_value {v : List Char} (h : '\n' ∉ v) : '\n' ∉ (String.ofList (unquote (trim v))).toList := by
  rw [String.toList_ofList]
  exact newline_not_mem_unquote fun hmem => h ((trim_sublist v).subset hmem)

theorem trimStartMatches_suffix (pre : List Char) (fuel : Nat) (text : List Char) :
    trimStartMatches pre fuel text <:+ text := by
  induction fuel generalizing text with
  | zero => exact List.suffix_rfl
  | succ fuel ih =>
      rw [trimStartMatches]
      split
      · rename_i rest hdrop
        obtain ⟨pre', rfl, -⟩ := List.dropPrefix?_eq_some_iff.mp hdrop
        exact (ih rest).trans (List.suffix_append _ _)
      · exact List.suffix_rfl

/-- The texts that the loop has read. -/
def ParseState.texts (st : ParseState τ) : List String :=
  st.id :: (st.displayName.toList ++ st.aliases ++ st.emails ++ st.handles.flatMap EntityHandle.texts ++
    st.handleBuf.toList.flatMap EntityHandle.texts)

/-- No text that was read holds a newline. -/
def ParseState.Oneline (st : ParseState τ) : Prop := ∀ s ∈ st.texts, '\n' ∉ s.toList

theorem oneline_iff {st : ParseState τ} : st.Oneline ↔ '\n' ∉ st.id.toList ∧
    (∀ s, st.displayName = some s → '\n' ∉ s.toList) ∧ (∀ s ∈ st.aliases, '\n' ∉ s.toList) ∧
    (∀ s ∈ st.emails, '\n' ∉ s.toList) ∧ (∀ h ∈ st.handles, ∀ s ∈ h.texts, '\n' ∉ s.toList) ∧
    ∀ h, st.handleBuf = some h → ∀ s ∈ h.texts, '\n' ∉ s.toList := by
  simp only [ParseState.Oneline, ParseState.texts, List.forall_mem_cons, List.forall_mem_append,
    List.forall_mem_flatMap, Option.mem_toList, and_assoc]

theorem oneline_flush {st : ParseState τ} (h : st.Oneline) : st.flush.Oneline := by
  obtain ⟨hid, hname, haliases, hemails, hhandles, hbuf⟩ := oneline_iff.mp h
  refine oneline_iff.mpr ⟨hid, hname, haliases, hemails, fun g hg => ?_, fun g hg => by cases hg⟩
  rcases List.mem_append.mp hg with hold | hnew
  · exact hhandles g hold
  · exact hbuf g (Option.mem_toList.mp hnew)

theorem oneline_parseField {st : ParseState τ} (h : st.Oneline) (key : String) {v : List Char} (hv : '\n' ∉ v) :
    (parseField chrono st key (trim v)).Oneline := by
  obtain ⟨hid, hname, haliases, hemails, hhandles, hbuf⟩ := oneline_iff.mp h
  unfold parseField
  split
  · exact oneline_iff.mpr ⟨newline_not_mem_value hv, hname, haliases, hemails, hhandles, hbuf⟩
  · exact h
  · refine oneline_iff.mpr ⟨hid, fun s hs => ?_, haliases, hemails, hhandles, hbuf⟩
    obtain rfl := Option.some.inj hs
    exact newline_not_mem_value hv
  all_goals exact h

theorem oneline_parseLine {st : ParseState τ} (h : st.Oneline) {raw : List Char} (hraw : '\n' ∉ raw) :
    (parseLine chrono st raw).Oneline := by
  obtain ⟨hid, hname, haliases, hemails, hhandles, hbuf⟩ := oneline_iff.mp h
  have htail : ∀ pre, '\n' ∉ trimStartMatches pre raw.length raw :=
    fun pre hmem => hraw ((trimStartMatches_suffix pre _ raw).subset hmem)
  unfold parseLine
  by_cases hkind : "  - kind:".toList <+: raw
  · rw [if_pos hkind]
    obtain ⟨-, -, -, -, hflushed, -⟩ := oneline_iff.mp (oneline_flush h)
    refine oneline_iff.mpr ⟨hid, hname, haliases, hemails, hflushed, fun g hg s hs => ?_⟩
    obtain rfl := Option.some.inj hg
    rcases List.mem_pair.mp hs with rfl | rfl
    · exact newline_not_mem_value (htail _)
    · exact List.not_mem_nil
  · rw [if_neg hkind]
    by_cases hvalue : "    value:".toList <+: raw
    · rw [if_pos hvalue]
      refine oneline_iff.mpr ⟨hid, hname, haliases, hemails, hhandles, fun g hg s hs => ?_⟩
      obtain ⟨old, hold, rfl⟩ := Option.map_eq_some_iff.mp hg
      rcases List.mem_pair.mp hs with rfl | rfl
      · exact hbuf old hold _ List.mem_cons_self
      · exact newline_not_mem_value (htail _)
    · rw [if_neg hvalue]
      cases hitem : raw.dropPrefix? "  - ".toList with
      | some rest =>
          obtain ⟨pre, rfl, -⟩ := List.dropPrefix?_eq_some_iff.mp hitem
          have hrest := newline_not_mem_value fun hmem : '\n' ∈ rest => hraw (List.mem_append_right _ hmem)
          dsimp only
          split
          · refine oneline_iff.mpr ⟨hid, hname, List.forall_mem_append.mpr ⟨haliases, ?_⟩, hemails, hhandles, hbuf⟩
            exact List.forall_mem_singleton.mpr hrest
          · refine oneline_iff.mpr ⟨hid, hname, haliases, List.forall_mem_append.mpr ⟨hemails, ?_⟩, hhandles, hbuf⟩
            exact List.forall_mem_singleton.mpr hrest
          · exact h
      | none =>
          have hleft : (if raw.head? ≠ some ' ' then { st.flush with currentList := none } else st).Oneline := by
            split_ifs
            · exact oneline_flush h
            · exact h
          dsimp only
          split
          · rename_i k v hkv
            obtain ⟨⟨sep, hsplit, -⟩, -⟩ := List.dropInfix?_eq_some_iff.mp hkv
            refine oneline_parseField chrono hleft _ fun hmem => hraw ?_
            rw [hsplit]
            exact List.mem_append_right _ hmem
          · exact hleft

/-- What is read from a file holds no newline. -/
theorem newline_not_mem_parse {now : τ} {text : List Char} {e : Entity τ} (h : parse chrono now text = some e) :
    '\n' ∉ e.id.toList ∧ ∀ s ∈ e.texts, '\n' ∉ s.toList := by
  obtain ⟨parts, -, hst⟩ := Option.bind_eq_some_iff.mp h
  obtain ⟨kind, -, rfl⟩ := Option.map_eq_some_iff.mp hst
  have hfold : ∀ (ls : List (List Char)), (∀ line ∈ ls, '\n' ∉ line) → ∀ st : ParseState τ, st.Oneline →
      (ls.foldl (parseLine chrono) st).Oneline := by
    intro ls
    induction ls with
    | nil => exact fun _ st hst => hst
    | cons line ls ih =>
        intro hls st hst
        obtain ⟨hline, hrest⟩ := List.forall_mem_cons.mp hls
        exact ih hrest _ (oneline_parseLine chrono hst hline)
  have hstart : (ParseState.start τ).Oneline := by
    intro s hs
    obtain rfl : s = "" := by simpa [ParseState.texts, ParseState.start] using hs
    exact List.not_mem_nil
  have hone := oneline_flush (hfold (lines parts.1) (fun line hline => newline_not_mem_lines hline) _ hstart)
  obtain ⟨hid, hname, haliases, hemails, hhandles, -⟩ := oneline_iff.mp hone
  refine ⟨hid, ?_⟩
  rw [Entity.texts]
  simp only [List.forall_mem_append, List.forall_mem_flatMap, Option.mem_toList]
  exact ⟨⟨⟨hname, haliases⟩, hemails⟩, hhandles⟩

/-! ### The round trip -/

theorem map_eq_self_iff {α : Type*} {f : α → α} {l : List α} : l.map f = l ↔ ∀ a ∈ l, f a = a := by
  induction l with
  | nil => simp
  | cons a l ih => rw [List.map_cons, List.cons.injEq, ih, List.forall_mem_cons]

/-- Without newlines, and read at a time whose year has four digits, an entity comes back exactly when its texts
are plain and its years have four digits. -/
theorem parse_compose_oneline_iff {now : τ} (hnow : chrono.fourDigitYear now = true) {e : Entity τ}
    (hid : '\n' ∉ e.id.toList) (htexts : ∀ s ∈ e.texts, '\n' ∉ s.toList) (notes : List Char) :
    parse chrono now (compose chrono e notes) = some e ↔
      (trim e.id.toList = e.id.toList ∧ between e.id.toList = none) ∧
        (∀ s ∈ e.texts, needsQuote s.toList ∨ trim s.toList = s.toList) ∧
        chrono.fourDigitYear e.createdAt = true ∧ chrono.fourDigitYear e.updatedAt = true := by
  have hident : String.ofList (unquote (trim e.id.toList)) = e.id ↔ unquote (trim e.id.toList) = e.id.toList := by
    rw [← String.toList_inj, String.toList_ofList]
  have hhandle : ∀ h : EntityHandle, readHandle h = h ↔ ∀ s ∈ h.texts, readBack s = s := by
    intro h
    rw [EntityHandle.texts, List.forall_mem_cons, List.forall_mem_singleton]
    exact ⟨fun heq => ⟨congrArg EntityHandle.kind heq, congrArg EntityHandle.value heq⟩,
      fun heq => by rw [readHandle, heq.1, heq.2]⟩
  have hname : e.displayName.map readBack = e.displayName ↔ ∀ s ∈ e.displayName.toList, readBack s = s := by
    cases e.displayName with
    | none => simp
    | some name => simp
  rw [parse_compose chrono now hid htexts notes, Option.some.injEq, ← unquote_trim_eq_iff, ← hident]
  cases e with
  | mk id kind name aliases emails handles created updated =>
      simp only [Entity.mk.injEq, Entity.texts, List.forall_mem_append, List.forall_mem_flatMap, true_and,
        ← readBack_eq_iff, map_eq_self_iff, hhandle, and_assoc, chrono.getD_parse_iff hnow]
      exact and_congr_right fun _ => and_congr_left fun _ => hname

/-- A storable entity is read back from its file, whatever notes stand in it. -/
theorem Storable.parse_compose {e : Entity τ} (h : Storable chrono e) (now : τ) (notes : List Char) :
    parse chrono now (compose chrono e notes) = some e := by
  have hback := (parse_compose_oneline_iff chrono chrono.epoch_year h.id_line h.texts_line notes).mpr
    ⟨h.id_plain, h.texts_plain, h.years⟩
  rw [Entities.parse_compose chrono _ h.id_line h.texts_line, chrono.parse_format, chrono.parse_format,
    if_pos h.years.1, if_pos h.years.2] at hback ⊢
  exact hback

/-- What comes back from its file is storable. -/
theorem storable_of_parse_compose {e : Entity τ} {now : τ} (hnow : chrono.fourDigitYear now = true)
    {notes : List Char} (h : parse chrono now (compose chrono e notes) = some e) : Storable chrono e := by
  obtain ⟨hid, htexts⟩ := newline_not_mem_parse chrono h
  obtain ⟨hplain, htextsPlain, hyears⟩ := (parse_compose_oneline_iff chrono hnow hid htexts notes).mp h
  exact ⟨hid, hplain, htexts, htextsPlain, hyears⟩

/-- An entity document is read back as its entity, at every time of reading, exactly when the entity is storable. -/
theorem parse_compose_iff (e : Entity τ) (notes : List Char) :
    (∀ now, parse chrono now (compose chrono e notes) = some e) ↔ Storable chrono e := by
  constructor
  · exact fun h => storable_of_parse_compose chrono chrono.epoch_year (h chrono.unixEpoch)
  · exact fun h now => h.parse_compose chrono now notes

/-! ### Ten seconds of clock time -/

/-- The first ten seconds of the epoch. -/
def firstSeconds : Chrono (Fin 10) where
  toRfc3339 t := "1970-01-01T00:00:0".toList ++ [Nat.digitChar t] ++ "+00:00".toList
  parseFromRfc3339 s := (List.finRange 10).find? fun t =>
    "1970-01-01T00:00:0".toList ++ [Nat.digitChar t] ++ "+00:00".toList = s
  unixEpoch := 0
  fourDigitYear _ := true
  parse_format := by decide +kernel
  epoch_year := rfl
  plain := by
    have hdigit : ∀ t : Fin 10, Text.isWhitespace (Nat.digitChar t) = false ∧ Nat.digitChar t ≠ '"' := by decide
    have hday : ∀ c ∈ "1970-01-01T00:00:0".toList, Text.isWhitespace c = false ∧ c ≠ '"' := by decide +kernel
    have hzone : ∀ c ∈ "+00:00".toList, Text.isWhitespace c = false ∧ c ≠ '"' := by decide +kernel
    intro t
    refine ⟨List.append_ne_nil_of_right_ne_nil _ (by decide), fun c hc => ?_⟩
    rcases List.mem_append.mp hc with hc | hc
    · rcases List.mem_append.mp hc with hc | hc
      · exact hday c hc
      · rw [List.mem_singleton.mp hc]
        exact hdigit t
    · exact hzone c hc

def freshEntity (id : String) (kind : EntityKind) : Entity (Fin 10) := ⟨id, kind, none, [], [], [], 0, 0⟩

/-- A display name of two lines is read back as its first line and as another id. -/
theorem parse_compose_shifted :
    ¬∀ now, parse firstSeconds now (compose firstSeconds
      ⟨"person:ada", .person, some "Ada\nid: person:eve", [], [], [], 0, 0⟩ []) =
        some ⟨"person:ada", .person, some "Ada\nid: person:eve", [], [], [], 0, 0⟩ := by
  intro h
  have hread := congrArg (Option.map Entity.id) (h 0)
  revert hread
  decide +kernel

end TinyCortex.Entities
