import TinyCortex.Entities.Store

/-! The notes of an entity file under upserts. A put writes a blank line in front of the notes and reads it as a part of
them, so that they grow with every put; a text of the entity that holds a fence moves the start of the notes. -/

namespace TinyCortex.Entities

open Lines FrontMatter

/-- The closing fence with the newlines around it. -/
def fence : List Char := '\n' :: ("---".toList ++ ['\n'])

/-! ### Fences in texts -/

theorem escape_cons (c : Char) (s : List Char) :
    escape (c :: s) = (if c = '\\' ∨ c = '"' then ['\\', c] else [c]) ++ escape s := by
  unfold escape
  rw [List.flatMap_cons, List.flatMap_append]
  congr 1
  by_cases hslash : c = '\\'
  · subst hslash
    decide
  · by_cases hquote : c = '"'
    · subst hquote
      decide
    · rw [if_neg hslash, List.flatMap_singleton, if_neg hquote, if_neg (not_or.mpr ⟨hslash, hquote⟩)]

variable {part : List Char}

/-- A part without backslashes and quotes starts an escaped text where it starts the text. -/
theorem prefix_escape_iff (hslash : '\\' ∉ part) (hquote : '"' ∉ part) {s : List Char} :
    part <+: escape s ↔ part <+: s := by
  induction s generalizing part with
  | nil => exact Iff.rfl
  | cons c s ih =>
      cases part with
      | nil => exact iff_of_true List.nil_prefix List.nil_prefix
      | cons d part =>
          rw [List.mem_cons, not_or] at hslash hquote
          rw [escape_cons, List.cons_prefix_cons, ← ih hslash.2 hquote.2]
          by_cases hc : c = '\\' ∨ c = '"'
          · rw [if_pos hc, List.cons_append, List.cons_prefix_cons]
            refine iff_of_false (fun h => hslash.1 h.1.symm) fun h => ?_
            rcases hc with rfl | rfl
            · exact hslash.1 h.1.symm
            · exact hquote.1 h.1.symm
          · rw [if_neg hc, List.singleton_append, List.cons_prefix_cons]

/-- A part without backslashes and quotes is in an escaped text where it is in the text. -/
theorem infix_escape_iff (hne : part ≠ []) (hslash : '\\' ∉ part) (hquote : '"' ∉ part) {s : List Char} :
    part <:+: escape s ↔ part <:+: s := by
  induction s with
  | nil => exact Iff.rfl
  | cons c s ih =>
      have hstart : ∀ d rest, d = '\\' ∨ d = '"' → ¬part <+: d :: rest := by
        intro d rest hd hpre
        rcases List.prefix_cons_iff.mp hpre with hnil | ⟨t, rfl, -⟩
        · exact hne hnil
        · rcases hd with rfl | rfl
          · exact hslash List.mem_cons_self
          · exact hquote List.mem_cons_self
      rw [List.infix_cons_iff (a := c), ← ih, ← prefix_escape_iff hslash hquote, escape_cons]
      by_cases hc : c = '\\' ∨ c = '"'
      · rw [if_pos hc, List.cons_append, List.singleton_append, List.infix_cons_iff, List.infix_cons_iff,
          or_iff_right (hstart _ _ (Or.inl (Eq.refl _))), or_iff_right (hstart _ _ hc),
          or_iff_right (hstart _ _ (Or.inl (Eq.refl _)))]
      · rw [if_neg hc, List.singleton_append, List.infix_cons_iff]

/-- A scalar holds a fence exactly when its text does. -/
theorem fence_yamlString_iff (s : String) : fence <:+: yamlString s.toList ++ ['\n'] ↔ fence <:+: s.toList := by
  have hescape : fence <:+: escape s.toList ↔ fence <:+: s.toList :=
    infix_escape_iff (by decide) (by decide) (by decide)
  unfold yamlString
  by_cases hq : needsQuote s.toList = true
  · rw [if_pos hq]
    constructor
    · intro h
      rw [List.cons_append, List.cons_append, ← List.nil_append ('"' :: _)] at h
      have hbehind := (infix_append_cons (by decide) h).resolve_left fun hnil => absurd hnil (by decide)
      rw [List.append_assoc] at hbehind
      have hinner := (infix_append_cons (by decide) hbehind).resolve_right fun hline => absurd hline (by decide)
      exact hescape.mp hinner
    · intro h
      refine (hescape.mpr h).trans ?_
      exact ⟨['"'], ['"', '\n'], by simp⟩
  · rw [if_neg hq]
    have hnewline : '\n' ∉ s.toList := needsQuote_false (eq_false_of_ne_true hq) (by decide)
    refine iff_of_false (fun h => ?_) fun h => hnewline (h.subset (by decide))
    have hrest := fence_infix_of_label hnewline h
    exact absurd hrest (by decide)

variable {τ : Type} (chrono : Chrono τ)

/-- No text of the entity holds a fence; the id, which is not quoted, does not end in one either. -/
def Unfenced (e : Entity τ) : Prop := ¬fence <:+: e.id.toList ++ ['\n'] ∧ ∀ s ∈ e.texts, ¬fence <:+: s.toList

/-- Each text stands behind a label on lines of the header. -/
theorem exists_label {e : Entity τ} {s : String} (h : s ∈ e.texts) :
    ∃ label, label ++ yamlString s.toList ∈ headerLines chrono e := by
  have hlist : ∀ (header : String) (items : List String), s ∈ items → item s ∈ listLines header items := by
    intro header items hs
    rw [listLines, if_neg (List.ne_nil_of_mem hs)]
    exact List.mem_cons_of_mem _ (List.mem_map_of_mem hs)
  simp only [Entity.texts, List.mem_append, or_assoc, Option.mem_toList] at h
  rcases h with hname | halias | hemail | hhandle
  · refine ⟨"display_name: ".toList, ?_⟩
    have hin := List.mem_map_of_mem (f := fun name => "display_name: ".toList ++ yamlString name.toList)
      (Option.mem_toList.mpr hname)
    simp only [headerLines, List.mem_append]
    exact Or.inl (Or.inl (Or.inl (Or.inl (Or.inr hin))))
  · refine ⟨"  - ".toList, ?_⟩
    have hitem := hlist "aliases:" e.aliases halias
    simp only [headerLines, List.mem_append]
    exact Or.inl (Or.inl (Or.inl (Or.inr hitem)))
  · refine ⟨"  - ".toList, ?_⟩
    have hitem := hlist "emails:" e.emails hemail
    simp only [headerLines, List.mem_append]
    exact Or.inl (Or.inl (Or.inr hitem))
  · obtain ⟨handle, hin, hs⟩ := List.mem_flatMap.mp hhandle
    have hlines : ∀ line ∈ handleLines handle, line ∈ headerLines chrono e := by
      intro line hline
      simp only [headerLines, List.mem_append]
      rw [if_neg (List.ne_nil_of_mem hin)]
      exact Or.inl (Or.inr (List.mem_cons_of_mem _ (List.mem_flatMap.mpr ⟨handle, hin, hline⟩)))
    rcases List.mem_pair.mp hs with rfl | rfl
    · exact ⟨"  - kind: ".toList, hlines _ List.mem_cons_self⟩
    · exact ⟨"    value: ".toList, hlines _ (List.mem_cons_of_mem _ List.mem_cons_self)⟩

/-- A header holds a fence exactly when a text of its entity does. -/
theorem fence_header_iff (e : Entity τ) : fence <:+: joined '\n' (headerLines chrono e) ↔ ¬Unfenced e := by
  have hline : ∀ line ∈ headerLines chrono e, fence <:+: line ++ ['\n'] →
      fence <:+: joined '\n' (headerLines chrono e) := by
    intro line hmem hfence
    obtain ⟨before, behind, hsplit⟩ := List.append_of_mem hmem
    refine hfence.trans ⟨joined '\n' before, joined '\n' behind, ?_⟩
    rw [hsplit, joined_append, joined_cons]
    simp
  constructor
  · intro h hunfenced
    obtain ⟨line, hmem, hfence⟩ := @exists_line_of_fence _ _ "---".toList (by decide) _ (fun line hmem tail hpre => by
      obtain ⟨label, v, rfl, hhead, hne, -⟩ := mem_headerLines chrono hmem
      obtain ⟨c, label, rfl⟩ := List.exists_cons_of_ne_nil hne
      obtain ⟨rest, hrest⟩ := hpre
      have hfirst := congrArg List.head? hrest
      exact hhead (hfirst.symm.trans (by simp))) h
    obtain ⟨label, v, rfl, -, -, hlabel, hv⟩ := mem_headerLines chrono hmem
    rw [List.append_assoc] at hfence
    have hvalue := fence_infix_of_label hlabel hfence
    -- A value without newlines leaves no room for both newlines of the fence.
    have hplain : '\n' ∉ v → False := fun hv => absurd (fence_infix_of_label hv hvalue) (by decide)
    rcases hv with rfl | rfl | rfl | ⟨t, rfl⟩ | ⟨s, hs, rfl⟩
    · exact hunfenced.1 hvalue
    · exact hplain (by cases e.kind <;> decide)
    · exact hplain List.not_mem_nil
    · exact hplain fun hmem => absurd ((chrono.plain t).2 _ hmem).1 (by decide)
    · exact hunfenced.2 s hs ((fence_yamlString_iff s).mp hvalue)
  · intro hfenced
    rw [Unfenced, not_and_or, not_not] at hfenced
    rcases hfenced with hid | htexts
    · have hin : "id: ".toList ++ e.id.toList ∈ headerLines chrono e := by
        simp only [headerLines, List.mem_append]
        exact Or.inl (Or.inl (Or.inl (Or.inl (Or.inl List.mem_cons_self))))
      refine hline _ hin (hid.trans ?_)
      rw [List.append_assoc]
      exact (List.suffix_append _ _).isInfix
    · simp only [not_forall, not_not] at htexts
      obtain ⟨s, hs, hfence⟩ := htexts
      obtain ⟨label, hin⟩ := exists_label chrono hs
      refine hline _ hin (((fence_yamlString_iff s).mpr hfence).trans ?_)
      rw [List.append_assoc]
      exact (List.suffix_append _ _).isInfix

/-! ### One put -/

/-- What is behind the first fence of a composed file: the stored notes, with a part of the header in front exactly
when a text of the entity holds a fence. -/
theorem notesBody_composed (e : Entity τ) (notes : List Char) :
    ∃ after, notesBody (compose chrono e notes) = some after ∧ storedNotes notes <:+ after ∧
      (after = storedNotes notes ↔ Unfenced e) := by
  have hne : headerLines chrono e ≠ [] := List.append_ne_nil_of_right_ne_nil _ (List.cons_ne_nil _ _)
  obtain ⟨header, hheader⟩ : ∃ header, header = List.intercalate ['\n'] (headerLines chrono e) := ⟨_, Eq.refl _⟩
  have hjoined : joined '\n' (headerLines chrono e) = header ++ ['\n'] := by
    rw [joined_eq_intercalate_append hne, hheader]
  have hbody : compose chrono e notes = "---\n".toList ++ (header ++ fence ++ storedNotes notes) := by
    have hclose : "---\n\n".toList = "---".toList ++ ['\n', '\n'] := by decide
    unfold compose
    rw [hjoined, storedNotes, hclose, fence]
    simp only [List.append_assoc, List.cons_append, List.nil_append]
  obtain ⟨p, s, hdrop, hsplit, hle⟩ := exists_dropInfix? (Eq.refl (header ++ fence ++ storedNotes notes))
  have hlength := congrArg List.length hsplit
  simp only [List.length_append] at hlength
  refine ⟨s, ?_, ?_, ?_⟩
  · rw [notesBody, splitFrontMatter, hbody, dropPrefix?_append, Option.bind_some]
    rw [show "\n---\n".toList = fence from Eq.refl _, hdrop]
    exact Eq.refl _
  · refine List.suffix_of_suffix_length_le ⟨header ++ fence, Eq.refl _⟩ ?_ (by omega)
    exact ⟨p ++ fence, hsplit.symm⟩
  · have hclose : header ++ fence ++ storedNotes notes = header ++ '\n' :: ("---".toList ++ '\n' :: storedNotes notes) := by
      simp [fence]
    constructor
    · intro hafter
      by_contra hfenced
      obtain ⟨before, behind, hfence⟩ := (fence_header_iff chrono e).mpr hfenced
      rw [hjoined] at hfence
      -- A fence in the header is found first.
      have hearlier : header ++ fence ++ storedNotes notes =
          before ++ fence ++ (behind ++ ("---".toList ++ '\n' :: storedNotes notes)) := by
        rw [hclose, ← List.append_assoc (before ++ fence), hfence, List.append_assoc, List.singleton_append]
      obtain ⟨p', s', hdrop', -, hle'⟩ := exists_dropInfix? hearlier
      rw [hdrop, Option.some.injEq, Prod.mk.injEq] at hdrop'
      rw [← hdrop'.1] at hle'
      have hfenceLength := congrArg List.length hfence
      simp only [List.length_append, List.length_singleton] at hfenceLength
      have hfive : fence.length = 5 := by decide
      have hsame := congrArg List.length hafter
      omega
    · intro hunfenced
      have hp : ¬p.length < header.length := by
        intro hlt
        rw [hclose] at hsplit
        have hin := fence_infix_of_lt (by decide) hsplit.symm hlt
        rw [← hjoined] at hin
        exact (fence_header_iff chrono e).mp hin hunfenced
      rw [List.append_assoc, List.append_assoc] at hsplit
      have hparts := List.append_inj hsplit (by omega)
      exact (List.append_cancel_left hparts.2).symm

theorem length_storedNotes (notes : List Char) : notes.length + 1 ≤ (storedNotes notes).length := by
  rw [storedNotes, List.length_append, List.length_cons]
  omega

/-- The notes of a file whose front matter is recognised. -/
def HasNotes (kind : EntityKind) (slug : List Char) (files : Files) (notes : List Char) : Prop :=
  ∃ text, files kind slug = some text ∧ notesBody text = some notes

/-- The entity has this file. -/
def Addresses (kind : EntityKind) (slug : List Char) (p : Put τ) : Prop :=
  p.entity.kind = kind ∧ slugifyId p.entity.id = slug

variable {kind : EntityKind} {slug : List Char} {files : Files} {notes : List Char}

/-- A put over notes writes them into the new file. -/
theorem putEntity_hasNotes (h : HasNotes kind slug files notes) {p : Put τ} (hp : Addresses kind slug p) :
    ∃ stored files', putEntity chrono p.now p.entity files = some (stored, files') ∧
      files' kind slug = some (compose chrono { p.entity with updatedAt := p.now } notes) := by
  obtain ⟨text, htext, hnotes⟩ := h
  obtain ⟨rfl, rfl⟩ := hp
  have hexisting : existingNotes files p.entity.kind p.entity.id = some notes := by
    unfold existingNotes
    rw [htext]
    dsimp only
    rw [if_neg, hnotes]
    rintro rfl
    have hnil : notesBody [] = none := by decide
    rw [hnil] at hnotes
    cases hnotes
  refine ⟨_, _, by rw [putEntity, hexisting, Option.map_some], ?_⟩
  rw [Function.update_self, Function.update_self]

/-! ### Runs of puts -/

/-- Puts one after the other; none of them may be refused. -/
def putAll (puts : List (Put τ)) (files : Files) : Option Files :=
  puts.foldlM (fun files p => (putEntity chrono p.now p.entity files).map Prod.snd) files

/-- Notes that differ in one newline at the end at most. -/
def SameNotes (notes after : List Char) : Prop := after = notes ∨ after = notes ++ ['\n'] ∨ notes = after ++ ['\n']

/-- One put makes the notes longer. -/
theorem put_longer (h : HasNotes kind slug files notes) {p : Put τ} (hp : Addresses kind slug p) :
    ∃ files' after, (putEntity chrono p.now p.entity files).map Prod.snd = some files' ∧
      HasNotes kind slug files' after ∧ storedNotes notes <:+ after ∧
      (after = storedNotes notes ↔ Unfenced p.entity) := by
  obtain ⟨stored, files', hput, hfile⟩ := putEntity_hasNotes chrono h hp
  obtain ⟨after, hafter, hsuffix, hsame⟩ := notesBody_composed chrono { p.entity with updatedAt := p.now } notes
  refine ⟨files', after, by rw [hput, Option.map_some], ⟨_, hfile, hafter⟩, hsuffix, hsame⟩

/-- Each put of a run makes the notes longer. -/
theorem putAll_longer {puts : List (Put τ)} (hall : ∀ p ∈ puts, Addresses kind slug p)
    (h : HasNotes kind slug files notes) : ∃ files' after, putAll chrono puts files = some files' ∧
      HasNotes kind slug files' after ∧ notes.length + puts.length ≤ after.length := by
  induction puts generalizing files notes with
  | nil => exact ⟨files, notes, Eq.refl _, h, le_rfl⟩
  | cons p puts ih =>
      obtain ⟨hp, hrest⟩ := List.forall_mem_cons.mp hall
      obtain ⟨next, between, hput, hbetween, hsuffix, -⟩ := put_longer chrono h hp
      obtain ⟨files', after, hputs, hafter, hlong⟩ := ih hrest hbetween
      refine ⟨files', after, ?_, hafter, ?_⟩
      · rw [putAll, List.foldlM_cons, hput]
        exact hputs
      · have hone := (length_storedNotes notes).trans hsuffix.length_le
        rw [List.length_cons]
        omega

theorem HasNotes.unique {after : List Char} (h : HasNotes kind slug files notes)
    (hafter : HasNotes kind slug files after) : after = notes := by
  obtain ⟨text, htext, hnotes⟩ := h
  obtain ⟨text', htext', hnotes'⟩ := hafter
  rw [htext, Option.some.injEq] at htext'
  subst htext'
  rw [hnotes, Option.some.injEq] at hnotes'
  exact hnotes'.symm

/-- A newline moves past notes exactly when they are newlines themselves. -/
theorem cons_eq_concat_iff {c : Char} {notes : List Char} : c :: notes = notes ++ [c] ↔ ∀ d ∈ notes, d = c := by
  induction notes with
  | nil => simp
  | cons d notes ih =>
      rw [List.cons_append, List.cons.injEq, List.forall_mem_cons]
      constructor
      · rintro ⟨rfl, htail⟩
        exact ⟨Eq.refl _, ih.mp htail⟩
      · rintro ⟨rfl, htail⟩
        exact ⟨Eq.refl _, ih.mpr htail⟩

/-- What one put makes of the notes is the same up to a newline exactly when they are newlines and the start of the
notes stays where it is. -/
theorem sameNotes_stored_iff {after : List Char} (hsuffix : storedNotes notes <:+ after) :
    SameNotes notes after ↔ notes ≠ [] ∧ (∀ c ∈ notes, c = '\n') ∧ after = storedNotes notes := by
  have hlong := hsuffix.length_le
  have hone := length_storedNotes notes
  constructor
  · rintro (rfl | rfl | rfl)
    · omega
    · rw [List.length_append, List.length_singleton] at hlong
      have hafter := hsuffix.eq_of_length (by rw [List.length_append, List.length_singleton]; omega)
      have hlast : notes.getLast? = some '\n' := by
        by_contra hlast
        have hlength := congrArg List.length hafter
        rw [storedNotes, if_neg hlast] at hlength
        simp at hlength
      have hstored : storedNotes notes = '\n' :: notes := by rw [storedNotes, if_pos hlast, List.append_nil]
      refine ⟨?_, cons_eq_concat_iff.mp (hstored.symm.trans hafter), hafter.symm⟩
      rintro rfl
      cases hlast
    · rw [List.length_append, List.length_singleton] at hone
      omega
  · rintro ⟨hne, hall, rfl⟩
    have hlast : notes.getLast? = some '\n' := by
      rw [List.getLast?_eq_some_getLast hne, hall _ (List.getLast_mem hne)]
    right
    left
    rw [storedNotes, if_pos hlast, List.append_nil, cons_eq_concat_iff.mpr hall]

/-- The notes survive a run of puts, up to a newline at the end, exactly when they are newlines only, the run is one put,
and no text of it holds a fence. A put that is repeated never leaves the file as it was but for the timestamp. -/
theorem putAll_keepsNotes_iff (hfile : HasNotes kind slug files notes) (puts : List (Put τ)) (hne : puts ≠ [])
    (hall : ∀ p ∈ puts, Addresses kind slug p) :
    ((∃ files' after, putAll chrono puts files = some files' ∧ HasNotes kind slug files' after ∧
        SameNotes notes after) ↔
      puts.length = 1 ∧ notes ≠ [] ∧ (∀ c ∈ notes, c = '\n') ∧ ∀ p ∈ puts, Unfenced p.entity) ∧
    ∀ p ∈ puts, ∀ later, ∃ files' files'' text, putAll chrono [p] files = some files' ∧
      files' kind slug = some (compose chrono { p.entity with updatedAt := p.now } notes) ∧
      putAll chrono [{ p with now := later }] files' = some files'' ∧ files'' kind slug = some text ∧
      text ≠ compose chrono { p.entity with updatedAt := later } notes := by
  refine ⟨?_, fun p hmem later => ?_⟩
  · cases puts with
    | nil => exact absurd (Eq.refl _) hne
    | cons p puts =>
        obtain ⟨hp, hrest⟩ := List.forall_mem_cons.mp hall
        cases puts with
        | nil =>
            obtain ⟨next, after, hput, hafter, hsuffix, hunfenced⟩ := put_longer chrono hfile hp
            have hrun : putAll chrono [p] files = some next := by
              rw [putAll, List.foldlM_cons, hput]
              exact Eq.refl _
            rw [List.forall_mem_singleton, ← hunfenced, List.length_singleton, eq_self_iff_true, true_and,
              ← sameNotes_stored_iff hsuffix, hrun]
            constructor
            · rintro ⟨files', after', hfiles, hafter', hsame⟩
              obtain rfl := Option.some.inj hfiles
              rwa [hafter.unique hafter'] at hsame
            · exact fun hsame => ⟨next, after, Eq.refl _, hafter, hsame⟩
        | cons q puts =>
            obtain ⟨files', after, hrun, hafter, hlong⟩ := putAll_longer chrono hall hfile
            rw [hrun]
            refine iff_of_false ?_ fun h => ?_
            · rintro ⟨files'', after', hfiles, hafter', hsame⟩
              obtain rfl := Option.some.inj hfiles
              rw [hafter.unique hafter'] at hsame
              simp only [List.length_cons] at hlong
              rcases hsame with rfl | rfl | rfl
              · omega
              · rw [List.length_append, List.length_singleton] at hlong
                omega
              · rw [List.length_append, List.length_singleton] at hlong
                omega
            · simp at h
  · have hp := hall p hmem
    obtain ⟨stored, files', hput, hwritten⟩ := putEntity_hasNotes chrono hfile hp
    obtain ⟨after, hafter, hsuffix, -⟩ := notesBody_composed chrono { p.entity with updatedAt := p.now } notes
    obtain ⟨stored', files'', hput', hwritten'⟩ := putEntity_hasNotes (p := { p with now := later }) chrono
      ⟨_, hwritten, hafter⟩ hp
    refine ⟨files', files'', _, ?_, hwritten, ?_, hwritten', fun hsame => ?_⟩
    · rw [putAll, List.foldlM_cons, hput]
      exact Eq.refl _
    · rw [putAll, List.foldlM_cons, hput']
      exact Eq.refl _
    · -- Both texts end in their notes, and the second notes are longer, also with a newline put behind the first.
      have hlength := congrArg List.length hsame
      have hlong := hsuffix.length_le
      unfold compose at hlength
      rw [storedNotes] at hlong
      simp only [List.length_append, List.length_cons] at hlength hlong
      split_ifs at hlength hlong <;> simp only [List.length_nil, List.length_singleton] at hlength hlong <;> omega

/-- A file of one person with these notes. -/
def personFile (notes : List Char) : Files :=
  fun kind slug => if kind = .person ∧ slug = slugifyId "person:ada" then
    some ("---\nkind: person\n---\n".toList ++ notes) else none

theorem hasNotes_personFile_newline : HasNotes .person (slugifyId "person:ada") (personFile ['\n']) ['\n'] :=
  ⟨_, if_pos ⟨Eq.refl _, Eq.refl _⟩, by decide⟩

theorem putAll_keepsNotes_newline : ∃ files' after,
    putAll firstSeconds [⟨freshEntity "person:ada" .person, 7⟩] (personFile ['\n']) = some files' ∧
      HasNotes .person (slugifyId "person:ada") files' after ∧ SameNotes ['\n'] after :=
  (putAll_keepsNotes_iff firstSeconds hasNotes_personFile_newline [⟨freshEntity "person:ada" .person, 7⟩]
    (by decide) (by simp [Addresses, freshEntity])).1.mpr
    ⟨by decide, by decide, by decide, by simp [Unfenced, freshEntity, Entity.texts]; decide⟩

/-- Two puts over the note of a user put two blank lines in front of it. -/
theorem putAll_notes_grow : ¬∃ files' after,
    putAll firstSeconds [⟨freshEntity "person:ada" .person, 7⟩, ⟨freshEntity "person:ada" .person, 8⟩]
      (personFile "Met in March.\n".toList) = some files' ∧
      HasNotes .person (slugifyId "person:ada") files' after ∧ SameNotes "Met in March.\n".toList after := by
  have hrun : (putAll firstSeconds [⟨freshEntity "person:ada" .person, 7⟩, ⟨freshEntity "person:ada" .person, 8⟩]
      (personFile "Met in March.\n".toList)).map (fun files => (files .person (slugifyId "person:ada")).bind notesBody) =
        some (some "\n\nMet in March.\n".toList) := by
    decide +kernel
  rintro ⟨files', after, hfiles, ⟨text, htext, hnotes⟩, hsame⟩
  rw [hfiles, Option.map_some, htext, Option.bind_some, hnotes, Option.some.injEq, Option.some.injEq] at hrun
  subst hrun
  revert hsame
  unfold SameNotes
  decide

end TinyCortex.Entities
