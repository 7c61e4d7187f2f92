import TinyCortex.Content.Header

/-! Rewriting the tags of a content file rewrites its header: the entry of the tags is taken out and the new one goes
to the end, and a summary gets the current provenance. -/

namespace TinyCortex.Content

open Lines FrontMatter

def tagsEntry (tags : List String) : Entry := ⟨"tags", .list (tags.map String.toList)⟩

def setTags (tags : List String) (header : List Entry) : List Entry :=
  header.filter (fun e => e.key ≠ "tags") ++ [tagsEntry tags]

def provenanceEntries : List Entry :=
  [⟨"openhuman_core_version", .scalar (yamlScalar openhumanCoreVersion.toList)⟩,
    ⟨"memory_artifact_format", .scalar (digits memoryArtifactFormat)⟩]

def beforeAliases (e : Entry) : List Entry := if e.key = "aliases" then provenanceEntries ++ [e] else [e]

/-- The current provenance stands before the aliases, or at the end where there are none. -/
def stamp (header : List Entry) : List Entry :=
  if "aliases" ∈ header.map Entry.key then
    (header.filter fun e => e.key ∉ provenanceKeys).flatMap beforeAliases
  else header.filter (fun e => e.key ∉ provenanceKeys) ++ provenanceEntries

/-! ### Cutting out the tags -/

theorem head_eq_tags {e : Entry} (h : e.Ok) : e.head = tagsEmpty ∨ e.head = tagsHead ↔ e.key = "tags" := by
  have hempty : e.head = tagsEmpty ↔ e.key = "tags" ∧ e.rest = [' ', '[', ']'] := h.head_eq_iff "tags" (by decide) _
  have hhead : e.head = tagsHead ↔ e.key = "tags" ∧ e.rest = [] := h.head_eq_iff "tags" (by decide) _
  rw [hempty, hhead, ← and_or_left]
  refine and_iff_left_of_imp fun hkey => ?_
  obtain ⟨items, hvalue⟩ := h.listed.mpr (by rw [hkey]; decide)
  rw [Entry.rest, hvalue]
  cases items with
  | nil => exact Or.inl rfl
  | cons v vs => exact Or.inr rfl

theorem withoutTags_items (vs : List (List Char)) (rest : List Line) :
    withoutTags false (vs.map item ++ rest) = vs.map item ++ withoutTags false rest := by
  induction vs with
  | nil => rfl
  | cons v vs ih =>
      rw [List.map_cons, List.cons_append, withoutTags, if_neg (by simp), if_neg (item_ne_of_head (by decide)),
        if_neg (item_ne_of_head (by decide)), ih, List.cons_append]

theorem withoutTags_skip (vs : List (List Char)) (rest : List Line) :
    withoutTags true (vs.map item ++ rest) = withoutTags true rest := by
  induction vs with
  | nil => rfl
  | cons v vs ih => rw [List.map_cons, List.cons_append, withoutTags, if_pos ⟨rfl, isItem_item v⟩, ih]

theorem withoutTags_head {line : Line} (h : isItem line = false) (skipping : Bool) (rest : List Line) :
    withoutTags skipping (line :: rest) = withoutTags false (line :: rest) := by
  have hstep (skipping : Bool) : withoutTags skipping (line :: rest) = if line = tagsEmpty then withoutTags false rest
      else if line = tagsHead then withoutTags true rest else line :: withoutTags false rest := by
    rw [withoutTags, if_neg (by simp [h])]
  exact (hstep skipping).trans (hstep false).symm

theorem withoutTags_entry {e : Entry} (h : e.Ok) {rest kept : List Line}
    (hrest : ∀ skipping, withoutTags skipping rest = kept) (skipping : Bool) :
    withoutTags skipping (e.lines ++ rest) = if e.key = "tags" then kept else e.lines ++ kept := by
  rw [Entry.lines, List.cons_append, withoutTags_head h.head_not_item, withoutTags, if_neg (by simp)]
  by_cases hkey : e.key = "tags"
  · rw [if_pos hkey]
    obtain ⟨items, hvalue⟩ := h.listed.mpr (by rw [hkey]; decide)
    have hitems : e.items = items := by rw [Entry.items, hvalue]
    cases items with
    | nil =>
        have hempty : e.head = tagsEmpty := by rw [Entry.head, Entry.rest, hvalue, hkey]; rfl
        rw [if_pos hempty, hitems]
        exact hrest false
    | cons v vs =>
        have hhead : e.head = tagsHead := by rw [Entry.head, Entry.rest, hvalue, hkey]; rfl
        rw [if_neg (by rw [hhead]; decide), if_pos hhead, withoutTags_skip]
        exact hrest true
  · obtain ⟨hempty, hhead⟩ := not_or.mp (mt (head_eq_tags h).mp hkey)
    rw [if_neg hkey, if_neg hempty, if_neg hhead, withoutTags_items, hrest false, List.cons_append]

theorem withoutTags_render {header : List Entry} (h : Ok header) {rest : List Line}
    (hrest : ∀ skipping, withoutTags skipping rest = rest) (skipping : Bool) :
    withoutTags skipping (render header ++ rest) = render (header.filter fun e => e.key ≠ "tags") ++ rest := by
  induction header generalizing skipping with
  | nil => exact hrest skipping
  | cons e header ih =>
      obtain ⟨he, hheader⟩ := List.forall_mem_cons.mp h
      have hkept := withoutTags_entry he (ih hheader) skipping
      rw [render_cons, List.append_assoc, hkept, List.filter_cons]
      by_cases hkey : e.key = "tags"
      · rw [if_pos hkey, if_neg (by simp [hkey])]
      · rw [if_neg hkey, if_pos (by simp [hkey]), render_cons, List.append_assoc]

theorem beforeFence_concat (ls : List Line) : beforeFence (ls ++ [fence]) = ls := by
  have hdrop : (ls ++ [fence]).rdropWhile (fun line => line ≠ fence) = ls ++ [fence] :=
    List.rdropWhile_concat_neg _ _ _ (by simp)
  rw [beforeFence, hdrop, if_neg (List.append_ne_nil_of_right_ne_nil _ (List.cons_ne_nil _ _)), List.dropLast_concat]

theorem tagsEntry_lines {tags : List String} (h : tags ≠ []) :
    (tagsEntry tags).lines = tagsHead :: tags.map fun tag => item tag.toList := by
  have htags : "tags".toList ++ [':'] = tagsHead := by decide
  rw [tagsEntry, Entry.lines_list (by simpa using h), htags, List.map_map]
  rfl

theorem joined_tagsEntry (tags : List String) : joined '\n' (tagsEntry tags).lines = replacement tags ++ ['\n'] := by
  have hitems : ∀ tags : List String, '\n' :: joined '\n' (tags.map fun tag => item tag.toList) =
      (tags.flatMap fun tag => '\n' :: item tag.toList) ++ ['\n'] := by
    intro tags
    induction tags with
    | nil => rfl
    | cons tag tags ih =>
        rw [List.map_cons, joined_cons, ih, List.flatMap_cons, List.append_assoc]
        rfl
  rw [replacement]
  split_ifs with hnil
  · rw [hnil]
    rfl
  · rw [tagsEntry_lines hnil, joined_cons, hitems, List.append_assoc]

/-- `rewrite_tags` on a file with a header in which the tags stand. -/
theorem rewriteTags_fenced {header : List Entry} (h : Ok header) (htags : "tags" ∈ header.map Entry.key)
    (body : List Char) (tags : List String) :
    rewriteTags (fenced (render header) ++ body) tags = .ok (fenced (render (setTags tags header)) ++ body) := by
  have hne : header ≠ [] := by
    rintro rfl
    exact absurd htags List.not_mem_nil
  have hfound : (FrontMatter.lines (fenced (render header))).any fun line => line = tagsEmpty ∨ line = tagsHead := by
    obtain ⟨e, he, hkey⟩ := List.mem_map.mp htags
    rw [lines_fenced h, List.any_eq_true]
    refine ⟨e.head, ?_, decide_eq_true ((head_eq_tags (h e he)).mpr hkey)⟩
    exact List.mem_append_left _ (List.mem_cons_of_mem _ (mem_render.mpr ⟨e, he, Or.inl rfl⟩))
  have hcut : withoutTags false (fence :: render header ++ [fence]) =
      fence :: render (header.filter fun e => e.key ≠ "tags") ++ [fence] := by
    have hlast : ∀ skipping, withoutTags skipping [fence] = [fence] := by decide
    have hrender := withoutTags_render h hlast false
    rw [List.cons_append, withoutTags, if_neg (by simp), if_neg (by decide), if_neg (by decide), hrender]
    rfl
  have hnew : replaceTagsInFrontMatter (fenced (render header)) tags = .ok (fenced (render (setTags tags header))) := by
    have hlines : render (setTags tags header) =
        render (header.filter fun e => e.key ≠ "tags") ++ (tagsEntry tags).lines := by
      rw [setTags, render_append, render_cons]
      exact congrArg _ (List.append_nil _)
    rw [replaceTagsInFrontMatter, if_pos hfound, lines_fenced h, hcut, beforeFence_concat,
      ← joined_eq_intercalate_append (List.append_ne_nil_of_right_ne_nil _ (List.cons_ne_nil _ _)), fenced_eq, hlines]
    refine congrArg Except.ok ?_
    rw [List.cons_append, List.cons_append, joined_cons, joined_cons, joined_append, joined_append, joined_append,
      joined_tagsEntry, joined_cons, joined_cons]
    simp only [List.append_assoc, List.cons_append, List.nil_append]
  rw [rewriteTags, splitFrontMatter_fenced h hne]
  dsimp only
  rw [hnew]
  rfl

/-! ### The provenance of a summary -/

theorem provenance_eq : provenance = render provenanceEntries := rfl

theorem isProvenance_head {e : Entry} (h : e.Ok) : isProvenance e.head ↔ e.key ∈ provenanceKeys := by
  have hversion := h.prefix_head_iff "openhuman_core_version" (by decide)
  have hformat := h.prefix_head_iff "memory_artifact_format" (by decide)
  have hsplit : isProvenance e.head ↔ "openhuman_core_version".toList ++ [':', ' '] <+: e.head ∨
      "memory_artifact_format".toList ++ [':', ' '] <+: e.head := by
    rw [isProvenance, Bool.or_eq_true, List.isPrefixOf_iff_prefix, List.isPrefixOf_iff_prefix]
    exact Iff.rfl
  rw [hsplit, hversion, hformat, ← or_and_right]
  refine (and_iff_left_of_imp fun hkey => ?_).trans (by simp [provenanceKeys])
  have hscalar : ¬∃ items, e.value = .list items := by
    rw [h.listed]
    rcases hkey with hkey | hkey
    · rw [hkey]; decide
    · rw [hkey]; decide
  cases hvalue : e.value with
  | scalar text => exact ⟨text, by rw [Entry.rest, hvalue]⟩
  | list items => exact absurd ⟨items, hvalue⟩ hscalar

theorem head_eq_aliases {e : Entry} (h : e.Ok) : e.head = "aliases:".toList ↔ e.key = "aliases" := by
  have hhead : e.head = "aliases:".toList ↔ e.key = "aliases" ∧ e.rest = [] := h.head_eq_iff "aliases" (by decide) _
  rw [hhead]
  refine and_iff_left_of_imp fun hkey => ?_
  obtain ⟨items, hvalue⟩ := h.listed.mpr (by rw [hkey]; decide)
  have hitems := h.aliases hkey
  rw [Entry.items, hvalue] at hitems
  rw [Entry.rest, hvalue]
  cases items with
  | nil => exact absurd rfl hitems
  | cons v vs => rfl

theorem upsertLoop_items (inserted : Bool) (vs : List (List Char)) (rest : List Line) :
    upsertLoop inserted (vs.map item ++ rest) = vs.map item ++ upsertLoop inserted rest := by
  induction vs with
  | nil => rfl
  | cons v vs ih =>
      have hprovenance : isProvenance (item v) = false := rfl
      rw [List.map_cons, List.cons_append, upsertLoop, hprovenance, if_neg Bool.false_ne_true,
        if_neg fun h => item_ne_of_head (by decide) h.2, ih, List.cons_append]

theorem upsertLoop_entry {e : Entry} (h : e.Ok) (inserted : Bool) (rest : List Line) :
    upsertLoop inserted (e.lines ++ rest) =
      if e.key ∈ provenanceKeys then upsertLoop inserted rest
      else if ¬inserted ∧ e.key = "aliases" then provenance ++ (e.lines ++ upsertLoop true rest)
      else e.lines ++ upsertLoop inserted rest := by
  rw [Entry.lines, List.cons_append, upsertLoop]
  by_cases hprovenance : e.key ∈ provenanceKeys
  · have hitems : e.items = [] := by
      cases hvalue : e.value with
      | scalar text => rw [Entry.items, hvalue]
      | list items =>
          have hlisted := h.listed.mp ⟨items, hvalue⟩
          have hdisjoint : ∀ key ∈ provenanceKeys, key ∉ listKeys := by decide
          exact absurd hlisted (hdisjoint _ hprovenance)
    rw [if_pos ((isProvenance_head h).mpr hprovenance), if_pos hprovenance, hitems]
    rfl
  · rw [if_neg (mt (isProvenance_head h).mp hprovenance), if_neg hprovenance, upsertLoop_items, upsertLoop_items]
    simp only [head_eq_aliases h, List.cons_append]

section Upsert

variable {header : List Entry}

/-- Behind the aliases, or without any, lines are only left out. -/
theorem upsertLoop_render_of_done (h : Ok header) {inserted : Bool}
    (hdone : inserted ∨ "aliases" ∉ header.map Entry.key) (rest : List Line) (hrest : upsertLoop inserted rest = rest) :
    upsertLoop inserted (render header ++ rest) = render (header.filter fun e => e.key ∉ provenanceKeys) ++ rest := by
  induction header with
  | nil => exact hrest
  | cons e header ih =>
      obtain ⟨he, hheader⟩ := List.forall_mem_cons.mp h
      have hmore : inserted ∨ "aliases" ∉ header.map Entry.key :=
        hdone.imp_right fun hnone hmem => hnone (List.mem_cons_of_mem _ hmem)
      have hskip : ¬(¬inserted ∧ e.key = "aliases") := fun hboth =>
        hdone.elim hboth.1 fun hnone => hnone (by rw [← hboth.2]; exact List.mem_cons_self)
      rw [render_cons, List.append_assoc, upsertLoop_entry he, if_neg hskip, ih hheader hmore, List.filter_cons]
      by_cases hkey : e.key ∈ provenanceKeys
      · rw [if_pos hkey, if_neg (by simp [hkey])]
      · rw [if_neg hkey, if_pos (by simp [hkey]), render_cons, List.append_assoc]

theorem flatMap_beforeAliases (hnone : "aliases" ∉ header.map Entry.key) : header.flatMap beforeAliases = header := by
  induction header with
  | nil => rfl
  | cons e header ih =>
      rw [List.map_cons, List.mem_cons, not_or] at hnone
      rw [List.flatMap_cons, ih hnone.2, beforeAliases, if_neg (Ne.symm hnone.1), List.singleton_append]

theorem upsertLoop_render (h : Ok header) (hnodup : (header.map Entry.key).Nodup) (rest : List Line)
    (hrest : ∀ inserted, upsertLoop inserted rest = rest) :
    upsertLoop false (render header ++ rest) =
      render ((header.filter fun e => e.key ∉ provenanceKeys).flatMap beforeAliases) ++ rest := by
  induction header with
  | nil => exact hrest false
  | cons e header ih =>
      obtain ⟨he, hheader⟩ := List.forall_mem_cons.mp h
      obtain ⟨hnew, hnodup⟩ := List.nodup_cons.mp hnodup
      rw [render_cons, List.append_assoc, upsertLoop_entry he]
      by_cases hkey : e.key ∈ provenanceKeys
      · rw [if_pos hkey, List.filter_cons_of_neg (by simp [hkey]), ih hheader hnodup]
      · rw [if_neg hkey, List.filter_cons_of_pos (by simp [hkey]), List.flatMap_cons, render_append]
        by_cases haliases : e.key = "aliases"
        · have hnone : "aliases" ∉ (header.filter fun e => e.key ∉ provenanceKeys).map Entry.key := fun hmem =>
            hnew (by rw [haliases]; exact (List.filter_sublist.map _).subset hmem)
          have hdone := upsertLoop_render_of_done hheader (Or.inl rfl) rest (hrest true)
          rw [if_pos ⟨Bool.false_ne_true, haliases⟩, hdone, flatMap_beforeAliases hnone, beforeAliases,
            if_pos haliases, render_append, render_cons, provenance_eq]
          simp only [List.append_assoc, render, List.flatMap_nil, List.nil_append]
        · rw [if_neg fun hboth => haliases hboth.2, ih hheader hnodup, beforeAliases, if_neg haliases, render_cons]
          simp only [List.append_assoc, render, List.flatMap_nil, List.nil_append]

theorem upsert_fenced (h : Ok header) (hnodup : (header.map Entry.key).Nodup) :
    upsertSummaryProvenance (fenced (render header)) = fenced (render (stamp header)) := by
  have hlast : ∀ inserted, upsertLoop inserted [fence] = [fence] := by decide
  have hfirst (ls : List Line) : upsertLoop false (fence :: ls) = fence :: upsertLoop false ls := by
    rw [upsertLoop, if_neg (by decide), if_neg (by decide)]
  have hmem : "aliases:".toList ∈ FrontMatter.lines (fenced (render header)) ↔ "aliases" ∈ header.map Entry.key := by
    rw [lines_fenced h, List.mem_append, List.mem_cons, List.mem_map]
    constructor
    · intro hline
      rcases hline with (hline | hline) | hline
      · exact absurd hline (by decide)
      · obtain ⟨e, he, hhead | ⟨v, -, hitem⟩⟩ := mem_render.mp hline
        · exact ⟨e, he, (head_eq_aliases (h e he)).mp hhead.symm⟩
        · exact absurd hitem.symm (item_ne_of_head (by decide))
      · exact absurd hline (by decide)
    · intro hkey
      obtain ⟨e, he, hkey⟩ := hkey
      exact Or.inl (Or.inr (mem_render.mpr ⟨e, he, Or.inl ((head_eq_aliases (h e he)).mpr hkey).symm⟩))
  have hdrop (ls : List Line) : fromFence (ls ++ [fence]) = [fence] := by
    rw [fromFence, beforeFence_concat, List.drop_left]
  rw [upsertSummaryProvenance, stamp]
  by_cases haliases : "aliases" ∈ header.map Entry.key
  · have hrender := upsertLoop_render h hnodup [fence] hlast
    rw [if_pos (hmem.mpr haliases), if_pos haliases, lines_fenced h, List.cons_append, hfirst, hrender,
      ← joined_eq_intercalate_append (List.cons_ne_nil _ _), fenced_eq, List.cons_append]
  · have hrender := upsertLoop_render_of_done h (Or.inr haliases) [fence] (hlast false)
    rw [if_neg (mt hmem.mp haliases), if_neg haliases, lines_fenced h, List.cons_append, hfirst, hrender,
      ← List.cons_append, beforeFence_concat, hdrop, provenance_eq, render_append, fenced_eq,
      ← joined_eq_intercalate_append (List.append_ne_nil_of_right_ne_nil _ (List.cons_ne_nil _ _))]
    simp only [List.append_assoc, List.cons_append]

end Upsert

/-! ### Headers under rewrites -/

theorem tagsEntry_ok (tags : List String) : (tagsEntry tags).Ok :=
  Entry.ok_list (by decide) (by decide) fun h => absurd h (by decide)

theorem provenanceEntries_ok : Ok provenanceEntries := by
  intro e he
  rcases List.mem_pair.mp he with rfl | rfl
  · exact Entry.ok_scalar (by decide) (by decide) (clean_yamlScalar _)
  · exact Entry.ok_scalar (by decide) (by decide) ⟨by decide, by decide⟩

theorem perm_beforeAliases {header : List Entry} (hnodup : (header.map Entry.key).Nodup)
    (haliases : "aliases" ∈ header.map Entry.key) :
    (header.flatMap beforeAliases).Perm (header ++ provenanceEntries) := by
  induction header with
  | nil => exact absurd haliases List.not_mem_nil
  | cons e header ih =>
      obtain ⟨hnew, hnodup⟩ := List.nodup_cons.mp hnodup
      rw [List.flatMap_cons, beforeAliases]
      by_cases hkey : e.key = "aliases"
      · rw [if_pos hkey, flatMap_beforeAliases (hkey ▸ hnew), List.append_assoc, List.singleton_append]
        exact List.perm_append_comm
      · have hmore := (List.mem_cons.mp haliases).resolve_left (Ne.symm hkey)
        rw [if_neg hkey, List.singleton_append, List.cons_append]
        exact (ih hnodup hmore).cons e

/-- Wherever it goes, the current provenance takes the place of the old one. -/
theorem perm_stamp {header : List Entry} (hnodup : (header.map Entry.key).Nodup) :
    (stamp header).Perm (header.filter (fun e => e.key ∉ provenanceKeys) ++ provenanceEntries) := by
  rw [stamp]
  split_ifs with haliases
  · refine perm_beforeAliases (hnodup.sublist (List.filter_sublist.map _)) ?_
    obtain ⟨e, he, hkey⟩ := List.mem_map.mp haliases
    refine List.mem_map.mpr ⟨e, List.mem_filter.mpr ⟨he, decide_eq_true ?_⟩, hkey⟩
    rw [hkey]
    decide
  · exact List.Perm.refl _

/-- What a header must be for the rewrites: entries of the right form, each key once, and tags. -/
structure Wellformed (header : List Entry) : Prop where
  ok : Ok header
  nodup : (header.map Entry.key).Nodup
  tags : "tags" ∈ header.map Entry.key

namespace Wellformed

variable {header : List Entry}

theorem setTags (h : Wellformed header) (tags : List String) : Wellformed (setTags tags header) := by
  have hkeys : ((header.filter fun e => e.key ≠ "tags").map Entry.key).Nodup :=
    h.nodup.sublist (List.filter_sublist.map _)
  have hnone : "tags" ∉ (header.filter fun e => e.key ≠ "tags").map Entry.key := by
    intro hmem
    obtain ⟨e, he, hkey⟩ := List.mem_map.mp hmem
    exact absurd hkey (of_decide_eq_true (List.mem_filter.mp he).2)
  refine ⟨fun e he => ?_, ?_, ?_⟩
  · rcases List.mem_append.mp he with hold | hnew
    · exact h.ok e (List.mem_filter.mp hold).1
    · rw [List.mem_singleton.mp hnew]
      exact tagsEntry_ok tags
  · rw [Content.setTags, List.map_append]
    refine List.nodup_append.mpr ⟨hkeys, List.nodup_singleton _, fun key hkey other hother => ?_⟩
    rw [List.mem_singleton.mp hother]
    rintro rfl
    exact hnone hkey
  · rw [Content.setTags, List.map_append]
    exact List.mem_append_right _ (List.mem_singleton_self _)

theorem stamp (h : Wellformed header) : Wellformed (stamp header) := by
  have hperm := perm_stamp h.nodup
  refine ⟨fun e he => ?_, ?_, ?_⟩
  · rcases List.mem_append.mp (hperm.mem_iff.mp he) with hold | hnew
    · exact h.ok e (List.mem_filter.mp hold).1
    · exact provenanceEntries_ok e hnew
  · refine ((hperm.map Entry.key).nodup_iff).mpr ?_
    rw [List.map_append]
    refine List.nodup_append.mpr ⟨h.nodup.sublist (List.filter_sublist.map _), by decide, ?_⟩
    intro key hkey other hother heq
    obtain ⟨e, he, rfl⟩ := List.mem_map.mp hkey
    exact of_decide_eq_true (List.mem_filter.mp he).2 (heq ▸ hother)
  · obtain ⟨e, he, hkey⟩ := List.mem_map.mp h.tags
    refine List.mem_map.mpr ⟨e, hperm.mem_iff.mpr (List.mem_append_left _ (List.mem_filter.mpr ⟨he, ?_⟩)), hkey⟩
    rw [hkey]
    decide

theorem tagsEntry_mem_setTags (tags : List String) : tagsEntry tags ∈ Content.setTags tags header :=
  List.mem_append_right _ (List.mem_singleton_self _)

theorem mem_stamp (h : Wellformed header) {e : Entry} (hkey : e.key ∉ provenanceKeys) :
    e ∈ Content.stamp header ↔ e ∈ header := by
  have hnone : e ∉ provenanceEntries := fun hmem => by
    rcases List.mem_pair.mp hmem with rfl | rfl
    · exact hkey (by decide)
    · exact hkey (by decide)
  rw [(perm_stamp h.nodup).mem_iff, List.mem_append, List.mem_filter, or_iff_left hnone]
  exact and_iff_left (decide_eq_true hkey)

theorem mem_stamp_provenance (h : Wellformed header) {e : Entry} (hkey : e.key ∈ provenanceKeys) :
    e ∈ Content.stamp header ↔ e ∈ provenanceEntries := by
  rw [(perm_stamp h.nodup).mem_iff, List.mem_append, List.mem_filter]
  refine or_iff_right fun hold => ?_
  exact of_decide_eq_true hold.2 hkey

/-- A rewrite of the tags leaves every other value. -/
theorem valueAt_setTags (h : Wellformed header) (tags : List String) {key : String} (hkey : key ≠ "tags") :
    valueAt (Content.setTags tags header) key = valueAt header key := by
  refine valueAt_congr (h.setTags tags).nodup h.nodup fun e he => ?_
  have hne : e.key ≠ "tags" := he ▸ hkey
  rw [Content.setTags, List.mem_append, List.mem_filter, List.mem_singleton]
  constructor
  · intro hmem
    rcases hmem with hold | rfl
    · exact hold.1
    · exact absurd rfl hne
  · exact fun hmem => Or.inl ⟨hmem, decide_eq_true hne⟩

theorem valueAt_stamp (h : Wellformed header) (key : String) : valueAt (Content.stamp header) key =
    if key ∈ provenanceKeys then valueAt provenanceEntries key else valueAt header key := by
  split_ifs with hkey
  · exact valueAt_congr h.stamp.nodup (by decide) fun e he => h.mem_stamp_provenance (he ▸ hkey)
  · exact valueAt_congr h.stamp.nodup h.nodup fun e he => h.mem_stamp (he ▸ hkey)

end Wellformed

/-- `rewrite_summary_tags` on a file with a header in which the tags stand. -/
theorem rewriteSummaryTags_fenced {header : List Entry} (h : Wellformed header) (body : List Char)
    (tags : List String) :
    rewriteSummaryTags (fenced (render header) ++ body) tags =
      .ok (fenced (render (stamp (setTags tags header))) ++ body) := by
  have hset := h.setTags tags
  have hne : setTags tags header ≠ [] := List.append_ne_nil_of_right_ne_nil _ (List.cons_ne_nil _ _)
  rw [rewriteSummaryTags, rewriteTags_fenced h.ok h.tags]
  dsimp only
  rw [splitFrontMatter_fenced hset.ok hne]
  dsimp only
  rw [upsert_fenced hset.ok hset.nodup]

/-! ### Repeated rewrites -/

theorem setTags_of_mem {header : List Entry} (tags : List String) (h : ∀ e ∈ header, e.key ≠ "tags") (more : List Entry)
    (hmore : ∀ e ∈ more, e.key ≠ "tags") :
    setTags tags (header ++ [tagsEntry tags] ++ more) = header ++ more ++ [tagsEntry tags] := by
  have hkeep (l : List Entry) (hl : ∀ e ∈ l, e.key ≠ "tags") : l.filter (fun e => e.key ≠ "tags") = l :=
    List.filter_eq_self.mpr fun e he => decide_eq_true (hl e he)
  have hcut : [tagsEntry tags].filter (fun e => e.key ≠ "tags") = [] := rfl
  rw [setTags, List.filter_append, List.filter_append, hkeep header h, hkeep more hmore, hcut, List.append_nil]

theorem setTags_setTags (tags : List String) (header : List Entry) :
    setTags tags (setTags tags header) = setTags tags header := by
  have hkeys : ∀ e ∈ header.filter (fun e => e.key ≠ "tags"), e.key ≠ "tags" := fun e he =>
    of_decide_eq_true (List.mem_filter.mp he).2
  have hset := setTags_of_mem tags hkeys [] (fun e he => absurd he List.not_mem_nil)
  rw [List.append_nil, List.append_nil] at hset
  exact hset

theorem filter_beforeAliases {header : List Entry} (h : ∀ e ∈ header, e.key ∉ provenanceKeys) :
    (header.flatMap beforeAliases).filter (fun e => e.key ∉ provenanceKeys) = header := by
  induction header with
  | nil => rfl
  | cons e header ih =>
      obtain ⟨he, hheader⟩ := List.forall_mem_cons.mp h
      have hself : (beforeAliases e).filter (fun e => e.key ∉ provenanceKeys) = [e] := by
        have hcut : provenanceEntries.filter (fun e => e.key ∉ provenanceKeys) = [] := by decide
        have hone : [e].filter (fun e => e.key ∉ provenanceKeys) = [e] := List.filter_cons_of_pos (decide_eq_true he)
        rw [beforeAliases]
        split_ifs
        · rw [List.filter_append, hcut, hone, List.nil_append]
        · exact hone
      rw [List.flatMap_cons, List.filter_append, hself, ih hheader, List.singleton_append]

/-- A stamped header with the tags at its end or before the provenance is what a second rewrite gives. -/
theorem stamp_setTags_stamp (tags : List String) (header : List Entry) :
    stamp (setTags tags (stamp (setTags tags header))) = stamp (setTags tags header) := by
  let kept := (header.filter fun e => e.key ≠ "tags").filter fun e => e.key ∉ provenanceKeys
  have hkept : ∀ e ∈ kept, e.key ≠ "tags" ∧ e.key ∉ provenanceKeys := fun e he => by
    obtain ⟨hmem, hprovenance⟩ := List.mem_filter.mp he
    exact ⟨of_decide_eq_true (List.mem_filter.mp hmem).2, of_decide_eq_true hprovenance⟩
  have htags : [tagsEntry tags].filter (fun e => e.key ∉ provenanceKeys) = [tagsEntry tags] := rfl
  have hbefore : [tagsEntry tags].flatMap beforeAliases = [tagsEntry tags] := rfl
  have hset : (setTags tags header).filter (fun e => e.key ∉ provenanceKeys) = kept ++ [tagsEntry tags] := by
    rw [setTags, List.filter_append, htags]
  by_cases haliases : "aliases" ∈ (setTags tags header).map Entry.key
  · have hstamp : stamp (setTags tags header) = kept.flatMap beforeAliases ++ [tagsEntry tags] := by
      rw [stamp, if_pos haliases, hset, List.flatMap_append, hbefore]
    have hmem : "aliases" ∈ kept.map Entry.key := by
      obtain ⟨e, he, hkey⟩ := List.mem_map.mp haliases
      rcases List.mem_append.mp he with hold | hnew
      · exact List.mem_map.mpr ⟨e, List.mem_filter.mpr ⟨hold, decide_eq_true (by rw [hkey]; decide)⟩, hkey⟩
      · rw [List.mem_singleton.mp hnew] at hkey
        have htag : "tags" = "aliases" := hkey
        exact absurd htag (by decide)
    have hnone : ∀ e ∈ kept.flatMap beforeAliases, e.key ≠ "tags" := by
      intro e he
      obtain ⟨e', he', hin⟩ := List.mem_flatMap.mp he
      rw [beforeAliases] at hin
      split_ifs at hin
      · rcases List.mem_append.mp hin with hprovenance | hself
        · rcases List.mem_pair.mp hprovenance with rfl | rfl
          · decide
          · decide
        · exact List.mem_singleton.mp hself ▸ (hkept e' he').1
      · exact List.mem_singleton.mp hin ▸ (hkept e' he').1
    have hagain := setTags_of_mem tags hnone [] (fun e he => absurd he List.not_mem_nil)
    rw [List.append_nil, List.append_nil] at hagain
    have hstill : "aliases" ∈ (kept.flatMap beforeAliases ++ [tagsEntry tags]).map Entry.key := by
      obtain ⟨e, he, hkey⟩ := List.mem_map.mp hmem
      refine List.mem_map.mpr ⟨e, List.mem_append_left _ (List.mem_flatMap.mpr ⟨e, he, ?_⟩), hkey⟩
      rw [beforeAliases, if_pos hkey]
      exact List.mem_append_right _ (List.mem_singleton_self e)
    rw [hstamp, hagain, stamp, if_pos hstill, List.filter_append, htags, List.flatMap_append, hbefore,
      filter_beforeAliases fun e he => (hkept e he).2]
  · have hstamp : stamp (setTags tags header) = kept ++ [tagsEntry tags] ++ provenanceEntries := by
      rw [stamp, if_neg haliases, hset]
    have hagain := setTags_of_mem tags (fun e he => (hkept e he).1) provenanceEntries (by decide)
    have hstill : "aliases" ∉ (kept ++ provenanceEntries ++ [tagsEntry tags]).map Entry.key := by
      rw [List.map_append, List.map_append, List.mem_append, List.mem_append]
      rintro ((hold | hprovenance) | htag)
      · refine haliases ?_
        rw [setTags, List.map_append]
        exact List.mem_append_left _ ((List.filter_sublist.map _).subset hold)
      · exact absurd hprovenance (by decide)
      · have heq : "aliases" = "tags" := List.mem_singleton.mp htag
        exact absurd heq (by decide)
    have hcut : provenanceEntries.filter (fun e => e.key ∉ provenanceKeys) = [] := by decide
    have hkeep : kept.filter (fun e => e.key ∉ provenanceKeys) = kept :=
      List.filter_eq_self.mpr fun e he => decide_eq_true (hkept e he).2
    rw [hstamp, hagain, stamp, if_neg hstill, List.filter_append, List.filter_append, hcut, htags, hkeep,
      List.append_nil]

end TinyCortex.Content
