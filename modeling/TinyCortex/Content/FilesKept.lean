import TinyCortex.Content.TagRewrites

/-! Content files keep their body, their values and one block of tags under every run of tag rewrites. -/

namespace TinyCortex.Content

open Lines FrontMatter

/-! ### Headers of chunks and summaries -/

section Headers

variable (chrono : Chrono) (chunk : Chunk) (r : SummaryComposeInput)

def emailEntries : List Entry :=
  if chunk.metadata.sourceKind = .email then
    match parseGmailParticipantsSourceId chunk.metadata.sourceId with
    | some addrs =>
        [⟨"participants", .list addrs⟩, ⟨"aliases", .list [buildParticipantsAlias addrs chunk.seqInSource]⟩]
    | none => []
  else []

def chunkHeader : List Entry :=
  [⟨"source_kind", .scalar chunk.metadata.sourceKind.asStr.toList⟩,
    ⟨"source_id", .scalar (yamlScalar chunk.metadata.sourceId.toList)⟩] ++
  chunk.metadata.pathScope.toList.map (fun pathScope => ⟨"path_scope", .scalar (yamlScalar pathScope.toList)⟩) ++
  [⟨"seq", .scalar (digits chunk.seqInSource)⟩, ⟨"owner", .scalar (yamlScalar chunk.metadata.owner.toList)⟩,
    ⟨"timestamp", .scalar (chrono.toRfc3339 chunk.metadata.timestampMs)⟩,
    ⟨"time_range_start", .scalar (chrono.toRfc3339 chunk.metadata.timeRangeStartMs)⟩,
    ⟨"time_range_end", .scalar (chrono.toRfc3339 chunk.metadata.timeRangeEndMs)⟩] ++
  chunk.metadata.sourceRef.toList.map (fun sr => ⟨"source_ref", .scalar (yamlScalar sr.toList)⟩) ++
  tagsEntry (seededTags chunk) :: emailEntries chunk

def seededSummaryTags : List String := if r.treeKind = .source then [sourceTag r.treeScope] else []

def summaryHeader : List Entry :=
  [⟨"id", .scalar (yamlScalar r.summaryId.toList)⟩, ⟨"kind", .scalar "summary".toList⟩,
    ⟨"tree_kind", .scalar r.treeKind.asStr.toList⟩, ⟨"tree_id", .scalar (yamlScalar r.treeId.toList)⟩,
    ⟨"tree_scope", .scalar (yamlScalar r.treeScope.toList)⟩, ⟨"level", .scalar (digits r.level)⟩,
    ⟨"children", .list (r.childIds.zipIdx.map fun child => wikilink (childBasename r child.2 child.1))⟩,
    ⟨"child_count", .scalar (digits r.childCount)⟩,
    ⟨"time_range_start", .scalar (chrono.toRfc3339 r.timeRangeStart)⟩,
    ⟨"time_range_end", .scalar (chrono.toRfc3339 r.timeRangeEnd)⟩,
    ⟨"sealed_at", .scalar (chrono.toRfc3339 r.sealedAt)⟩] ++
  provenanceEntries ++ [⟨"aliases", .list [buildSummaryAlias chrono r]⟩, tagsEntry (seededSummaryTags r)]

variable {chunk r}

theorem parseGmail_ne_nil {sourceId : String} {addrs : List (List Char)}
    (h : parseGmailParticipantsSourceId sourceId = some addrs) : addrs ≠ [] := by
  obtain ⟨parts, -, hparts⟩ := Option.bind_eq_some_iff.mp h
  dsimp only at hparts
  split_ifs at hparts with hprefixed hnil
  obtain rfl := Option.some.inj hparts
  exact hnil

variable (chunk r)

theorem emailLines_eq : emailLines chunk = render (emailEntries chunk) := by
  unfold emailLines emailEntries
  split_ifs with hkind
  · cases haddrs : parseGmailParticipantsSourceId chunk.metadata.sourceId with
    | none => rfl
    | some addrs =>
        have hparticipants : "participants".toList ++ [':'] = "participants:".toList := by decide
        have haliases : "aliases".toList ++ [':'] = "aliases:".toList := by decide
        dsimp only
        rw [render_cons, render_cons, Entry.lines_list (parseGmail_ne_nil haddrs),
          Entry.lines_list (List.cons_ne_nil _ _), hparticipants, haliases]
        rfl
  · rfl

theorem render_option {α : Type} (o : Option α) (key : String) (text : α → List Char) :
    render (o.toList.map fun a => ⟨key, .scalar (text a)⟩) = o.toList.map fun a => field key (text a) := by
  cases o with
  | none => rfl
  | some a => rfl

theorem chunkLines_eq : chunkLines chrono chunk = render (chunkHeader chrono chunk) := by
  have htags : render (tagsEntry (seededTags chunk) :: emailEntries chunk) =
      ("tags:".toList :: (seededTags chunk).map fun tag => item tag.toList) ++ emailLines chunk := by
    have hne : seededTags chunk ≠ [] := List.cons_ne_nil _ _
    rw [render_cons, tagsEntry_lines hne, emailLines_eq]
    rfl
  rw [chunkHeader, render_append, render_append, render_append, render_append, render_option, render_option, htags,
    chunkLines, List.append_assoc _ (_ :: _) (emailLines chunk)]
  rfl

theorem childrenLines_eq : childrenLines r = (Entry.mk "children" (.list (r.childIds.zipIdx.map fun child =>
    wikilink (childBasename r child.2 child.1)))).lines := by
  rw [childrenLines]
  split_ifs with hnil
  · rw [hnil]
    show ["children: []".toList] = ["children".toList ++ [':', ' ', '[', ']']]
    decide
  · have hchildren : "children".toList ++ [':'] = "children:".toList := by decide
    rw [Entry.lines_list (by simpa using hnil), hchildren, List.map_map]
    rfl

theorem summaryLines_eq : summaryLines chrono r = render (summaryHeader chrono r) := by
  have haliases : (Entry.mk "aliases" (.list [buildSummaryAlias chrono r])).lines =
      ["aliases:".toList, item (buildSummaryAlias chrono r)] := by
    have hhead : "aliases".toList ++ [':'] = "aliases:".toList := by decide
    rw [Entry.lines_list (List.cons_ne_nil _ _), hhead]
    rfl
  have htags : (tagsEntry (seededSummaryTags r)).lines =
      if r.treeKind = .source then [tagsHead, item (sourceTag r.treeScope).toList] else [tagsEmpty] := by
    rw [seededSummaryTags]
    split_ifs with hkind
    · exact tagsEntry_lines (List.cons_ne_nil _ _)
    · show ["tags".toList ++ [':', ' ', '[', ']']] = [tagsEmpty]
      decide
  rw [summaryLines, ← htags, ← haliases, childrenLines_eq, provenance_eq, summaryHeader, render_append, render_append]
  simp only [render, List.flatMap_cons, List.flatMap_nil, Entry.lines_scalar, List.append_assoc, List.cons_append,
    List.nil_append, List.append_nil]

/-! ### They are well formed -/

theorem digits_plain (n : Nat) : Clean (digits n) ∧ readScalar (digits n) = digits n := by
  refine plain_of_forall fun c hc => ?_
  have hdigit : c.isDigit := Nat.isDigit_of_mem_toDigits (by decide) (by decide) hc
  refine ⟨Text.isWhitespace_digit hdigit, ?_⟩
  rintro rfl
  cases hdigit

theorem rfc3339_plain (t : Int) : Clean (chrono.toRfc3339 t) ∧ readScalar (chrono.toRfc3339 t) = chrono.toRfc3339 t :=
  plain_of_forall (chrono.plain t)

theorem sourceKind_plain (kind : Chunks.SourceKind) :
    Clean kind.asStr.toList ∧ readScalar kind.asStr.toList = kind.asStr.toList := by
  cases kind with
  | _ => exact plain_of_forall (by decide)

theorem treeKind_plain (kind : SummaryTreeKind) :
    Clean kind.asStr.toList ∧ readScalar kind.asStr.toList = kind.asStr.toList := by
  cases kind with
  | _ => exact plain_of_forall (by decide)

theorem emailEntries_ok : Ok (emailEntries chunk) := by
  unfold emailEntries
  split_ifs with hkind
  · cases parseGmailParticipantsSourceId chunk.metadata.sourceId with
    | none => exact fun e he => absurd he List.not_mem_nil
    | some addrs =>
        intro e he
        rcases List.mem_pair.mp he with rfl | rfl
        · exact Entry.ok_list (by decide) (by decide) fun h => absurd h (by decide)
        · exact Entry.ok_list (by decide) (by decide) fun _ => List.cons_ne_nil _ _
  · exact fun e he => absurd he List.not_mem_nil

theorem emailEntries_keys : ((emailEntries chunk).map Entry.key).Sublist ["participants", "aliases"] := by
  unfold emailEntries
  split_ifs with hkind
  · cases parseGmailParticipantsSourceId chunk.metadata.sourceId with
    | none => exact List.nil_sublist _
    | some addrs => exact List.Sublist.refl _
  · exact List.nil_sublist _

theorem option_keys {α : Type} (o : Option α) (key : String) (text : α → List Char) :
    ((o.toList.map fun a => Entry.mk key (.scalar (text a))).map Entry.key).Sublist [key] := by
  cases o with
  | none => exact List.nil_sublist _
  | some a => exact List.Sublist.refl _

def chunkKeys : List String :=
  ["source_kind", "source_id"] ++ ["path_scope"] ++
    ["seq", "owner", "timestamp", "time_range_start", "time_range_end"] ++ ["source_ref"] ++
    ("tags" :: ["participants", "aliases"])

theorem chunkHeader_keys : ((chunkHeader chrono chunk).map Entry.key).Sublist chunkKeys := by
  simp only [chunkHeader, List.map_append, List.map_cons]
  refine List.Sublist.append (List.Sublist.append (List.Sublist.append (List.Sublist.append ?_ ?_) ?_) ?_) ?_
  · exact List.Sublist.refl _
  · exact option_keys _ _ _
  · exact List.Sublist.refl _
  · exact option_keys _ _ _
  · exact (emailEntries_keys chunk).cons_cons _

theorem chunkHeader_wellformed : Wellformed (chunkHeader chrono chunk) where
  nodup := (by decide : chunkKeys.Nodup).sublist (chunkHeader_keys chrono chunk)
  tags := by simp [chunkHeader, tagsEntry]
  ok := by
    have hscalar (key : String) (hkey : KeyOk key ∧ key ∉ listKeys) {text : List Char} (h : Clean text) :
        (Entry.mk key (.scalar text)).Ok := Entry.ok_scalar hkey.1 hkey.2 h
    have hoption (o : Option String) (key : String) (hkey : KeyOk key ∧ key ∉ listKeys) :
        Ok (o.toList.map fun v => ⟨key, .scalar (yamlScalar v.toList)⟩) := fun e he => by
      obtain ⟨v, -, rfl⟩ := List.mem_map.mp he
      exact hscalar key hkey (clean_yamlScalar _)
    refine List.forall_mem_append.mpr ⟨List.forall_mem_append.mpr ⟨List.forall_mem_append.mpr
      ⟨List.forall_mem_append.mpr ⟨?_, hoption _ _ (by decide)⟩, ?_⟩, hoption _ _ (by decide)⟩, ?_⟩
    · exact List.forall_mem_cons.mpr ⟨hscalar _ (by decide) (sourceKind_plain _).1,
        List.forall_mem_singleton.mpr (hscalar _ (by decide) (clean_yamlScalar _))⟩
    · refine List.forall_mem_cons.mpr ⟨hscalar _ (by decide) (digits_plain _).1, List.forall_mem_cons.mpr
        ⟨hscalar _ (by decide) (clean_yamlScalar _), List.forall_mem_cons.mpr ⟨?_, List.forall_mem_cons.mpr
          ⟨?_, List.forall_mem_singleton.mpr ?_⟩⟩⟩⟩
      · exact hscalar _ (by decide) (rfc3339_plain chrono _).1
      · exact hscalar _ (by decide) (rfc3339_plain chrono _).1
      · exact hscalar _ (by decide) (rfc3339_plain chrono _).1
    · exact List.forall_mem_cons.mpr ⟨tagsEntry_ok _, emailEntries_ok chunk⟩

theorem summaryHeader_wellformed : Wellformed (summaryHeader chrono r) where
  nodup := by
    show (["id", "kind", "tree_kind", "tree_id", "tree_scope", "level", "children", "child_count", "time_range_start",
      "time_range_end", "sealed_at", "openhuman_core_version", "memory_artifact_format", "aliases", "tags"]).Nodup
    decide
  tags := by simp [summaryHeader, tagsEntry]
  ok := by
    have hscalar (key : String) (hkey : KeyOk key ∧ key ∉ listKeys) {text : List Char} (h : Clean text) :
        (Entry.mk key (.scalar text)).Ok := Entry.ok_scalar hkey.1 hkey.2 h
    refine List.forall_mem_append.mpr ⟨List.forall_mem_append.mpr ⟨?_, provenanceEntries_ok⟩, ?_⟩
    · simp only [List.forall_mem_cons, List.not_mem_nil, false_implies, implies_true, and_true]
      refine ⟨?_, ?_, ?_, ?_, ?_, ?_, ?_, ?_, ?_, ?_, ?_⟩
      · exact hscalar _ (by decide) (clean_yamlScalar _)
      · exact hscalar _ (by decide) (plain_of_forall (by decide)).1
      · exact hscalar _ (by decide) (treeKind_plain _).1
      · exact hscalar _ (by decide) (clean_yamlScalar _)
      · exact hscalar _ (by decide) (clean_yamlScalar _)
      · exact hscalar _ (by decide) (digits_plain _).1
      · exact Entry.ok_list (by decide) (by decide) fun h => absurd h (by decide)
      · exact hscalar _ (by decide) (digits_plain _).1
      · exact hscalar _ (by decide) (rfc3339_plain chrono _).1
      · exact hscalar _ (by decide) (rfc3339_plain chrono _).1
      · exact hscalar _ (by decide) (rfc3339_plain chrono _).1
    · refine List.forall_mem_cons.mpr ⟨?_, List.forall_mem_singleton.mpr (tagsEntry_ok _)⟩
      exact Entry.ok_list (by decide) (by decide) fun _ => List.cons_ne_nil _ _

/-! ### Their values -/

def chunkFields : List (String × Option (List Char)) :=
  [("source_kind", some chunk.metadata.sourceKind.asStr.toList), ("source_id", some chunk.metadata.sourceId.toList),
    ("path_scope", chunk.metadata.pathScope.map String.toList), ("seq", some (digits chunk.seqInSource)),
    ("owner", some chunk.metadata.owner.toList),
    ("timestamp", some (chrono.toRfc3339 chunk.metadata.timestampMs)),
    ("time_range_start", some (chrono.toRfc3339 chunk.metadata.timeRangeStartMs)),
    ("time_range_end", some (chrono.toRfc3339 chunk.metadata.timeRangeEndMs)),
    ("source_ref", chunk.metadata.sourceRef.map String.toList)]

def summaryFields : List (String × Option (List Char)) :=
  [("id", some r.summaryId.toList), ("kind", some "summary".toList), ("tree_kind", some r.treeKind.asStr.toList),
    ("tree_id", some r.treeId.toList), ("tree_scope", some r.treeScope.toList), ("level", some (digits r.level)),
    ("child_count", some (digits r.childCount)), ("time_range_start", some (chrono.toRfc3339 r.timeRangeStart)),
    ("time_range_end", some (chrono.toRfc3339 r.timeRangeEnd)), ("sealed_at", some (chrono.toRfc3339 r.sealedAt)),
    ("openhuman_core_version", some openhumanCoreVersion.toList),
    ("memory_artifact_format", some (digits memoryArtifactFormat))]

/-- The value of a scalar entry that reads as it is meant. -/
theorem valueAt_of_mem {header : List Entry} (h : Wellformed header) {key : String} {text v : List Char}
    (hmem : ⟨key, .scalar text⟩ ∈ header) (hread : readScalar text = v) : valueAt header key = some v := by
  rw [valueAt_scalar h.nodup hmem, hread]

theorem chunk_values : ∀ f ∈ chunkFields chrono chunk, valueAt (chunkHeader chrono chunk) f.1 = f.2 := by
  have h := chunkHeader_wellformed chrono chunk
  have hemail (key : String) (hkey : key ∉ ["participants", "aliases"]) : key ∉ (emailEntries chunk).map Entry.key :=
    fun hmem => hkey ((emailEntries_keys chunk).subset hmem)
  simp only [chunkFields, List.forall_mem_cons, List.not_mem_nil, false_implies, implies_true, and_true]
  refine ⟨?_, ?_, ?_, ?_, ?_, ?_, ?_, ?_, ?_⟩
  · exact valueAt_of_mem h (by simp [chunkHeader]) (sourceKind_plain _).2
  · exact valueAt_of_mem h (by simp [chunkHeader]) (readScalar_yamlScalar _)
  · cases hscope : chunk.metadata.pathScope with
    | none =>
        have hnone := hemail "path_scope" (by decide)
        refine valueAt_eq_none ?_
        rw [chunkHeader, List.map_append, List.map_cons, List.mem_append, List.mem_cons, not_or, not_or]
        exact ⟨by simp [hscope], (by decide : "path_scope" ≠ "tags"), hnone⟩
    | some scope => exact valueAt_of_mem h (by simp [chunkHeader, hscope]) (readScalar_yamlScalar _)
  · exact valueAt_of_mem h (by simp [chunkHeader]) (digits_plain _).2
  · exact valueAt_of_mem h (by simp [chunkHeader]) (readScalar_yamlScalar _)
  · exact valueAt_of_mem h (by simp [chunkHeader]) (rfc3339_plain chrono _).2
  · exact valueAt_of_mem h (by simp [chunkHeader]) (rfc3339_plain chrono _).2
  · exact valueAt_of_mem h (by simp [chunkHeader]) (rfc3339_plain chrono _).2
  · cases href : chunk.metadata.sourceRef with
    | none =>
        have hnone := hemail "source_ref" (by decide)
        refine valueAt_eq_none ?_
        rw [chunkHeader, List.map_append, List.map_cons, List.mem_append, List.mem_cons, not_or, not_or]
        exact ⟨by simp [href], (by decide : "source_ref" ≠ "tags"), hnone⟩
    | some sr => exact valueAt_of_mem h (by simp [chunkHeader, href]) (readScalar_yamlScalar _)

theorem summary_values : ∀ f ∈ summaryFields chrono r, valueAt (summaryHeader chrono r) f.1 = f.2 := by
  have h := summaryHeader_wellformed chrono r
  simp only [summaryFields, List.forall_mem_cons, List.not_mem_nil, false_implies, implies_true, and_true]
  refine ⟨?_, ?_, ?_, ?_, ?_, ?_, ?_, ?_, ?_, ?_, ?_, ?_⟩
  · exact valueAt_of_mem h (by simp [summaryHeader]) (readScalar_yamlScalar _)
  · exact valueAt_of_mem h (by simp [summaryHeader]) (plain_of_forall (by decide)).2
  · exact valueAt_of_mem h (by simp [summaryHeader]) (treeKind_plain _).2
  · exact valueAt_of_mem h (by simp [summaryHeader]) (readScalar_yamlScalar _)
  · exact valueAt_of_mem h (by simp [summaryHeader]) (readScalar_yamlScalar _)
  · exact valueAt_of_mem h (by simp [summaryHeader]) (digits_plain _).2
  · exact valueAt_of_mem h (by simp [summaryHeader]) (digits_plain _).2
  · exact valueAt_of_mem h (by simp [summaryHeader]) (rfc3339_plain chrono _).2
  · exact valueAt_of_mem h (by simp [summaryHeader]) (rfc3339_plain chrono _).2
  · exact valueAt_of_mem h (by simp [summaryHeader]) (rfc3339_plain chrono _).2
  · exact valueAt_of_mem h (by simp [summaryHeader, provenanceEntries]) (readScalar_yamlScalar _)
  · exact valueAt_of_mem h (by simp [summaryHeader, provenanceEntries]) (digits_plain _).2

end Headers

/-! ### Runs of rewrites -/

inductive Rewrite
  | tags (newTags : List String)
  | summaryTags (newTags : List String)

namespace Rewrite

def newTags : Rewrite → List String
  | .tags newTags => newTags
  | .summaryTags newTags => newTags

def apply (content : List Char) : Rewrite → Except String (List Char)
  | .tags newTags => rewriteTags content newTags
  | .summaryTags newTags => rewriteSummaryTags content newTags

/-- What the rewrite does to the header. -/
def header (entries : List Entry) : Rewrite → List Entry
  | .tags newTags => setTags newTags entries
  | .summaryTags newTags => stamp (setTags newTags entries)

end Rewrite

/-- The tags in force after rewrites of a file that had some. -/
def lastTags (tags : List String) (rewrites : List Rewrite) : List String :=
  rewrites.foldl (fun _ rewrite => rewrite.newTags) tags

def readItem (line : Line) : List Char := readScalar (line.drop 4)

/-- The tags that the lines of a front matter list, block by block. -/
def tagBlocks : List Line → List (List (List Char))
  | [] => []
  | line :: rest =>
      if line = tagsEmpty then [] :: tagBlocks rest
      else if line = tagsHead then (rest.takeWhile isItem).map readItem :: tagBlocks rest
      else tagBlocks rest

section Blocks

theorem readItem_item (v : List Char) : readItem (item v) = v := readScalar_yamlScalar v

theorem tagBlocks_items (vs : List (List Char)) (rest : List Line) :
    tagBlocks (vs.map item ++ rest) = tagBlocks rest := by
  induction vs with
  | nil => rfl
  | cons v vs ih =>
      rw [List.map_cons, List.cons_append, tagBlocks, if_neg (item_ne_of_head (by decide)),
        if_neg (item_ne_of_head (by decide)), ih]

theorem takeWhile_items (vs : List (List Char)) {rest : List Line} (hrest : rest.takeWhile isItem = []) :
    (vs.map item ++ rest).takeWhile isItem = vs.map item := by
  induction vs with
  | nil => exact hrest
  | cons v vs ih => rw [List.map_cons, List.cons_append, List.takeWhile_cons_of_pos (isItem_item v), ih]

theorem tagBlocks_render {header : List Entry} (h : Ok header) :
    tagBlocks (render header ++ [fence]) = (header.filter fun e => e.key = "tags").map Entry.items := by
  induction header with
  | nil => decide
  | cons e header ih =>
      obtain ⟨he, hheader⟩ := List.forall_mem_cons.mp h
      have hstop : (render header ++ [fence]).takeWhile isItem = [] := by
        cases header with
        | nil => decide
        | cons next more =>
            have hnext := (hheader next List.mem_cons_self).head_not_item
            rw [render_cons, Entry.lines, List.cons_append, List.cons_append]
            exact List.takeWhile_cons_of_neg (by rw [hnext]; exact Bool.false_ne_true)
      rw [render_cons, Entry.lines, List.append_assoc, List.cons_append, tagBlocks, tagBlocks_items, ih hheader]
      by_cases hkey : e.key = "tags"
      · rw [List.filter_cons_of_pos (by simp [hkey]), List.map_cons]
        obtain ⟨items, hvalue⟩ := he.listed.mpr (by rw [hkey]; decide)
        have hitems : e.items = items := by rw [Entry.items, hvalue]
        cases items with
        | nil =>
            have hempty : e.head = tagsEmpty := by rw [Entry.head, Entry.rest, hvalue, hkey]; rfl
            rw [if_pos hempty, hitems]
        | cons v vs =>
            have hhead : e.head = tagsHead := by rw [Entry.head, Entry.rest, hvalue, hkey]; rfl
            have hread : ((v :: vs).map item).map readItem = v :: vs := by
              rw [List.map_map]
              exact (List.map_congr_left fun v _ => readItem_item v).trans (List.map_id _)
            rw [if_neg (by rw [hhead]; decide), if_pos hhead, hitems, takeWhile_items _ hstop, hread]
      · obtain ⟨hempty, hhead⟩ := not_or.mp (mt (head_eq_tags he).mp hkey)
        rw [if_neg hempty, if_neg hhead, List.filter_cons_of_neg (by simp [hkey])]

end Blocks

/-- What a content file holds: the body behind the front matter, the values of its fields, and one block of tags. -/
structure Says (file body : List Char) (fields : List (String × Option (List Char))) (tags : List String) : Prop where
  split : ∃ fm, splitFrontMatter file = some (fm, body) ∧ file = fm ++ body ∧
    (∀ f ∈ fields, scanFmField fm f.1.toList = f.2) ∧ tagBlocks (lines fm) = [tags.map String.toList]

/-- Under every run of rewrites the file goes on saying the same, with the tags of the last rewrite, which changes
nothing when it is repeated. -/
def KeepsSaying (file body : List Char) (fields : List (String × Option (List Char))) (tags : List String) : Prop :=
  ∀ rewrites : List Rewrite, ∃ rewritten, rewrites.foldlM Rewrite.apply file = .ok rewritten ∧
    Says rewritten body fields (lastTags tags rewrites) ∧
    ∀ rewrite, rewrites.getLast? = some rewrite → rewrite.apply rewritten = .ok rewritten

section Runs

variable {header : List Entry} {body : List Char} {fields : List (String × Option (List Char))} {tags : List String}

/-- The header of a file that says so. -/
structure Carries (header : List Entry) (fields : List (String × Option (List Char))) (tags : List String) : Prop where
  wellformed : Wellformed header
  values : ∀ f ∈ fields, valueAt header f.1 = f.2
  tagged : tagsEntry tags ∈ header

/-- Fields that a rewrite leaves alone: no tags, and the provenance only if it is the current one. -/
def Stable (fields : List (String × Option (List Char))) : Prop :=
  ∀ f ∈ fields, KeyOk f.1 ∧ f.1 ≠ "tags" ∧ (f.1 ∈ provenanceKeys → valueAt provenanceEntries f.1 = f.2)

theorem Rewrite.apply_fenced (h : Wellformed header) (rewrite : Rewrite) :
    rewrite.apply (fenced (render header) ++ body) = .ok (fenced (render (rewrite.header header)) ++ body) := by
  cases rewrite with
  | tags newTags => exact rewriteTags_fenced h.ok h.tags body newTags
  | summaryTags newTags => exact rewriteSummaryTags_fenced h body newTags

theorem Rewrite.header_header (rewrite : Rewrite) (entries : List Entry) :
    rewrite.header (rewrite.header entries) = rewrite.header entries := by
  cases rewrite with
  | tags newTags => exact setTags_setTags newTags entries
  | summaryTags newTags => exact stamp_setTags_stamp newTags entries

theorem Carries.rewrite (h : Carries header fields tags) (hstable : Stable fields) (rewrite : Rewrite) :
    Carries (rewrite.header header) fields rewrite.newTags := by
  have hset : Carries (setTags rewrite.newTags header) fields rewrite.newTags := by
    refine ⟨h.wellformed.setTags _, fun f hf => ?_, Wellformed.tagsEntry_mem_setTags _⟩
    rw [h.wellformed.valueAt_setTags _ (hstable f hf).2.1, h.values f hf]
  cases rewrite with
  | tags newTags => exact hset
  | summaryTags newTags =>
      refine ⟨hset.wellformed.stamp, fun f hf => ?_, ?_⟩
      · refine (hset.wellformed.valueAt_stamp f.1).trans ?_
        split_ifs with hkey
        · exact (hstable f hf).2.2 hkey
        · exact hset.values f hf
      · exact (hset.wellformed.mem_stamp (by decide : "tags" ∉ provenanceKeys)).mpr hset.tagged

/-- A key that stands once has one entry. -/
theorem filter_key {e : Entry} (hnodup : (header.map Entry.key).Nodup) (he : e ∈ header) :
    (header.filter fun other => other.key = e.key) = [e] := by
  obtain ⟨above, below, rfl⟩ := List.append_of_mem he
  rw [List.map_append, List.map_cons, List.nodup_append, List.nodup_cons] at hnodup
  obtain ⟨-, ⟨hbelow, -⟩, habove⟩ := hnodup
  have hnone (l : List Entry) (hl : ∀ other ∈ l, other.key ≠ e.key) : l.filter (fun other => other.key = e.key) = [] :=
    List.filter_eq_nil_iff.mpr fun other hother => by simpa using hl other hother
  rw [List.filter_append, List.filter_cons_of_pos (by simp), hnone above, hnone below, List.nil_append]
  · exact fun other hother heq => hbelow (heq ▸ List.mem_map_of_mem hother)
  · exact fun other hother => habove _ (List.mem_map_of_mem hother) _ List.mem_cons_self

theorem Carries.says (h : Carries header fields tags) (hstable : Stable fields) (body : List Char) :
    Says (fenced (render header) ++ body) body fields tags := by
  have hok := h.wellformed.ok
  have hne : header ≠ [] := List.ne_nil_of_mem h.tagged
  refine ⟨fenced (render header), splitFrontMatter_fenced hok hne body, rfl, fun f hf => ?_, ?_⟩
  · rw [scanFmField_fenced hok (hstable f hf).1, h.values f hf]
  · have hfence (rest : List Line) : tagBlocks (fence :: rest) = tagBlocks rest := by
      rw [tagBlocks, if_neg (by decide), if_neg (by decide)]
    have htags := filter_key h.wellformed.nodup h.tagged
    rw [lines_fenced hok, List.cons_append, hfence, tagBlocks_render hok]
    exact congrArg (List.map Entry.items) htags

theorem Carries.keepsSaying (h : Carries header fields tags) (hstable : Stable fields) (body : List Char) :
    KeepsSaying (fenced (render header) ++ body) body fields tags := by
  intro rewrites
  have hrun : ∃ final, rewrites.foldlM Rewrite.apply (fenced (render header) ++ body) =
        .ok (fenced (render final) ++ body) ∧ Carries final fields (lastTags tags rewrites) ∧
      ∀ rewrite, rewrites.getLast? = some rewrite → rewrite.header final = final := by
    induction rewrites using List.reverseRecOn with
    | nil => exact ⟨header, rfl, h, fun _ hlast => by cases hlast⟩
    | append_singleton rewrites rewrite ih =>
        obtain ⟨final, hfold, hfinal, -⟩ := ih
        refine ⟨rewrite.header final, ?_, ?_, fun other hlast => ?_⟩
        · rw [List.foldlM_append, hfold]
          exact (bind_pure _).trans (rewrite.apply_fenced hfinal.wellformed)
        · rw [lastTags, List.foldl_append]
          exact hfinal.rewrite hstable rewrite
        · rw [List.getLast?_concat] at hlast
          obtain rfl := Option.some.inj hlast
          exact rewrite.header_header final
  obtain ⟨final, hfold, hfinal, hlast⟩ := hrun
  refine ⟨_, hfold, hfinal.says hstable body, fun rewrite hrewrite => ?_⟩
  rw [rewrite.apply_fenced hfinal.wellformed, hlast rewrite hrewrite]

end Runs

theorem chunk_carries (chrono : Chrono) (chunk : Chunk) :
    Carries (chunkHeader chrono chunk) (chunkFields chrono chunk) (seededTags chunk) :=
  ⟨chunkHeader_wellformed chrono chunk, chunk_values chrono chunk, by simp [chunkHeader]⟩

theorem summary_carries (chrono : Chrono) (r : SummaryComposeInput) :
    Carries (summaryHeader chrono r) (summaryFields chrono r) (seededSummaryTags r) :=
  ⟨summaryHeader_wellformed chrono r, summary_values chrono r, by simp [summaryHeader]⟩

theorem chunkFields_stable (chrono : Chrono) (chunk : Chunk) : Stable (chunkFields chrono chunk) := by
  have hkeys : ∀ key ∈ ["source_kind", "source_id", "path_scope", "seq", "owner", "timestamp", "time_range_start",
      "time_range_end", "source_ref"], KeyOk key ∧ key ≠ "tags" ∧ key ∉ provenanceKeys := by decide
  intro f hf
  obtain ⟨hkey, htags, hprovenance⟩ := hkeys f.1 (List.mem_map_of_mem (f := Prod.fst) hf)
  exact ⟨hkey, htags, fun hmem => absurd hmem hprovenance⟩

theorem summaryFields_stable (chrono : Chrono) (r : SummaryComposeInput) : Stable (summaryFields chrono r) := by
  have hkeys : ∀ key ∈ ["id", "kind", "tree_kind", "tree_id", "tree_scope", "level", "child_count", "time_range_start",
      "time_range_end", "sealed_at"], KeyOk key ∧ key ≠ "tags" ∧ key ∉ provenanceKeys := by decide
  have hnodup : (provenanceEntries.map Entry.key).Nodup := by decide
  intro f hf
  have hsplit : f ∈ (summaryFields chrono r).take 10 ∨ f ∈ (summaryFields chrono r).drop 10 := by
    rw [← List.mem_append, List.take_append_drop]
    exact hf
  rcases hsplit with hown | hcurrent
  · obtain ⟨hkey, htags, hprovenance⟩ := hkeys f.1 (List.mem_map_of_mem (f := Prod.fst) hown)
    exact ⟨hkey, htags, fun hmem => absurd hmem hprovenance⟩
  · rcases List.mem_pair.mp hcurrent with rfl | rfl
    · refine ⟨by decide, by decide, fun _ => ?_⟩
      rw [valueAt_scalar hnodup List.mem_cons_self, readScalar_yamlScalar]
    · refine ⟨by decide, by decide, fun _ => ?_⟩
      rw [valueAt_scalar hnodup (List.mem_cons_of_mem _ (List.mem_singleton_self _)), (digits_plain _).2]

/-- Chunks and summaries, whatever stands in their texts. -/
theorem files_kept (chrono : Chrono) :
    (∀ chunk, KeepsSaying (composeChunkFile chrono chunk).1 (composeChunkFile chrono chunk).2
      (chunkFields chrono chunk) (seededTags chunk)) ∧
    ∀ r, KeepsSaying (composeSummaryMd chrono r).1 (composeSummaryMd chrono r).2 (summaryFields chrono r)
      (seededSummaryTags r) := by
  constructor
  · intro chunk
    rw [composeChunkFile, buildFrontMatter, chunkLines_eq]
    exact (chunk_carries chrono chunk).keepsSaying (chunkFields_stable chrono chunk) _
  · intro r
    rw [composeSummaryMd, buildSummaryFrontMatter, summaryLines_eq]
    exact (summary_carries chrono r).keepsSaying (summaryFields_stable chrono r) _

end TinyCortex.Content
