import TinyCortex.TimeTree.NodeFile

/-! Time-tree nodes through their files. The header is read line by line, and no value can end it early. -/

namespace TinyCortex.TimeTree.NodeFile

open FirstMatch FrontMatter Lines

/-! ### Scalars -/

/-- A text behind a key that is read as this value. -/
structure Scalar (raw : List Char) (value : String) : Prop where
  ne_nil : raw ≠ []
  trim : trim raw = raw
  newline : '\n' ∉ raw
  value : scalarValue raw = value

theorem scalar_yamlString (s : String) : Scalar (yamlString s) s := by
  have hprintable := JsonString.encode_printable s.toList
  refine ⟨List.cons_ne_nil _ _, ?_, fun hmem => absurd (hprintable _ hmem) (by decide), ?_⟩
  · apply trim_of_ends
    · intro c hc
      obtain rfl := Option.some.inj hc
      decide
    · intro c hc
      rw [yamlString, JsonString.encode, List.getLast?_concat] at hc
      obtain rfl := Option.some.inj hc
      decide
  · rw [scalarValue, yamlString, JsonString.decode_encode, Option.getD_some, String.ofList_toList]

theorem dropWhile_of_not_mem {c : Char} {text : List Char} (h : c ∉ text) : text.dropWhile (· = c) = text := by
  cases text with
  | nil => rfl
  | cons d text =>
      apply List.dropWhile_cons_of_neg
      rw [decide_eq_true_eq]
      rintro rfl
      exact h List.mem_cons_self

theorem trimQuotes_of_not_mem {text : List Char} (h : '"' ∉ text) : trimQuotes text = text := by
  have hreverse : '"' ∉ text.reverse := fun hmem => h (List.mem_reverse.mp hmem)
  rw [trimQuotes, dropWhile_of_not_mem h, List.rdropWhile, dropWhile_of_not_mem hreverse, List.reverse_reverse]

/-- A bare text without blanks and quotes stands for itself. -/
theorem scalar_bare {raw : List Char} (hne : raw ≠ [])
    (h : ∀ c ∈ raw, Text.isWhitespace c = false ∧ c ≠ '"') : Scalar raw (String.ofList raw) := by
  have hquote : '"' ∉ raw := fun hmem => (h _ hmem).2 (Eq.refl _)
  refine ⟨hne, trim_of_forall fun c hc => (h c hc).1, fun hmem => absurd (h _ hmem).1 (by decide), ?_⟩
  have hdecode : JsonString.decode raw = none := by
    rw [← Option.not_isSome_iff_eq_none]
    intro hsome
    obtain ⟨value, hvalue⟩ := Option.isSome_iff_exists.mp hsome
    exact hquote (JsonString.quote_mem_of_decode hvalue)
  rw [scalarValue, hdecode, Option.getD_none, trimQuotes_of_not_mem hquote]

theorem scalar_number (n : Nat) : Scalar (toString n).toList (toString n) := by
  have hchars : (toString n).toList = Nat.toDigits 10 n := Decimal.toList_ofNat n
  have hdigit : ∀ c ∈ (toString n).toList, Text.isWhitespace c = false ∧ c ≠ '"' := by
    intro c hc
    rw [hchars] at hc
    have hd := Nat.isDigit_of_mem_toDigits (by decide) (by decide) hc
    refine ⟨Text.isWhitespace_digit hd, ?_⟩
    rintro rfl
    exact absurd hd (by decide)
  have hbare := scalar_bare (hchars ▸ Nat.toDigits_ne_nil) hdigit
  rwa [String.ofList_toList] at hbare

theorem isWhitespace_alpha {c : Char} (h : c.isAlpha) : Text.isWhitespace c = false ∧ c ≠ '"' := by
  have hrange : 65 ≤ c.toNat ∧ c.toNat ≤ 90 ∨ 97 ≤ c.toNat ∧ c.toNat ≤ 122 := by
    simp only [Char.isAlpha, Char.isUpper, Char.isLower, Bool.or_eq_true, Bool.and_eq_true, decide_eq_true_eq,
      UInt32.le_iff_toNat_le, ge_iff_le] at h
    exact h
  refine ⟨?_, ?_⟩
  · simp only [Text.isWhitespace, Bool.or_eq_false_iff, Bool.and_eq_false_iff, decide_eq_false_iff_not,
      List.contains_eq_mem, List.mem_cons, List.not_mem_nil, or_false]
    omega
  · rintro rfl
    exact absurd h (by decide)

/-! ### Header lines -/

/-- The keys of a header. -/
def keys : List String :=
  ["node_id", "namespace", "level", "parent_id", "token_count", "child_count", "created_at", "updated_at", "metadata"]

theorem keys_plain : ∀ key ∈ keys, key.toList ≠ [] ∧ (∀ c ∈ key.toList, Text.isWhitespace c = false) ∧
    ':' ∉ key.toList ∧ '\n' ∉ key.toList ∧ key.toList.head? ≠ some '-' := by
  decide

theorem trim_headerLine {key : String} (hkey : key ∈ keys) {raw : List Char} {value : String} (h : Scalar raw value) :
    trim (headerLine (key, raw)) = headerLine (key, raw) := by
  obtain ⟨hne, hblank, -⟩ := keys_plain key hkey
  apply trim_of_ends
  · intro c hc
    rw [headerLine, List.head?_append_of_ne_nil _ hne] at hc
    exact hblank c (List.mem_of_head? hc)
  · intro c hc
    rw [headerLine, List.getLast?_append_of_ne_nil _ (List.cons_ne_nil _ _), List.getLast?_cons_cons,
      ← List.singleton_append, List.getLast?_append_of_ne_nil _ h.ne_nil] at hc
    apply isWhitespace_last_trim
    rwa [h.trim]

/-- A line of the header is read as its key and its value. -/
theorem parseHeaderLine_headerLine {key : String} (hkey : key ∈ keys) {raw : List Char} {value : String}
    (h : Scalar raw value) : parseHeaderLine (headerLine (key, raw)) = some (key, value) := by
  obtain ⟨hne, hblank, hcolon, -, -⟩ := keys_plain key hkey
  have hall : ∀ c ∈ key.toList, decide (c ≠ ':') = true := by
    intro c hc
    apply decide_eq_true
    rintro rfl
    exact hcolon hc
  have hmem : ':' ∈ headerLine (key, raw) := List.mem_append_right _ List.mem_cons_self
  have hline : headerLine (key, raw) ≠ [] := List.append_ne_nil_of_right_ne_nil _ (List.cons_ne_nil _ _)
  have htake : (headerLine (key, raw)).takeWhile (· ≠ ':') = key.toList := by
    rw [headerLine, List.takeWhile_append_of_pos hall, List.takeWhile_cons_of_neg (by decide), List.append_nil]
  have hdrop : (headerLine (key, raw)).dropWhile (· ≠ ':') = ':' :: ' ' :: raw := by
    rw [headerLine, List.dropWhile_append_of_pos hall, List.dropWhile_cons_of_neg (by decide)]
  rw [parseHeaderLine, trim_headerLine hkey h, if_neg hline, if_pos hmem, htake, hdrop, trim_of_forall hblank, String.ofList_toList, List.drop_one,
    List.tail_cons, trim_cons_space (by decide), h.trim, h.value]

/-- A header line is one line, does not look like a fence, and ends in no carriage return. -/
theorem headerLine_oneline {key : String} (hkey : key ∈ keys) {raw : List Char} {value : String}
    (h : Scalar raw value) :
    '\n' ∉ headerLine (key, raw) ∧ stripReturn (headerLine (key, raw)) = headerLine (key, raw) ∧
      ∀ tail, ¬"---".toList <+: headerLine (key, raw) ++ '\n' :: tail := by
  obtain ⟨hne, -, -, hnewline, hdash⟩ := keys_plain key hkey
  refine ⟨fun hmem => ?_, ?_, fun tail hpre => ?_⟩
  · rcases List.mem_append.mp hmem with hmem | hmem
    · exact hnewline hmem
    · simp only [List.mem_cons, Char.reduceEq, false_or] at hmem
      exact h.newline hmem
  · apply stripReturn_of_last
    intro hlast
    have hblank : Text.isWhitespace '\r' = false := by
      apply isWhitespace_last_trim
      rwa [trim_headerLine hkey h]
    exact absurd hblank (by decide)
  · obtain ⟨rest, hrest⟩ := hpre
    have hhead := congrArg List.head? hrest
    rw [headerLine, List.append_assoc, List.head?_append_of_ne_nil _ hne] at hhead
    have hfence : ("---".toList ++ rest).head? = some '-' := by
      rw [List.head?_append_of_ne_nil _ (by decide)]
      decide
    exact hdash (hhead.symm.trans hfence)

/-! ### The front matter -/

variable {Level τ : Type} (types : NodeTypes Level) (chrono : Chrono τ)

/-- The values of a header. -/
def values (node : TreeNode Level τ) : List (String × String) :=
  [("node_id", node.nodeId), ("namespace", node.namespaceId), ("level", types.asStr node.level),
    ("parent_id", node.parentId.getD "~"), ("token_count", toString node.tokenCount.toNat),
    ("child_count", toString node.childCount.toNat), ("created_at", String.ofList (chrono.toRfc3339 node.createdAt)),
    ("updated_at", String.ofList (chrono.toRfc3339 node.updatedAt))] ++
    node.metadata.elim [] fun m => [("metadata", m)]

theorem scalar_level (level : Level) : Scalar (types.asStr level).toList (types.asStr level) := by
  obtain ⟨hne, hword⟩ := types.word level
  have hchars : (types.asStr level).toList ≠ [] := fun hnil => hne (String.toList_inj.mp hnil)
  have hbare := scalar_bare hchars fun c hc => isWhitespace_alpha (hword c hc)
  rwa [String.ofList_toList] at hbare

theorem scalar_parent (parentId : Option String) : Scalar (parentId.elim ['~'] yamlString) (parentId.getD "~") := by
  cases parentId with
  | none => exact scalar_bare (List.cons_ne_nil _ _) (by decide)
  | some pid => exact scalar_yamlString pid

/-- An entry is written as a scalar of its value. -/
def Reads (entry : String × List Char) (value : String × String) : Prop :=
  entry.1 = value.1 ∧ entry.1 ∈ keys ∧ Scalar entry.2 value.2

theorem reads_of_scalar {key : String} (hkey : key ∈ keys) {raw : List Char} {value : String} (h : Scalar raw value) :
    Reads (key, raw) (key, value) := ⟨Eq.refl _, hkey, h⟩

/-- Each entry of a header is read as its value. -/
theorem header_reads (node : TreeNode Level τ) :
    List.Forall₂ Reads (header types chrono node) (values types chrono node) := by
  have htime : ∀ t, Scalar (chrono.toRfc3339 t) (String.ofList (chrono.toRfc3339 t)) :=
    fun t => scalar_bare (chrono.plain t).1 (chrono.plain t).2
  have hmetadata : List.Forall₂ Reads (node.metadata.elim [] fun m => [("metadata", yamlString m)])
      (node.metadata.elim [] fun m => [("metadata", m)]) := by
    cases node.metadata with
    | none => exact .nil
    | some m => exact .cons (reads_of_scalar (by decide) (scalar_yamlString m)) .nil
  refine .cons (reads_of_scalar (by decide) (scalar_yamlString _)) ?_
  refine .cons (reads_of_scalar (by decide) (scalar_yamlString _)) ?_
  refine .cons (reads_of_scalar (by decide) (scalar_level types _)) ?_
  refine .cons (reads_of_scalar (by decide) (scalar_parent _)) ?_
  refine .cons (reads_of_scalar (by decide) (scalar_number _)) ?_
  refine .cons (reads_of_scalar (by decide) (scalar_number _)) ?_
  refine .cons (reads_of_scalar (by decide) (htime _)) ?_
  exact .cons (reads_of_scalar (by decide) (htime _)) hmetadata

/-- The lines of a header are read as its values. -/
theorem filterMap_parseHeaderLine {entries : List (String × List Char)} {vs : List (String × String)}
    (h : List.Forall₂ Reads entries vs) : (entries.map headerLine).filterMap parseHeaderLine = vs := by
  induction h with
  | nil => rfl
  | cons hread _ ih =>
      obtain ⟨heq, hkey, hscalar⟩ := hread
      rw [List.map_cons, List.filterMap_cons_some (parseHeaderLine_headerLine hkey hscalar), ih, heq]

theorem oneline_of_reads {entries : List (String × List Char)} {vs : List (String × String)}
    (h : List.Forall₂ Reads entries vs) : ∀ line ∈ entries.map headerLine,
      '\n' ∉ line ∧ stripReturn line = line ∧ ∀ tail, ¬"---".toList <+: line ++ '\n' :: tail := by
  induction h with
  | nil => exact fun _ hmem => absurd hmem List.not_mem_nil
  | cons hread _ ih =>
      obtain ⟨-, hkey, hscalar⟩ := hread
      rw [List.map_cons]
      exact List.forall_mem_cons.mpr ⟨headerLine_oneline hkey hscalar, ih⟩

/-- The block between the fences is read as the values of the header. -/
theorem parse_block {entries : List (String × List Char)} {vs : List (String × String)}
    (h : List.Forall₂ Reads entries vs) (hne : entries ≠ []) :
    (lines ('\n' :: joined '\n' (entries.map headerLine)).dropLast).filterMap parseHeaderLine = vs := by
  have hone := oneline_of_reads h
  have hparse := filterMap_parseHeaderLine h
  obtain ⟨init, last, hlines⟩ := (List.eq_nil_or_concat' (entries.map headerLine)).resolve_left
    fun hnil => hne (List.map_eq_nil_iff.mp hnil)
  rw [hlines] at hone hparse ⊢
  have hlast := hone last (List.mem_append_right _ (List.mem_singleton_self _))
  have hinit : ∀ line ∈ [] :: init, '\n' ∉ line := by
    refine List.forall_mem_cons.mpr ⟨List.not_mem_nil, fun line hline => ?_⟩
    exact (hone line (List.mem_append_left _ hline)).1
  have hstrip : init.map stripReturn = init := by
    conv_rhs => rw [← List.map_id init]
    exact List.map_congr_left fun line hline => (hone line (List.mem_append_left _ hline)).2.1
  have hlastNe : last ≠ [] := by
    rintro rfl
    obtain ⟨entry, -, heq⟩ := List.mem_map.mp (hlines ▸ List.mem_append_right init (List.mem_singleton_self []))
    exact absurd heq (List.append_ne_nil_of_right_ne_nil _ (List.cons_ne_nil _ _))
  rw [dropLast_joined, lines_joined_append hinit hlast.1 hlastNe, List.map_cons, hstrip, List.cons_append]
  exact hparse

/-- The header as a map. -/
def frontmatter (node : TreeNode Level τ) : OrderedMap String String :=
  (values types chrono node).foldl (fun (map : OrderedMap String String) entry => map.insert entry.1 entry.2) []

theorem get_frontmatter (node : TreeNode Level τ) (key : String) :
    (frontmatter types chrono node).get key =
      if "metadata" = key then node.metadata
      else if "updated_at" = key then some (String.ofList (chrono.toRfc3339 node.updatedAt))
      else if "created_at" = key then some (String.ofList (chrono.toRfc3339 node.createdAt))
      else if "child_count" = key then some (toString node.childCount.toNat)
      else if "token_count" = key then some (toString node.tokenCount.toNat)
      else if "parent_id" = key then some (node.parentId.getD "~")
      else if "level" = key then some (types.asStr node.level)
      else if "namespace" = key then some node.namespaceId
      else if "node_id" = key then some node.nodeId
      else none := by
  cases hmeta : node.metadata with
  | none =>
      simp only [frontmatter, values, hmeta, Option.elim_none, List.append_nil, List.foldl_cons, List.foldl_nil,
        OrderedMap.get_insert, OrderedMap.get_nil]
      by_cases hkey : "metadata" = key
      · subst hkey
        simp only [String.reduceEq, if_true, if_false]
      · rw [if_neg hkey]
  | some m =>
      simp only [frontmatter, values, hmeta, Option.elim_some, List.cons_append, List.nil_append, List.foldl_cons,
        List.foldl_nil, OrderedMap.get_insert, OrderedMap.get_nil]

/-- Behind its header a node file has its summary. -/
theorem splitFrontmatter_nodeText (node : TreeNode Level τ) :
    splitFrontmatter (nodeText types chrono node) =
      (frontmatter types chrono node, ('\n' :: '\n' :: (node.summary.toList ++ ['\n'])).dropWhile (· = '\n')) := by
  have hreads := header_reads types chrono node
  have hone := oneline_of_reads hreads
  have htext : nodeText types chrono node = '-' :: '-' :: '-' :: '\n' ::
      (joined '\n' ((header types chrono node).map headerLine) ++
        ("---".toList ++ ('\n' :: '\n' :: (node.summary.toList ++ ['\n'])))) := by
    simp [nodeText]
  have hfence : "\n---".toList = '\n' :: "---".toList := by decide
  have hopen : ∀ rest, "---".toList <+: '-' :: '-' :: '-' :: rest := fun rest => ⟨rest, by simp⟩
  unfold splitFrontmatter
  rw [htext, List.dropWhile_cons_of_neg (by decide), hfence]
  dsimp only
  rw [if_pos (hopen _)]
  simp only [List.drop_succ_cons, List.drop_zero]
  rw [splitOnce_joined (fun line hline => (hone line hline).1) fun line hline => (hone line hline).2.2]
  dsimp only
  rw [parse_block hreads (List.cons_ne_nil _ _), frontmatter]

/-! ### Node ids -/

/-- A valid node id is the root or has digits and slashes only. -/
theorem chars_of_validateNodeId {nodeId : String} (h : validateNodeId nodeId = .ok ()) :
    nodeId = "root" ∨ nodeId.toList ≠ [] ∧ ∀ c ∈ nodeId.toList, c.isDigit ∨ c = '/' := by
  by_cases hroot : nodeId = "root"
  · exact Or.inl hroot
  · right
    have hnone : (nodeId.toList.splitOn '/').zipIdx.findSome? (fun entry => segmentError entry.1 entry.2) = none := by
      cases hfind : (nodeId.toList.splitOn '/').zipIdx.findSome? (fun entry => segmentError entry.1 entry.2) with
      | none => rfl
      | some reason =>
          unfold validateNodeId at h
          dsimp only at h
          rw [if_neg hroot, hfind] at h
          split_ifs at h <;> cases h
    have hsegment : ∀ part ∈ nodeId.toList.splitOn '/', part ≠ [] ∧ part.all Char.isDigit = true := by
      intro part hpart
      obtain ⟨i, hi, hget⟩ := List.mem_iff_getElem.mp hpart
      have herror := List.findSome?_eq_none_iff.mp hnone (part, i)
        (List.mem_zipIdx_iff_getElem?.mpr (by rw [List.getElem?_eq_getElem hi, hget]))
      unfold segmentError at herror
      dsimp only at herror
      split_ifs at herror with hempty hdigits
      exact ⟨hempty, hdigits⟩
    refine ⟨fun hnil => ?_, fun c hc => ?_⟩
    · rw [hnil] at hsegment
      exact (hsegment [] (by decide)).1 (Eq.refl _)
    · have hmem : c ∈ joined '/' (nodeId.toList.splitOn '/') := by
        rw [joined_splitOn]
        exact List.mem_append_left _ hc
      obtain ⟨part, hpart, hline⟩ := List.mem_flatMap.mp hmem
      rcases List.mem_append.mp hline with hin | hsep
      · exact Or.inl (List.all_eq_true.mp (hsegment part hpart).2 c hin)
      · exact Or.inr (List.mem_singleton.mp hsep)

/-- A valid id is read as the parent that it is. -/
theorem parentOf_of_valid {pid : String} (h : validateNodeId pid = .ok ()) : parentOf pid = some pid := by
  rcases chars_of_validateNodeId h with rfl | ⟨hne, hchars⟩
  · decide
  · have hplain : ∀ c ∈ pid.toList, Text.isWhitespace c = false ∧ c ≠ '"' ∧ c ≠ '~' := by
      intro c hc
      rcases hchars c hc with hdigit | rfl
      · refine ⟨Text.isWhitespace_digit hdigit, ?_, ?_⟩
        · rintro rfl
          exact absurd hdigit (by decide)
        · rintro rfl
          exact absurd hdigit (by decide)
      · decide
    have htilde : pid.toList ≠ ['~'] := by
      intro heq
      exact (hplain '~' (heq ▸ List.mem_singleton_self _)).2.2 (Eq.refl _)
    rw [parentOf, trim_of_forall fun c hc => (hplain c hc).1,
      trimQuotes_of_not_mem fun hmem => (hplain _ hmem).2.1 (Eq.refl _), if_neg (not_or.mpr ⟨htilde, hne⟩),
      String.ofList_toList]

/-! ### The node -/

theorem parseU32_toString (n : UInt32) : parseU32 (toString n.toNat) = some n := by
  have hchars : (toString n.toNat).toList = Nat.toDigits 10 n.toNat := Decimal.toList_ofNat n.toNat
  rw [parseU32, hchars, Decimal.parseUnsigned_toDigits n.toNat_lt, Option.map_some, UInt32.ofNat_toNat]

/-- The summary behind the blank line, with the newline at its end taken off. -/
theorem summary_of_body {summary : List Char} (hhead : summary.head? ≠ some '\n')
    (hend : summary.rdropWhile Text.isWhitespace = summary) :
    (('\n' :: '\n' :: (summary ++ ['\n'])).dropWhile (· = '\n')).rdropWhile Text.isWhitespace = summary := by
  rw [List.dropWhile_cons_of_pos (by decide), List.dropWhile_cons_of_pos (by decide)]
  cases summary with
  | nil => decide
  | cons c summary =>
      have hc : c ≠ '\n' := by
        rintro rfl
        exact hhead (Eq.refl _)
      have hdrop : (c :: (summary ++ ['\n'])).dropWhile (· = '\n') = c :: (summary ++ ['\n']) :=
        List.dropWhile_cons_of_neg (by rwa [decide_eq_true_eq])
      rw [List.cons_append, hdrop, ← List.cons_append, List.rdropWhile_concat_pos _ _ _ (by decide), hend]

/-- A node as the tree has it: its level and its parent are those of its id, and the summary starts with no
newline and ends in no blank. -/
structure Placed (node : TreeNode Level τ) : Prop where
  valid : validateNodeId node.nodeId = .ok ()
  level : node.level = types.levelFromNodeId node.nodeId
  parent : node.parentId = types.deriveParentId node.nodeId
  start : node.summary.toList.head? ≠ some '\n'
  stop : Text.trimEnd node.summary = node.summary

variable {types}

/-- What a node is read back as: a timestamp whose year has not four digits is lost. -/
theorem parseNodeMarkdown_nodeText {node : TreeNode Level τ} (h : Placed types node) :
    parseNodeMarkdown types chrono (nodeText types chrono node) node.namespaceId node.nodeId =
      { node with
        createdAt := if chrono.fourDigitYear node.createdAt then node.createdAt else chrono.unixEpoch
        updatedAt := if chrono.fourDigitYear node.updatedAt then node.updatedAt
          else if chrono.fourDigitYear node.createdAt then node.createdAt else chrono.unixEpoch } := by
  have hend' : node.summary.toList.rdropWhile Text.isWhitespace = node.summary.toList := by
    have hchars := congrArg String.toList h.stop
    rwa [Text.trimEnd, String.toList_ofList] at hchars
  have htime : ∀ t, (chrono.parseFromRfc3339 (String.ofList (chrono.toRfc3339 t)).toList) =
      if chrono.fourDigitYear t then some t else none := by
    intro t
    rw [String.toList_ofList, chrono.parse_format]
  have hparentOf : ((parentOf (node.parentId.getD "~")).or (types.deriveParentId node.nodeId)) = node.parentId := by
    rw [← h.parent]
    cases hpid : node.parentId with
    | none => decide
    | some pid =>
        have hpidValid := types.parent_valid _ pid h.valid (h.parent.symm.trans hpid)
        rw [Option.getD_some, parentOf_of_valid hpidValid]
        rfl
  unfold parseNodeMarkdown
  rw [splitFrontmatter_nodeText]
  dsimp only
  rw [summary_of_body h.start hend', String.ofList_toList]
  simp only [get_frontmatter, String.reduceEq, if_true, if_false, Option.bind_some, Option.getD_some, parseU32_toString, types.label, hparentOf,
    htime]
  by_cases hcreated : chrono.fourDigitYear node.createdAt <;> by_cases hupdated : chrono.fourDigitYear node.updatedAt <;>
    simp only [hcreated, hupdated, if_true, if_false, Option.getD_some, Option.getD_none, Bool.false_eq_true]

/-! ### Reading what was written -/

variable {chrono}

def FourDigitYears (chrono : Chrono τ) (node : TreeNode Level τ) : Prop :=
  chrono.fourDigitYear node.createdAt = true ∧ chrono.fourDigitYear node.updatedAt = true

theorem readNode_writeNode (node : TreeNode Level τ) (files : NodeFiles) :
    readNode types chrono (writeNode types chrono node files) node.namespaceId node.nodeId =
      some (parseNodeMarkdown types chrono (nodeText types chrono node) node.namespaceId node.nodeId) := by
  rw [readNode, writeNode, Function.update_self, Option.map_some]

/-- A placed node is read back exactly when both of its timestamps can be. -/
theorem parseNodeMarkdown_nodeText_iff {node : TreeNode Level τ} (h : Placed types node) :
    parseNodeMarkdown types chrono (nodeText types chrono node) node.namespaceId node.nodeId = node ↔
      FourDigitYears chrono node := by
  rw [parseNodeMarkdown_nodeText chrono h]
  constructor
  · intro hsame
    have hcreated := congrArg TreeNode.createdAt hsame
    have hupdated := congrArg TreeNode.updatedAt hsame
    dsimp only at hcreated hupdated
    have hcreatedYear : chrono.fourDigitYear node.createdAt = true := by
      by_contra hyear
      rw [if_neg hyear] at hcreated
      exact hyear (hcreated ▸ chrono.epoch_year)
    refine ⟨hcreatedYear, ?_⟩
    by_contra hyear
    rw [if_neg hyear, if_pos hcreatedYear] at hupdated
    exact hyear (hupdated ▸ hcreatedYear)
  · intro hyears
    rw [if_pos hyears.1, if_pos hyears.2]

/-- Placing does not look at the metadata. -/
theorem Placed.metadata {node : TreeNode Level τ} (h : Placed types node) (m : Option String) :
    Placed types { node with metadata := m } := ⟨h.valid, h.level, h.parent, h.start, h.stop⟩

/-- The clearing of receipts keeps everything but the metadata of a node. -/
theorem readNode_clearPendingFoldReceipts {node : TreeNode Level τ} (h : Placed types node)
    (hyears : FourDigitYears chrono node) (receipts : Receipts) {hourIds : List String}
    (hpaths : ∀ id ∈ hourIds, types.nodeFilePath node.namespaceId id = types.nodeFilePath node.namespaceId node.nodeId →
      id = node.nodeId) {files : NodeFiles} {m : Option String}
    (hread : readNode types chrono files node.namespaceId node.nodeId = some { node with metadata := m }) :
    ∃ m', readNode types chrono (clearPendingFoldReceipts types chrono receipts node.namespaceId hourIds files)
      node.namespaceId node.nodeId = some { node with metadata := m' } := by
  induction hourIds generalizing files m with
  | nil => exact ⟨m, hread⟩
  | cons id hourIds ih =>
      have hrest := fun other hother => hpaths other (List.mem_cons_of_mem _ hother)
      rw [clearPendingFoldReceipts, List.foldl_cons]
      by_cases hid : id = node.nodeId
      · subst hid
        rw [hread]
        dsimp only
        cases hreceipt : m.bind receipts with
        | none => exact ih hrest hread
        | some previous =>
            apply ih (m := previous) hrest
            have hback := @readNode_writeNode _ _ types chrono { node with metadata := previous } files
            rw [(parseNodeMarkdown_nodeText_iff (h.metadata previous)).mpr hyears] at hback
            exact hback
      · cases hother : readNode types chrono files node.namespaceId id with
        | none => exact ih hrest hread
        | some other =>
            dsimp only
            cases hreceipt : other.metadata.bind receipts with
            | none => exact ih hrest hread
            | some previous =>
                apply ih hrest (m := m)
                -- The other node is written under its own id, so to another file.
                obtain ⟨raw, -, rfl⟩ := Option.map_eq_some_iff.mp hother
                have hpath : types.nodeFilePath node.namespaceId node.nodeId ≠ types.nodeFilePath node.namespaceId id :=
                  fun heq => hid (hpaths id List.mem_cons_self heq.symm)
                change (Function.update files (types.nodeFilePath node.namespaceId id) _ _).map _ = _
                rw [Function.update_of_ne hpath]
                exact hread

/-- What storage does to a node: reading gives back the node that was written; a node that was read and is
written again with some fields updated differs in these fields only; and the clearing of receipts touches the
metadata only. -/
structure Survives (types : NodeTypes Level) (chrono : Chrono τ) (node : TreeNode Level τ) : Prop where
  read : ∀ files, readNode types chrono (writeNode types chrono node files) node.namespaceId node.nodeId = some node
  rewritten : ∀ files (update : TreeNode Level τ → TreeNode Level τ), Placed types (update node) →
    FourDigitYears chrono (update node) →
    (readNode types chrono (writeNode types chrono node files) node.namespaceId node.nodeId).bind (fun read =>
      readNode types chrono (writeNode types chrono (update read) (writeNode types chrono node files))
        (update node).namespaceId (update node).nodeId) = some (update node)
  cleared : ∀ files (receipts : Receipts) (hourIds : List String),
    (∀ id ∈ hourIds, types.nodeFilePath node.namespaceId id = types.nodeFilePath node.namespaceId node.nodeId →
      id = node.nodeId) →
    ∃ m, readNode types chrono (clearPendingFoldReceipts types chrono receipts node.namespaceId hourIds
      (writeNode types chrono node files)) node.namespaceId node.nodeId = some { node with metadata := m }

/-- A node survives storage exactly when its timestamps have years of four digits. -/
theorem survives_iff (types : NodeTypes Level) (chrono : Chrono τ) (node : TreeNode Level τ)
    (h : Placed types node) : Survives types chrono node ↔ FourDigitYears chrono node := by
  constructor
  · intro hsurvives
    have hread := hsurvives.read fun _ => none
    rw [readNode_writeNode] at hread
    exact (parseNodeMarkdown_nodeText_iff h).mp (Option.some.inj hread)
  · intro hyears
    have hread : ∀ files, readNode types chrono (writeNode types chrono node files) node.namespaceId node.nodeId =
        some node := by
      intro files
      rw [readNode_writeNode, (parseNodeMarkdown_nodeText_iff h).mpr hyears]
    refine ⟨hread, fun files update hplaced hupdated => ?_, fun files receipts hourIds hpaths => ?_⟩
    · rw [hread, Option.bind_some, readNode_writeNode, (parseNodeMarkdown_nodeText_iff hplaced).mpr hupdated]
    · exact readNode_clearPendingFoldReceipts h hyears receipts hpaths (m := node.metadata) (hread files)

/-! ### A day and its hour -/

/-- The day and the hour levels, with the ids of one hour. -/
inductive DayLevel
  | day
  | hour
  deriving DecidableEq

def dayParent (id : String) : Option String := if id = "2024/03/15/10" then some "2024/03/15" else none

def dayTypes : NodeTypes DayLevel where
  nodeFilePath namespaceId id := namespaceId ++ "/" ++ id ++ ".md"
  asStr
    | .day => "day"
    | .hour => "hour"
  fromStrLabel label := if label = "day" then some .day else if label = "hour" then some .hour else none
  levelFromNodeId id := if id = "2024/03/15" then .day else .hour
  deriveParentId := dayParent
  estimateTokens text := UInt32.ofNat ((text.length + 3) / 4)
  label level := by cases level <;> decide
  word level := by cases level <;> decide
  parent_valid id pid _ hpid := by
    unfold dayParent at hpid
    split_ifs at hpid
    rw [← Option.some.inj hpid]
    decide +kernel

/-- The start of the epoch and of the year 10000. -/
inductive Instant
  | epoch
  | farFuture
  deriving DecidableEq

def Instant.text : Instant → List Char
  | .epoch => "1970-01-01T00:00:00+00:00".toList
  | .farFuture => "+10000-01-01T00:00:00+00:00".toList

def instants : Chrono Instant where
  toRfc3339 := Instant.text
  parseFromRfc3339 text := if text = Instant.epoch.text then some .epoch else none
  unixEpoch := .epoch
  fourDigitYear t := t = .epoch
  parse_format t := by cases t <;> decide
  epoch_year := by decide
  plain t := by cases t <;> decide

def hourNode (createdAt : Instant) : TreeNode DayLevel Instant where
  nodeId := "2024/03/15/10"
  namespaceId := "notes"
  level := .hour
  parentId := some "2024/03/15"
  summary := "Met Ada.\n---\nlevel: day"
  tokenCount := 6
  childCount := 0
  createdAt := createdAt
  updatedAt := .epoch
  metadata := some "a: \"b\"\n---\nc"

theorem placed_hourNode (createdAt : Instant) : Placed dayTypes (hourNode createdAt) := by
  cases createdAt <;> exact ⟨by decide +kernel, by decide, by decide, by decide, by decide⟩

theorem survives_hourNode : Survives dayTypes instants (hourNode .epoch) :=
  (survives_iff dayTypes instants (hourNode .epoch) (placed_hourNode .epoch)).mpr ⟨by decide, by decide⟩

/-- A node created in the year 10000 comes back as one of the epoch. -/
theorem survives_lost :
    Placed dayTypes (hourNode .farFuture) ∧ ¬Survives dayTypes instants (hourNode .farFuture) := by
  refine ⟨placed_hourNode .farFuture, fun h => ?_⟩
  have hread := h.read fun _ => none
  rw [readNode_writeNode] at hread
  have hyears := (parseNodeMarkdown_nodeText_iff (placed_hourNode .farFuture)).mp (Option.some.inj hread)
  exact absurd hyears.1 (by decide)

end TinyCortex.TimeTree.NodeFile
