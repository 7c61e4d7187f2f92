import TinyCortex.Diff.Ledger
import TinyCortex.Lib.FrontMatter

/-! Snapshot metadata through the commit message (`diff/ledger_helpers.rs`, `snapshot_from_commit`): what the
trailers are read back as. Reading trims each value, and a line ends at a newline, so the fields that come
back are those without blanks at their ends and, for the kind, on one line. -/

namespace TinyCortex.Diff

open Lines (joined split)

/-! ### The block of trailers -/

theorem rsplitOnceBlank_cons_of_head {rest : List Char} (hrest : rsplitOnceBlank rest = none)
    (hhead : rest.head? ≠ some '\n') (c : Char) : rsplitOnceBlank (c :: rest) = none := by
  rw [rsplitOnceBlank, hrest, Option.none_or]
  intro block _ heq
  apply hhead
  rw [heq, List.head?_cons]

theorem rsplitOnceBlank_append {line rest : List Char} (hrest : rsplitOnceBlank rest = none) (hline : '\n' ∉ line) :
    rsplitOnceBlank (line ++ rest) = none := by
  induction line with
  | nil => exact hrest
  | cons c line ih =>
      obtain ⟨hc, hline⟩ := not_or.mp (mt List.mem_cons.mpr hline)
      rw [List.cons_append, rsplitOnceBlank, ih hline, Option.none_or]
      exact fun block heq _ => hc heq.symm

/-- Lines that are not empty have no blank line between them. -/
theorem rsplitOnceBlank_joined {lines : List (List Char)} {last : List Char}
    (h : ∀ line ∈ lines ++ [last], line ≠ [] ∧ '\n' ∉ line) :
    rsplitOnceBlank (joined '\n' lines ++ last) = none := by
  induction lines with
  | nil =>
      obtain ⟨-, hlast⟩ := h last List.mem_cons_self
      rw [joined, List.flatMap_nil, List.nil_append, ← List.append_nil last]
      exact rsplitOnceBlank_append (Eq.refl _) hlast
  | cons line lines ih =>
      obtain ⟨hline, hlines⟩ := List.forall_mem_cons.mp h
      rw [Lines.joined_cons, List.append_assoc, List.cons_append]
      apply rsplitOnceBlank_append _ hline.2
      refine rsplitOnceBlank_cons_of_head (ih hlines) ?_ '\n'
      -- The next line starts with a character of its own.
      intro hhead
      cases lines with
      | nil =>
          have hlast := hlines last List.mem_cons_self
          rw [joined, List.flatMap_nil, List.nil_append] at hhead
          exact hlast.2 (List.mem_of_head? hhead)
      | cons next lines =>
          have hnext := hlines next List.mem_cons_self
          rw [Lines.joined_cons, List.append_assoc, List.head?_append_of_ne_nil _ hnext.1] at hhead
          exact hnext.2 (List.mem_of_head? hhead)

/-- The last blank line of a text is the one before its last block. -/
theorem rsplitOnceBlank_block {block : List Char} (hblock : rsplitOnceBlank block = none)
    (hhead : block.head? ≠ some '\n') (front : List Char) :
    rsplitOnceBlank (front ++ '\n' :: '\n' :: block) = some block := by
  induction front with
  | nil =>
      rw [List.nil_append, rsplitOnceBlank, rsplitOnceBlank_cons_of_head hblock hhead]
      exact Option.none_or
  | cons c front ih =>
      unfold rsplitOnceBlank
      rw [List.cons_append]
      dsimp only
      rw [ih, Option.some_or]

theorem lines_joined_append {ls : List (List Char)} {last : List Char}
    (h : ∀ line ∈ ls ++ [last], line ≠ [] ∧ '\n' ∉ line) :
    lines (joined '\n' ls ++ last) = (ls ++ [last]).map FrontMatter.stripReturn := by
  have hls : ∀ line ∈ ls, '\n' ∉ line := fun line hmem => (h line (List.mem_append_left _ hmem)).2
  obtain ⟨hne, hlast⟩ := h last (List.mem_append_right _ (List.mem_singleton_self _))
  rw [lines, Lines.split_append, Lines.split_joined hls, List.nil_append, Lines.split_of_not_mem hlast]
  dsimp only
  rw [if_neg hne, List.append_nil]
  rfl

/-! ### A trailer -/

/-- A trailer line as it is written. -/
def trailerLine (trailer : String × List Char) : List Char := trailer.1.toList ++ ':' :: ' ' :: trailer.2

def lowerKey (key : String) : String := String.ofList (key.toList.map Char.toLower)

theorem map_toLower (key : String) : key.map Char.toLower = lowerKey key := by
  apply String.toList_inj.mp
  rw [String.toList_map, lowerKey, String.toList_ofList]

/-- A trailer as it is read back. -/
def trailerRead (trailer : String × List Char) : String × String :=
  (lowerKey trailer.1, String.ofList (FrontMatter.trim trailer.2))

/-- The keys that a message is written with. -/
def PlainKey (key : String) : Prop :=
  ':' ∉ key.toList ∧ '\n' ∉ key.toList ∧ Text.trim key = key ∧ lowerKey key ≠ "" ∧
    ' ' ∉ (lowerKey key).toList

theorem stripReturn_trailerLine (key : String) (value : List Char) :
    FrontMatter.stripReturn (trailerLine (key, value)) = trailerLine (key, FrontMatter.stripReturn value) := by
  have hvalue : FrontMatter.stripReturn (':' :: ' ' :: value) = ':' :: ' ' :: FrontMatter.stripReturn value := by
    cases value with
    | nil => decide
    | cons c value =>
        change FrontMatter.stripReturn ([':', ' '] ++ c :: value) = _
        rw [FrontMatter.stripReturn_append (List.cons_ne_nil _ _)]
        rfl
  rw [trailerLine, trailerLine, FrontMatter.stripReturn_append (List.cons_ne_nil _ _), hvalue]

theorem parseTrailer_trailerLine {key : String} (h : PlainKey key) (value : List Char) :
    parseTrailer (trailerLine (key, value)) = some (trailerRead (key, value)) := by
  obtain ⟨hcolon, -, htrim, hne, hspace⟩ := h
  have hcontains : (trailerLine (key, value)).contains ':' = true := by
    rw [List.contains_iff_mem]
    exact List.mem_append_right _ List.mem_cons_self
  have hall : ∀ c ∈ key.toList, decide (c ≠ ':') = true := by
    intro c hc
    apply decide_eq_true
    exact fun heq => hcolon (heq ▸ hc)
  have htake : (trailerLine (key, value)).takeWhile (· ≠ ':') = key.toList := by
    rw [trailerLine, List.takeWhile_append_of_pos hall, List.takeWhile_cons_of_neg (by decide), List.append_nil]
  have hdrop : (trailerLine (key, value)).dropWhile (· ≠ ':') = ':' :: ' ' :: value := by
    rw [trailerLine, List.dropWhile_append_of_pos hall, List.dropWhile_cons_of_neg (by decide)]
  rw [parseTrailer, if_pos hcontains, htake, hdrop, String.ofList_toList, htrim, map_toLower]
  dsimp only
  rw [if_pos ⟨hne, hspace⟩, List.drop_one, List.tail_cons, Text.trim, String.toList_ofList]
  exact congrArg (fun value => some (lowerKey key, String.ofList value))
    (FrontMatter.trim_cons_space (by decide) value)

theorem parseTrailer_stripReturn {key : String} (h : PlainKey key) (value : List Char) :
    parseTrailer (FrontMatter.stripReturn (trailerLine (key, value))) = some (trailerRead (key, value)) := by
  rw [stripReturn_trailerLine, parseTrailer_trailerLine h, trailerRead, FrontMatter.trim_stripReturn]
  rfl

/-! ### A message -/

/-- The trailers of a message but the last one, which is the capture time. -/
def metaTrailers (snapshotMeta : SnapshotMeta) (itemCount : Nat) : List (String × List Char) :=
  [("Source-Id", snapshotMeta.sourceId.toList), ("Source-Kind", snapshotMeta.sourceKind.toList),
    ("Source-Label", (sanitizeTrailer snapshotMeta.label).toList), ("Trigger", snapshotMeta.trigger.asStr.toList),
    ("Item-Count", (toString itemCount).toList)]

def takenTrailer (takenAtMs : Int) : String × List Char := ("Taken-At-Ms", (toString takenAtMs).toList)

variable {snapshotMeta : SnapshotMeta} {itemCount : Nat} {takenAtMs : Int}

theorem plainKey {trailer : String × List Char}
    (h : trailer ∈ metaTrailers snapshotMeta itemCount ++ [takenTrailer takenAtMs]) : PlainKey trailer.1 := by
  have hkeys : ∀ key ∈ ["Source-Id", "Source-Kind", "Source-Label", "Trigger", "Item-Count", "Taken-At-Ms"],
      PlainKey key := by
    unfold PlainKey
    decide
  exact hkeys _ (List.mem_map_of_mem h)

theorem newline_not_mem_sanitizeTrailer (s : String) : '\n' ∉ (sanitizeTrailer s).toList := by
  rw [sanitizeTrailer, String.toList_ofList]
  intro h
  obtain ⟨c, -, hc⟩ := List.mem_map.mp h
  split_ifs at hc with hreturn
  · exact absurd hc (by decide)
  · exact hreturn (Or.inl hc)

theorem newline_not_mem_toString (a : Int) : '\n' ∉ (toString a).toList := by
  intro h
  rcases Decimal.isDigit_of_mem h with hc | hc
  · exact absurd hc (by decide)
  · exact absurd hc (by decide)

/-- Each value is on one line if the source id and the kind are. -/
theorem newline_not_mem_value (hsource : '\n' ∉ snapshotMeta.sourceId.toList)
    (hkind : '\n' ∉ snapshotMeta.sourceKind.toList) {trailer : String × List Char}
    (h : trailer ∈ metaTrailers snapshotMeta itemCount ++ [takenTrailer takenAtMs]) : '\n' ∉ trailer.2 := by
  have htrigger : '\n' ∉ snapshotMeta.trigger.asStr.toList := by
    cases snapshotMeta.trigger <;> decide
  have hcount : '\n' ∉ (toString itemCount).toList := newline_not_mem_toString itemCount
  simp only [metaTrailers, takenTrailer, List.cons_append, List.nil_append, List.mem_cons, List.not_mem_nil,
    or_false] at h
  rcases h with rfl | rfl | rfl | rfl | rfl | rfl
  · exact hsource
  · exact hkind
  · exact newline_not_mem_sanitizeTrailer _
  · exact htrigger
  · exact hcount
  · exact newline_not_mem_toString _

theorem trailerLine_oneline (hsource : '\n' ∉ snapshotMeta.sourceId.toList)
    (hkind : '\n' ∉ snapshotMeta.sourceKind.toList) :
    ∀ line ∈ (metaTrailers snapshotMeta itemCount).map trailerLine ++ [trailerLine (takenTrailer takenAtMs)],
      line ≠ [] ∧ '\n' ∉ line := by
  intro line hline
  rw [← List.map_singleton, ← List.map_append] at hline
  obtain ⟨trailer, htrailer, rfl⟩ := List.mem_map.mp hline
  refine ⟨List.append_ne_nil_of_right_ne_nil _ (List.cons_ne_nil _ _), fun hmem => ?_⟩
  have hvalue := newline_not_mem_value hsource hkind htrailer
  rcases List.mem_append.mp hmem with hkey | hrest
  · exact (plainKey htrailer).2.1 hkey
  · simp only [List.mem_cons, Char.reduceEq, false_or] at hrest
    exact hvalue hrest

/-- The message is a subject, a blank line and the lines of its trailers. -/
theorem buildCommitMessage_toList (snapshotMeta : SnapshotMeta) (itemCount : Nat) (takenAtMs : Int) :
    ∃ subject, (buildCommitMessage snapshotMeta itemCount takenAtMs).toList =
      subject ++ '\n' :: '\n' :: (joined '\n' ((metaTrailers snapshotMeta itemCount).map trailerLine) ++
        trailerLine (takenTrailer takenAtMs)) ++ ['\n'] := by
  refine ⟨("snapshot: " ++ snapshotMeta.sourceId ++ " (" ++ toString itemCount ++ " item(s))").toList, ?_⟩
  unfold buildCommitMessage metaTrailers takenTrailer trailerLine
  simp [String.toList_append, joined]

theorem rdropWhile_append_self {front back : List Char} (hne : back ≠ [])
    (h : ∀ c ∈ back, Text.isWhitespace c = false) : (front ++ back).rdropWhile Text.isWhitespace = front ++ back := by
  refine List.rdropWhile_eq_self_iff.mpr fun hfull hblank => ?_
  rw [List.getLast_append_of_ne_nil _ hne, h _ (List.getLast_mem hne)] at hblank
  exact Bool.false_ne_true hblank

/-- A message ends in a number, so that trimming takes its last newline only. -/
theorem trimEnd_number (front : List Char) (takenAtMs : Int) :
    (front ++ trailerLine (takenTrailer takenAtMs) ++ ['\n']).rdropWhile Text.isWhitespace =
      front ++ trailerLine (takenTrailer takenAtMs) := by
  have hnumber : ∀ c ∈ (toString takenAtMs).toList, Text.isWhitespace c = false := by
    intro c hc
    rcases Decimal.isDigit_of_mem hc with rfl | hdigit
    · decide
    · exact Text.isWhitespace_digit hdigit
  have hne : (toString takenAtMs).toList ≠ [] := by
    cases takenAtMs with
    | ofNat n =>
        rw [Decimal.toList_ofNat]
        exact Nat.toDigits_ne_nil
    | negSucc n =>
        rw [Decimal.toList_negSucc]
        exact List.cons_ne_nil _ _
  have hend : front ++ trailerLine (takenTrailer takenAtMs) =
      front ++ "Taken-At-Ms: ".toList ++ (toString takenAtMs).toList := by
    simp [trailerLine, takenTrailer]
  rw [List.rdropWhile_concat_pos _ _ _ (by decide), hend]
  exact rdropWhile_append_self hne hnumber

/-- What a message is read back as, when the source id and the kind are on one line each. -/
theorem parseTrailers_buildCommitMessage (hsource : '\n' ∉ snapshotMeta.sourceId.toList)
    (hkind : '\n' ∉ snapshotMeta.sourceKind.toList) :
    parseTrailers (buildCommitMessage snapshotMeta itemCount takenAtMs) =
      ((metaTrailers snapshotMeta itemCount ++ [takenTrailer takenAtMs]).map trailerRead).foldl
        (fun (trailers : OrderedMap String String) trailer => trailers.insert trailer.1 trailer.2) [] := by
  obtain ⟨subject, hmessage⟩ := buildCommitMessage_toList snapshotMeta itemCount takenAtMs
  have hlines : ∀ line ∈ (metaTrailers snapshotMeta itemCount).map trailerLine ++ [trailerLine (takenTrailer takenAtMs)],
      line ≠ [] ∧ '\n' ∉ line := trailerLine_oneline hsource hkind
  have hhead : (joined '\n' ((metaTrailers snapshotMeta itemCount).map trailerLine) ++
      trailerLine (takenTrailer takenAtMs)).head? ≠ some '\n' := by
    simp [metaTrailers, trailerLine, joined]
  have hblock := rsplitOnceBlank_block (rsplitOnceBlank_joined hlines) hhead subject
  have htrim := trimEnd_number (subject ++ '\n' :: '\n' ::
    joined '\n' ((metaTrailers snapshotMeta itemCount).map trailerLine)) takenAtMs
  simp only [List.append_assoc, List.cons_append] at htrim hmessage hblock
  have hread : (((metaTrailers snapshotMeta itemCount ++ [takenTrailer takenAtMs]).map trailerLine).map
      FrontMatter.stripReturn).filterMap parseTrailer =
      (metaTrailers snapshotMeta itemCount ++ [takenTrailer takenAtMs]).map trailerRead := by
    rw [List.map_map, List.filterMap_map, ← List.filterMap_eq_map]
    exact List.filterMap_congr fun trailer htrailer => parseTrailer_stripReturn (plainKey htrailer) trailer.2
  rw [parseTrailers, Text.trimEnd, String.toList_ofList, hmessage, htrim, hblock, Option.getD_some,
    lines_joined_append hlines, ← List.map_singleton, ← List.map_append, hread]

/-! ### Numbers -/

theorem parseU32_toString {n : Nat} (h : n < 2 ^ 32) : parseU32 (toString n) = some n := by
  have hchars : (toString n).toList = Nat.toDigits 10 n := Decimal.toList_ofNat n
  have hplus := Decimal.not_mem_toDigits (c := '+') (by decide) n
  unfold parseU32
  rw [hchars]
  split
  · rename_i digits heq
    rw [heq] at hplus
    exact absurd List.mem_cons_self hplus
  · rw [parseDigits_toDigits, Option.filter_some, if_pos (decide_eq_true h)]

theorem parseI64_toString {a : Int} (hlow : -2 ^ 63 ≤ a) (hhigh : a < 2 ^ 63) : parseI64 (toString a) = some a := by
  have hrange : decide (-2 ^ 63 ≤ a ∧ a < 2 ^ 63) = true := decide_eq_true ⟨hlow, hhigh⟩
  unfold parseI64
  cases a with
  | ofNat n =>
      have hminus := Decimal.not_mem_toDigits (c := '-') (by decide) n
      have hplus := Decimal.not_mem_toDigits (c := '+') (by decide) n
      rw [Decimal.toList_ofNat]
      split
      · rename_i digits heq
        rw [heq] at hminus
        exact absurd List.mem_cons_self hminus
      · rename_i digits heq
        rw [heq] at hplus
        exact absurd List.mem_cons_self hplus
      · rw [parseDigits_toDigits, Option.map_some, Option.filter_some, if_pos hrange]
  | negSucc n =>
      rw [Decimal.toList_negSucc]
      simp only [parseDigits_toDigits]
      change (some (Int.negSucc n)).filter _ = _
      rw [Option.filter_some, if_pos hrange]

theorem trim_toString (a : Int) : FrontMatter.trim (toString a).toList = (toString a).toList := by
  apply FrontMatter.trim_of_forall
  intro c hc
  rcases Decimal.isDigit_of_mem hc with rfl | hdigit
  · decide
  · exact Text.isWhitespace_digit hdigit

/-! ### The snapshot -/

theorem trim_toList (s : String) : String.ofList (FrontMatter.trim s.toList) = Text.trim s := by
  rw [Text.trim, FrontMatter.trim]

/-- The snapshot of a commit whose source id and kind are on one line each: the texts come back trimmed. -/
theorem snapshotFromCommit_message (hsource : '\n' ∉ snapshotMeta.sourceId.toList)
    (hkind : '\n' ∉ snapshotMeta.sourceKind.toList) (hcount : itemCount < 2 ^ 32) (hlow : -2 ^ 63 ≤ takenAtMs)
    (hhigh : takenAtMs < 2 ^ 63) (id : Nat) (seconds : Int) :
    snapshotFromCommit ⟨id, buildCommitMessage snapshotMeta itemCount takenAtMs, seconds⟩ =
      { id := id
        sourceId := Text.trim snapshotMeta.sourceId
        sourceKind := Text.trim snapshotMeta.sourceKind
        label := Text.trim (sanitizeTrailer snapshotMeta.label)
        trigger := snapshotMeta.trigger
        itemCount := itemCount
        takenAtMs := takenAtMs } := by
  have hid : lowerKey "Source-Id" = "source-id" := by decide
  have hkindKey : lowerKey "Source-Kind" = "source-kind" := by decide
  have hlabel : lowerKey "Source-Label" = "source-label" := by decide
  have htrigger : lowerKey "Trigger" = "trigger" := by decide
  have hcountKey : lowerKey "Item-Count" = "item-count" := by decide
  have htaken : lowerKey "Taken-At-Ms" = "taken-at-ms" := by decide
  have hnumber : FrontMatter.trim (toString itemCount).toList = (toString itemCount).toList :=
    trim_toString itemCount
  unfold snapshotFromCommit
  dsimp only
  rw [parseTrailers_buildCommitMessage hsource hkind]
  simp only [metaTrailers, takenTrailer, trailerRead, List.cons_append, List.nil_append, List.map_cons, List.map_nil,
    List.foldl_cons, List.foldl_nil, OrderedMap.get_insert, OrderedMap.get_nil, hid, hkindKey, hlabel, htrigger,
    hcountKey, htaken, hnumber, trim_toString, trim_toList, String.ofList_toList, String.reduceEq, if_true, if_false,
    Option.getD_some, Option.bind_some, parseU32_toString hcount, parseI64_toString hlow hhigh, Snapshot.mk.injEq,
    true_and, and_true]
  cases snapshotMeta.trigger <;> decide

theorem newline_not_mem_lines {text line : List Char} (h : line ∈ lines text) : '\n' ∉ line := by
  obtain ⟨piece, hpiece, rfl⟩ := List.mem_map.mp h
  apply FrontMatter.newline_not_mem_stripReturn
  split_ifs at hpiece
  · exact Lines.not_mem_line hpiece
  · rcases List.mem_append.mp hpiece with hline | htail
    · exact Lines.not_mem_line hline
    · rw [List.mem_singleton.mp htail]
      exact Lines.not_mem_tail text

/-- A value is a part of its line. -/
theorem parseTrailer_subset {line : List Char} {row : String × String} (h : parseTrailer line = some row) :
    row.2.toList ⊆ line := by
  unfold parseTrailer at h
  dsimp only at h
  split_ifs at h
  obtain rfl := Option.some.inj h
  dsimp only
  rw [Text.trim, String.toList_ofList, String.toList_ofList]
  intro c hc
  have hdrop := (FrontMatter.trim_sublist _).subset hc
  exact (List.dropWhile_suffix _).subset (List.drop_subset _ _ hdrop)

/-- No value of a message has a newline in it. -/
theorem newline_not_mem_get {message key value : String} (h : (parseTrailers message).get key = some value) :
    '\n' ∉ value.toList := by
  rcases OrderedMap.get_foldl_insert h with hnil | ⟨row, hrow, rfl⟩
  · rw [OrderedMap.get_nil] at hnil
    cases hnil
  · obtain ⟨line, hline, hparse⟩ := List.mem_filterMap.mp hrow
    exact fun hmem => newline_not_mem_lines hline (parseTrailer_subset hparse hmem)

theorem trim_map {g : Char → Char} (hg : ∀ c, Text.isWhitespace (g c) = Text.isWhitespace c) (text : List Char) :
    FrontMatter.trim (text.map g) = (FrontMatter.trim text).map g := by
  have hcomp : Text.isWhitespace ∘ g = Text.isWhitespace := funext hg
  unfold FrontMatter.trim List.rdropWhile
  rw [List.dropWhile_map, hcomp, ← List.map_reverse, List.dropWhile_map, hcomp, List.map_reverse]

/-- A label on one line has blanks at its ends exactly when the label itself does. -/
theorem trim_sanitizeTrailer_iff (s : String) :
    Text.trim (sanitizeTrailer s) = sanitizeTrailer s ↔ Text.trim s = s := by
  have hblank : ∀ c, Text.isWhitespace (if c = '\n' ∨ c = '\r' then ' ' else c) = Text.isWhitespace c := by
    intro c
    split_ifs with hc
    · rcases hc with rfl | rfl <;> decide
    · exact Eq.refl _
  rw [← String.toList_inj, ← String.toList_inj, sanitizeTrailer, Text.trim, Text.trim, String.toList_ofList,
    String.toList_ofList, String.toList_ofList]
  change FrontMatter.trim (s.toList.map _) = s.toList.map _ ↔ FrontMatter.trim s.toList = s.toList
  rw [trim_map hblank]
  constructor
  · intro h
    have hlength := congrArg List.length h
    rw [List.length_map, List.length_map] at hlength
    exact (FrontMatter.trim_sublist _).eq_of_length hlength
  · intro h
    rw [h]

/-- The snapshot has the fields it was committed with, and the label with its newlines turned into spaces. -/
structure Survives (snapshotMeta : SnapshotMeta) (itemCount : Nat) (takenAtMs : Int) (snapshot : Snapshot) : Prop where
  sourceId : snapshot.sourceId = snapshotMeta.sourceId
  sourceKind : snapshot.sourceKind = snapshotMeta.sourceKind
  trigger : snapshot.trigger = snapshotMeta.trigger
  itemCount : snapshot.itemCount = itemCount
  takenAtMs : snapshot.takenAtMs = takenAtMs
  label : snapshot.label = sanitizeTrailer snapshotMeta.label

/-- Snapshot metadata survives its commit message exactly when no text has blanks at its ends and the kind
is on one line. -/
theorem snapshotFromCommit_survives_iff (snapshotMeta : SnapshotMeta) (itemCount : Nat) (takenAtMs : Int)
    (hvalid : validateSourceId snapshotMeta.sourceId = .ok ()) (hcount : itemCount < 2 ^ 32)
    (hlow : -2 ^ 63 ≤ takenAtMs) (hhigh : takenAtMs < 2 ^ 63) (id : Nat) (seconds : Int) :
    Survives snapshotMeta itemCount takenAtMs
        (snapshotFromCommit ⟨id, buildCommitMessage snapshotMeta itemCount takenAtMs, seconds⟩) ↔
      Text.trim snapshotMeta.sourceId = snapshotMeta.sourceId ∧
        Text.trim snapshotMeta.sourceKind = snapshotMeta.sourceKind ∧ '\n' ∉ snapshotMeta.sourceKind.toList ∧
        Text.trim snapshotMeta.label = snapshotMeta.label := by
  have hsource : '\n' ∉ snapshotMeta.sourceId.toList := by
    intro hmem
    unfold validateSourceId at hvalid
    split_ifs at hvalid with hblank hcontrol
    exact hcontrol (List.any_eq_true.mpr ⟨_, hmem, by decide⟩)
  by_cases hkind : '\n' ∈ snapshotMeta.sourceKind.toList
  · refine iff_of_false (fun h => ?_) fun h => h.2.2.1 hkind
    have hback := h.sourceKind
    -- What is read back as the kind is a part of one line.
    cases hget : (parseTrailers (buildCommitMessage snapshotMeta itemCount takenAtMs)).get "source-kind" with
    | none =>
        rw [snapshotFromCommit] at hback
        dsimp only at hback
        rw [hget, Option.getD_none] at hback
        rw [← hback] at hkind
        exact absurd hkind (by decide)
    | some value =>
        rw [snapshotFromCommit] at hback
        dsimp only at hback
        rw [hget, Option.getD_some] at hback
        rw [← hback] at hkind
        exact newline_not_mem_get hget hkind
  · rw [snapshotFromCommit_message hsource hkind hcount hlow hhigh, ← trim_sanitizeTrailer_iff snapshotMeta.label]
    constructor
    · exact fun h => ⟨h.sourceId, h.sourceKind, hkind, h.label⟩
    · rintro ⟨hid, hkindTrim, -, hlabel⟩
      exact ⟨hid, hkindTrim, Eq.refl _, Eq.refl _, Eq.refl _, hlabel⟩

theorem snapshotFromCommit_survives_notes :
    Survives ⟨"notes", "folder", "My\nnotes", .manual⟩ 2 1500
      (snapshotFromCommit ⟨0, buildCommitMessage ⟨"notes", "folder", "My\nnotes", .manual⟩ 2 1500, 1⟩) :=
  (snapshotFromCommit_survives_iff ⟨"notes", "folder", "My\nnotes", .manual⟩ 2 1500 (by decide) (by decide)
    (by decide) (by decide) 0 1).mpr (by decide)

/-- A source id with a blank in front passes the check and comes back as another source. -/
theorem snapshotFromCommit_lost :
    validateSourceId " notes" = .ok () ∧
      ¬Survives ⟨" notes", "folder", "Notes", .auto⟩ 2 1500
        (snapshotFromCommit ⟨0, buildCommitMessage ⟨" notes", "folder", "Notes", .auto⟩ 2 1500, 1⟩) := by
  refine ⟨by decide, fun h => ?_⟩
  have hback := h.sourceId
  rw [snapshotFromCommit_message (by decide) (by decide) (by decide) (by decide) (by decide)] at hback
  change Text.trim " notes" = " notes" at hback
  exact absurd hback (by decide)

end TinyCortex.Diff
