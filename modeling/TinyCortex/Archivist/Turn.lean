import TinyCortex.Lib.Decimal
import TinyCortex.Lib.FrontMatter

/-! Archived turns and their files (`archivist/types.rs`, `compose_turn` and `parse_turn` of `archivist/store.rs`). -/

namespace TinyCortex.Archivist

open Lines FrontMatter

structure ArchivedTurn where
  sessionId : String
  seq : UInt32
  timestampMs : Int64
  role : String
  content : String
  lesson : Option String
  toolCallsJson : Option String
  costMicrodollars : UInt64
  deriving DecidableEq

/-- `serde_json` on strings: `to_string` and `from_str::<String>`. -/
structure JsonStrings where
  toString : String → List Char
  fromStr : List Char → Option String

/-- A string becomes one quoted literal without control characters and comes back from it; what is no string literal
holds no quote. -/
structure JsonStrings.Lawful (json : JsonStrings) : Prop where
  roundTrip : ∀ s, json.fromStr (json.toString s) = some s
  quoted : ∀ s, ∃ inner, json.toString s = '"' :: inner ++ ['"']
  escaped : ∀ s, ∀ c ∈ json.toString s, 32 ≤ c.toNat
  literal : ∀ text s, json.fromStr text = some s → '"' ∈ text

def label (key : String) (v : List Char) : List Char := key.toList ++ ':' :: ' ' :: v

section Codec

variable (json : JsonStrings)

def headerLines (turn : ArchivedTurn) : List (List Char) :=
  [label "session_id" (json.toString turn.sessionId),
    label "seq" (Nat.toDigits 10 turn.seq.toNat),
    label "timestamp_ms" (toString turn.timestampMs.toInt).toList,
    label "role" (json.toString turn.role),
    label "cost_microdollars" (Nat.toDigits 10 turn.costMicrodollars.toNat)] ++
    turn.lesson.toList.map (fun lesson => label "lesson" (json.toString lesson)) ++
    turn.toolCallsJson.toList.map fun calls => label "tool_calls_json" (json.toString calls)

def composeTurn (turn : ArchivedTurn) : List Char :=
  "---\n".toList ++ joined '\n' (headerLines json turn) ++ "---\n\n".toList ++ turn.content.toList ++
    if turn.content.toList.getLast? = some '\n' then [] else ['\n']

def parseField (turn : ArchivedTurn) (key : String) (v : String) : ArchivedTurn :=
  match key with
  | "session_id" => { turn with sessionId := v }
  | "seq" => { turn with seq := UInt32.ofNat ((Decimal.parseUnsigned (2 ^ 32) v.toList).getD 0) }
  | "timestamp_ms" => { turn with timestampMs := Int64.ofInt ((Decimal.parseSigned (2 ^ 63) v.toList).getD 0) }
  | "role" => { turn with role := v }
  | "cost_microdollars" =>
      { turn with costMicrodollars := UInt64.ofNat ((Decimal.parseUnsigned (2 ^ 64) v.toList).getD 0) }
  | "lesson" => { turn with lesson := some v }
  | "tool_calls_json" => { turn with toolCallsJson := some v }
  | _ => turn

/-- A line without a colon is passed over; a value is a string literal, or else taken as it stands. -/
def parseLine (turn : ArchivedTurn) (line : List Char) : ArchivedTurn :=
  match line.dropInfix? [':'] with
  | none => turn
  | some (k, v) => parseField turn (String.ofList (trim k)) ((json.fromStr (trim v)).getD (String.ofList (trim v)))

/-- `ArchivedTurn::default()`. -/
def ArchivedTurn.default : ArchivedTurn := ⟨"", 0, 0, "", "", none, none, 0⟩

def parseTurn (text : List Char) : Option ArchivedTurn :=
  (text.dropPrefix? "---\n".toList).bind fun start =>
    (start.dropInfix? "\n---\n".toList).map fun parts =>
      let content := (parts.2.dropPrefix? ['\n']).getD parts.2
      { (lines parts.1).foldl (parseLine json) ArchivedTurn.default with
        content := String.ofList (content.rdropWhile Text.isWhitespace) }

/-- A turn with the blanks at the end of its content trimmed. -/
def ArchivedTurn.trimmed (turn : ArchivedTurn) : ArchivedTurn := { turn with content := Text.trimEnd turn.content }

/-! ### The round trip -/

variable {json}

/-- A value that stands on its line as it is: no control characters, and no blanks at its ends. -/
structure Plain (v : List Char) : Prop where
  controls : ∀ c ∈ v, 32 ≤ c.toNat
  trimmed : trim v = v

theorem plain_of_digits {v : List Char} (h : ∀ c ∈ v, c = '-' ∨ c.isDigit) : Plain v := by
  have hws : ∀ c ∈ v, Text.isWhitespace c = false := by
    intro c hc
    rcases h c hc with rfl | hdigit
    · rfl
    · exact Text.isWhitespace_digit hdigit
  refine ⟨fun c hc => ?_, trim_of_forall hws⟩
  rcases h c hc with rfl | hdigit
  · decide
  · have hrange := Text.range_of_isDigit hdigit
    omega

theorem plain_toDigits (n : Nat) : Plain (Nat.toDigits 10 n) :=
  plain_of_digits fun _ hc => Or.inr (Nat.isDigit_of_mem_toDigits (by decide) (by decide) hc)

theorem plain_toString (a : Int) : Plain (toString a).toList := plain_of_digits fun _ hc => Decimal.isDigit_of_mem hc

theorem plain_json (h : json.Lawful) (s : String) : Plain (json.toString s) := by
  refine ⟨h.escaped s, ?_⟩
  obtain ⟨inner, hinner⟩ := h.quoted s
  rw [hinner]
  refine trim_of_ends (fun c hc => ?_) (fun c hc => ?_)
  · obtain rfl := Option.some.inj hc
    rfl
  · rw [List.getLast?_concat] at hc
    obtain rfl := Option.some.inj hc
    rfl

/-- A key with a plain value is one line of its own. -/
theorem label_line {key : String} (hkey : ∀ c ∈ key.toList, 32 ≤ c.toNat) (hhead : key.toList.head? ≠ some '-')
    (hne : key.toList ≠ []) {v : List Char} (hv : Plain v) :
    '\n' ∉ label key v ∧ label key v ≠ [] ∧ (label key v).getLast? ≠ some '\r' ∧ label key v ≠ "---".toList := by
  have hchars : ∀ c ∈ label key v, 32 ≤ c.toNat := by
    intro c hc
    rcases List.mem_append.mp hc with hmem | hmem
    · exact hkey c hmem
    · rcases List.mem_cons.mp hmem with rfl | hmem
      · decide
      · rcases List.mem_cons.mp hmem with rfl | hmem
        · decide
        · exact hv.controls c hmem
  refine ⟨fun hmem => absurd (hchars _ hmem) (by decide), List.append_ne_nil_of_left_ne_nil hne _,
    fun hlast => absurd (hchars _ (List.mem_of_getLast? hlast)) (by decide), fun heq => hhead ?_⟩
  obtain ⟨c, rest, hcons⟩ := List.exists_cons_of_ne_nil hne
  rw [label, hcons, List.cons_append] at heq
  rw [hcons]
  exact congrArg some (List.cons.inj heq).1

theorem parseLine_label {key : String} (hcolon : ':' ∉ key.toList) (htrim : trim key.toList = key.toList)
    (turn : ArchivedTurn) {v : List Char} (hv : Plain v) : parseLine json turn (label key v) =
      parseField turn key ((json.fromStr v).getD (String.ofList v)) := by
  rw [parseLine, label, dropInfix?_sep hcolon]
  dsimp only
  rw [htrim, String.ofList_toList, trim_cons_space (by decide), hv.trimmed]

theorem fromStr_digits (h : json.Lawful) {v : List Char} (hv : ∀ c ∈ v, c = '-' ∨ c.isDigit) :
    json.fromStr v = none := by
  cases hfrom : json.fromStr v with
  | none => rfl
  | some s =>
      rcases hv _ (h.literal v s hfrom) with hminus | hdigit
      · cases hminus
      · cases hdigit

theorem headerLines_lines (h : json.Lawful) (turn : ArchivedTurn) : ∀ line ∈ headerLines json turn,
    '\n' ∉ line ∧ line ≠ [] ∧ line.getLast? ≠ some '\r' ∧ line ≠ "---".toList := by
  intro line hline
  simp only [headerLines, List.mem_append, List.mem_cons, List.not_mem_nil, or_false, List.mem_map] at hline
  rcases hline with ((rfl | rfl | rfl | rfl | rfl) | ⟨lesson, -, rfl⟩) | ⟨calls, -, rfl⟩
  · exact label_line (by decide) (by decide) (by decide) (plain_json h _)
  · exact label_line (by decide) (by decide) (by decide) (plain_toDigits _)
  · exact label_line (by decide) (by decide) (by decide) (plain_toString _)
  · exact label_line (by decide) (by decide) (by decide) (plain_json h _)
  · exact label_line (by decide) (by decide) (by decide) (plain_toDigits _)
  · exact label_line (by decide) (by decide) (by decide) (plain_json h _)
  · exact label_line (by decide) (by decide) (by decide) (plain_json h _)

theorem parseLine_number (h : json.Lawful) {key : String} (hcolon : ':' ∉ key.toList)
    (htrim : trim key.toList = key.toList) (turn : ArchivedTurn) {v : List Char} (hv : ∀ c ∈ v, c = '-' ∨ c.isDigit) :
    parseLine json turn (label key v) = parseField turn key (String.ofList v) := by
  rw [parseLine_label hcolon htrim turn (plain_of_digits hv), fromStr_digits h hv]
  rfl

theorem parseLine_json (h : json.Lawful) {key : String} (hcolon : ':' ∉ key.toList)
    (htrim : trim key.toList = key.toList) (turn : ArchivedTurn) (v : String) :
    parseLine json turn (label key (json.toString v)) = parseField turn key v := by
  rw [parseLine_label hcolon htrim turn (plain_json h v), h.roundTrip]
  rfl

theorem parseField_seq (turn : ArchivedTurn) (n : UInt32) :
    parseField turn "seq" (String.ofList (Nat.toDigits 10 n.toNat)) = { turn with seq := n } := by
  have hparse := Decimal.parseUnsigned_toDigits n.toNat_lt
  rw [parseField, String.toList_ofList, hparse, Option.getD_some, UInt32.ofNat_toNat]

theorem parseField_timestampMs (turn : ArchivedTurn) (n : Int64) :
    parseField turn "timestamp_ms" (String.ofList (toString n.toInt).toList) = { turn with timestampMs := n } := by
  have hparse : Decimal.parseSigned (2 ^ 63) (toString n.toInt).toList = some n.toInt :=
    Decimal.parseSigned_toString n.le_toInt n.toInt_lt
  rw [parseField, String.toList_ofList, hparse, Option.getD_some, Int64.ofInt_toInt]

theorem parseField_costMicrodollars (turn : ArchivedTurn) (n : UInt64) :
    parseField turn "cost_microdollars" (String.ofList (Nat.toDigits 10 n.toNat)) =
      { turn with costMicrodollars := n } := by
  have hparse := Decimal.parseUnsigned_toDigits n.toNat_lt
  rw [parseField, String.toList_ofList, hparse, Option.getD_some, UInt64.ofNat_toNat]

theorem foldl_headerLines (h : json.Lawful) (turn : ArchivedTurn) :
    (headerLines json turn).foldl (parseLine json) ArchivedTurn.default = { turn with content := "" } := by
  have hdigits (n : Nat) : ∀ c ∈ Nat.toDigits 10 n, c = '-' ∨ c.isDigit := fun _ hc =>
    Or.inr (Nat.isDigit_of_mem_toDigits (by decide) (by decide) hc)
  have hfixed : (headerLines json { turn with lesson := none, toolCallsJson := none }).foldl (parseLine json)
      ArchivedTurn.default = { turn with content := "", lesson := none, toolCallsJson := none } := by
    simp only [headerLines, Option.toList_none, List.map_nil, List.append_nil, List.foldl_cons, List.foldl_nil]
    rw [parseLine_json h (by decide) (by decide), parseLine_number h (by decide) (by decide) _ (hdigits _),
      parseLine_number h (by decide) (by decide) _ (fun _ hc => Decimal.isDigit_of_mem hc),
      parseLine_json h (by decide) (by decide), parseLine_number h (by decide) (by decide) _ (hdigits _),
      parseField_seq, parseField_timestampMs, parseField_costMicrodollars]
    rfl
  have hsplit : headerLines json turn = headerLines json { turn with lesson := none, toolCallsJson := none } ++
      (turn.lesson.toList.map (fun lesson => label "lesson" (json.toString lesson)) ++
        turn.toolCallsJson.toList.map fun calls => label "tool_calls_json" (json.toString calls)) := by
    simp only [headerLines, Option.toList_none, List.map_nil, List.append_nil, List.append_assoc]
  have hlesson (t : ArchivedTurn) : (turn.lesson.toList.map fun lesson => label "lesson" (json.toString lesson)).foldl
      (parseLine json) t = { t with lesson := turn.lesson.or t.lesson } := by
    cases turn.lesson with
    | none => rfl
    | some lesson =>
        have hline : parseLine json t (label "lesson" (json.toString lesson)) = parseField t "lesson" lesson :=
          parseLine_json h (by decide) (by decide) t lesson
        exact hline
  have hcalls (t : ArchivedTurn) : (turn.toolCallsJson.toList.map fun calls =>
      label "tool_calls_json" (json.toString calls)).foldl (parseLine json) t =
        { t with toolCallsJson := turn.toolCallsJson.or t.toolCallsJson } := by
    cases turn.toolCallsJson with
    | none => rfl
    | some calls =>
        have hline : parseLine json t (label "tool_calls_json" (json.toString calls)) =
            parseField t "tool_calls_json" calls := parseLine_json h (by decide) (by decide) t calls
        exact hline
  rw [hsplit, List.foldl_append, hfixed, List.foldl_append, hlesson, hcalls]
  dsimp only
  rw [Option.or_none, Option.or_none]

theorem headerLines_ne_nil (turn : ArchivedTurn) : headerLines json turn ≠ [] := List.cons_ne_nil _ _

/-- A written turn is read back with every field as it was, the content up to the blanks at its end. -/
theorem parseTurn_composeTurn (h : json.Lawful) (turn : ArchivedTurn) :
    parseTurn json (composeTurn json turn) = some turn.trimmed := by
  obtain ⟨closing, hclosing, hblank⟩ : ∃ closing : List Char,
      composeTurn json turn = "---\n".toList ++ (List.intercalate ['\n'] (headerLines json turn) ++
        '\n' :: ("---".toList ++ '\n' :: ('\n' :: (turn.content.toList ++ closing)))) ∧
      ∀ c ∈ closing, Text.isWhitespace c := by
    refine ⟨if turn.content.toList.getLast? = some '\n' then [] else ['\n'], ?_, ?_⟩
    · rw [composeTurn, joined_eq_intercalate_append (headerLines_ne_nil turn)]
      simp only [List.append_assoc]
      rfl
    · intro c hc
      split_ifs at hc
      · exact absurd hc List.not_mem_nil
      · rw [List.mem_singleton.mp hc]
        rfl
  have hlines := headerLines_lines h turn
  have hfence : (List.intercalate ['\n'] (headerLines json turn) ++
      '\n' :: ("---".toList ++ '\n' :: ('\n' :: (turn.content.toList ++ closing)))).dropInfix? "\n---\n".toList =
        some (List.intercalate ['\n'] (headerLines json turn), '\n' :: (turn.content.toList ++ closing)) :=
    dropInfix?_fence (by decide) (headerLines_ne_nil turn) (fun line hline => (hlines line hline).1)
      (fun line hline => (hlines line hline).2.2.2) _
  have hread : lines (List.intercalate ['\n'] (headerLines json turn)) = headerLines json turn :=
    lines_intercalate (headerLines_ne_nil turn) (fun line hline => (hlines line hline).1)
      fun line hline => ⟨(hlines line hline).2.1, (hlines line hline).2.2.1⟩
  have hbody : ('\n' :: (turn.content.toList ++ closing)).dropPrefix? ['\n'] =
      some (turn.content.toList ++ closing) := dropPrefix?_append ['\n'] _
  rw [parseTurn, hclosing, dropPrefix?_append, Option.bind_some, hfence, Option.map_some]
  dsimp only
  rw [hread, foldl_headerLines h, hbody, Option.getD_some, rdropWhile_append_of_all hblank]
  rfl

end Codec

end TinyCortex.Archivist
