import TinyCortex.Lib.Lines
import TinyCortex.Lib.Text

/-! Messages and hits of the conversation store (`conversations/types.rs`). -/

namespace TinyCortex.Conversations

/-- One row of a thread's transcript; `extraMetadata` is its JSON text. -/
structure ConversationMessage where
  id : String
  content : String
  messageType : String
  extraMetadata : String
  sender : String
  createdAt : String
  deriving DecidableEq, Repr

/-- A match of a search across threads. -/
structure CrossThreadHit where
  threadId : String
  messageId : String
  role : String
  content : String
  createdAt : String
  score : ℚ
  deriving DecidableEq

/-- The ids that two writers may present for one message. -/
def deterministicMessageIdPrefix : String := "agent:"

def isDeterministicMessageId (id : String) : Bool :=
  deterministicMessageIdPrefix.toList.isPrefixOf id.toList

end TinyCortex.Conversations

/-! Appending to and reading a file of JSON lines (`conversations/store.rs`). The appender looks at
nothing but the end of the file; the reader gives up on a line that is not UTF-8 and drops one that is
not JSON. -/

namespace TinyCortex.Conversations

/-- The two directions of the serializer for one type. -/
structure JsonCodec (α : Type*) where
  toString : α → String
  fromStr : String → Option α

/-- A value is one compact line and comes back from it. -/
structure JsonCodec.Lawful {α : Type*} (codec : JsonCodec α) : Prop where
  oneLine : ∀ value, '\n' ∉ (codec.toString value).toList
  trimmed : ∀ value, Text.trim (codec.toString value) = codec.toString value
  nonEmpty : ∀ value, codec.toString value ≠ ""
  roundTrip : ∀ value, codec.fromStr (codec.toString value) = some value

namespace Jsonl

open Lines

variable {α : Type*} (codec : JsonCodec α)

/-- The value of a line, if there is one. -/
def lineValue (line : String) : Option α :=
  if Text.trim line = "" then none else codec.fromStr (Text.trim line)

def readLines (path : String) : Nat → List (List UInt8) → Except String (List α)
  | _, [] => .ok []
  | lineNo, line :: lines =>
      match decode line with
      | none => .error ("read " ++ path ++ " line " ++ toString (lineNo + 1) ++
          ": stream did not contain valid UTF-8")
      | some text =>
          (readLines path (lineNo + 1) lines).map fun items => (lineValue codec text).toList ++ items

/-- The lines of a file, the last one even if it is not terminated. -/
def fileLines (bytes : List UInt8) : List (List UInt8) :=
  let pieces := split newline bytes
  if pieces.2 = [] then pieces.1 else pieces.1 ++ [pieces.2]

def readJsonl (path : String) : Option (List UInt8) → Except String (List α)
  | none => .ok []
  | some bytes => readLines codec path 0 (fileLines bytes)

def line (value : α) : List UInt8 := encode (codec.toString value)

def appendJsonl (file : Option (List UInt8)) (value : α) : Option (List UInt8) :=
  some (file.getD [] ++ (line codec value ++ [newline]))

/-- What a crash leaves of a file of records. -/
def torn (records : List α) (cut : Nat) : List UInt8 :=
  (joined newline (records.map (line codec))).take cut

/-- The records whose lines are there with their newlines. -/
def complete (records : List α) (cut : Nat) : List α :=
  records.take (split newline (torn codec records cut)).1.length

/-- The torn tail reads as nothing; or, continued by the next record, as that record. -/
def TailHarmless (tail : List UInt8) : List α → Prop
  | [] => ∃ text, decode tail = some text ∧ lineValue codec text = none
  | value :: _ =>
      ∃ text, decode (tail ++ line codec value) = some text ∧ lineValue codec text = some value

variable {codec}

theorem lineValue_toString (h : codec.Lawful) (value : α) :
    lineValue codec (codec.toString value) = some value := by
  rw [lineValue, h.trimmed, if_neg (h.nonEmpty value), h.roundTrip]

theorem newline_not_mem_line (h : codec.Lawful) (value : α) : newline ∉ line codec value :=
  newline_not_mem_encode (h.oneLine value)

/-- Lines of records read as the records. -/
theorem readLines_map_append (h : codec.Lawful) (path : String) (records : List α) (lineNo : Nat)
    (lines : List (List UInt8)) :
    readLines codec path lineNo (records.map (line codec) ++ lines) =
      (readLines codec path (lineNo + records.length) lines).map (records ++ ·) := by
  induction records generalizing lineNo with
  | nil =>
      change readLines codec path lineNo lines = _
      cases readLines codec path (lineNo + 0) lines <;> rfl
  | cons record records ih =>
      rw [List.map_cons, List.cons_append, readLines, line, decode_encode]
      dsimp only
      rw [ih, lineValue_toString h, Nat.add_assoc, Nat.add_comm 1, List.length_cons]
      cases readLines codec path (lineNo + (records.length + 1)) lines <;> rfl

theorem foldl_appendJsonl (bytes : List UInt8) (values : List α) :
    values.foldl (appendJsonl codec) (some bytes) =
      some (bytes ++ joined newline (values.map (line codec))) := by
  induction values generalizing bytes with
  | nil => rw [List.foldl_nil, List.map_nil, joined, List.flatMap_nil, List.append_nil]
  | cons value values ih =>
      rw [List.foldl_cons, appendJsonl, Option.getD_some, ih, List.map_cons, joined_cons,
        List.append_assoc, List.append_assoc]
      rfl

/-- The terminated lines that a crash leaves are those of the complete records. -/
theorem split_torn (h : codec.Lawful) (records : List α) (cut : Nat) :
    (split newline (torn codec records cut)).1 = (complete codec records cut).map (line codec) := by
  have hlines : ∀ bytes ∈ records.map (line codec), newline ∉ bytes := by
    intro bytes hbytes
    obtain ⟨value, -, rfl⟩ := List.mem_map.mp hbytes
    exact newline_not_mem_line h value
  rw [complete, List.map_take]
  exact List.prefix_iff_eq_take.mp (split_take_joined hlines cut)

theorem map_append_eq_ok {read : Except String (List α)} {items values : List α} :
    read.map (items ++ ·) = .ok (items ++ values) ↔ read = .ok values := by
  cases read with
  | error message => exact iff_of_false nofun nofun
  | ok found =>
      change Except.ok (items ++ found) = .ok (items ++ values) ↔ _
      rw [Except.ok.injEq, Except.ok.injEq, List.append_cancel_left_eq]

theorem fileLines_torn (h : codec.Lawful) (records : List α) (cut : Nat) :
    fileLines (torn codec records cut) = (complete codec records cut).map (line codec) ++
      if (split newline (torn codec records cut)).2 = [] then []
      else [(split newline (torn codec records cut)).2] := by
  rw [fileLines, split_torn h]
  split_ifs
  · rw [List.append_nil]
  · rfl

/-- The first record appended lands on the line of the tail. -/
theorem fileLines_appended (h : codec.Lawful) (records : List α) (cut : Nat) (value : α)
    (values : List α) :
    fileLines (torn codec records cut ++ joined newline ((value :: values).map (line codec))) =
      (complete codec records cut).map (line codec) ++
        ((split newline (torn codec records cut)).2 ++ line codec value) ::
          values.map (line codec) := by
  have hlines : ∀ bytes ∈ ((split newline (torn codec records cut)).2 ++ line codec value) ::
      values.map (line codec), newline ∉ bytes := by
    refine List.forall_mem_cons.mpr ⟨?_, fun bytes hbytes => ?_⟩
    · rw [List.mem_append, not_or]
      exact ⟨not_mem_tail _, newline_not_mem_line h value⟩
    · obtain ⟨other, -, rfl⟩ := List.mem_map.mp hbytes
      exact newline_not_mem_line h other
  have hjoin : (split newline (torn codec records cut)).2 ++
      joined newline ((value :: values).map (line codec)) =
        joined newline (((split newline (torn codec records cut)).2 ++ line codec value) ::
          values.map (line codec)) := by
    rw [List.map_cons, joined_cons, joined_cons, List.append_assoc]
  rw [fileLines, split_append, hjoin, split_joined hlines, split_torn h]
  dsimp only
  rw [if_pos rfl]

theorem readLines_tail (path : String) (lineNo : Nat) {tail : List UInt8} :
    readLines codec path lineNo (if tail = [] then [] else [tail]) = .ok [] ↔
      TailHarmless codec tail [] := by
  rw [TailHarmless]
  split_ifs with htail
  · subst htail
    refine iff_of_true rfl ⟨"", decode_encode "", ?_⟩
    exact if_pos (by decide)
  · rw [readLines]
    cases decode tail with
    | none => exact iff_of_false nofun nofun
    | some text =>
        change Except.ok ((lineValue codec text).toList ++ []) = .ok [] ↔ _
        rw [Except.ok.injEq, List.append_nil, Option.toList_eq_nil_iff]
        simp

theorem readLines_continued (h : codec.Lawful) {path : String} {lineNo : Nat} {tail : List UInt8}
    {value : α} {values : List α} :
    readLines codec path lineNo ((tail ++ line codec value) :: values.map (line codec)) =
      .ok (value :: values) ↔ TailHarmless codec tail (value :: values) := by
  have hrest := readLines_map_append h path values (lineNo + 1) []
  rw [List.append_nil, readLines] at hrest
  rw [TailHarmless, readLines]
  cases decode (tail ++ line codec value) with
  | none => exact iff_of_false nofun nofun
  | some text =>
      dsimp only
      rw [hrest]
      change Except.ok ((lineValue codec text).toList ++ (values ++ [])) = .ok (value :: values) ↔ _
      rw [Except.ok.injEq, List.append_nil, ← List.singleton_append, List.append_cancel_right_eq]
      simp only [Option.some.injEq, exists_eq_left']
      cases lineValue codec text <;> simp

/-- After a crash and further appends the file reads as the complete records and the appended ones
exactly if the torn tail does no harm. -/
theorem readsBack_iff (h : codec.Lawful) (path : String) (records : List α) (cut : Nat)
    (values : List α) :
    readJsonl codec path (values.foldl (appendJsonl codec) (some (torn codec records cut))) =
        .ok (complete codec records cut ++ values) ↔
      TailHarmless codec (split newline (torn codec records cut)).2 values := by
  rw [foldl_appendJsonl, readJsonl]
  cases values with
  | nil =>
      rw [List.map_nil, joined, List.flatMap_nil, List.append_nil, fileLines_torn h,
        readLines_map_append h, map_append_eq_ok]
      exact readLines_tail path _
  | cons value values =>
      rw [fileLines_appended h, readLines_map_append h, map_append_eq_ok]
      exact readLines_continued h

/-- A file that ends with its newline reads back whatever is appended. -/
theorem tailHarmless_nil (h : codec.Lawful) (values : List α) : TailHarmless codec [] values := by
  cases values with
  | nil => exact (readLines_tail "" 0).mp rfl
  | cons value values =>
      refine ⟨codec.toString value, ?_, lineValue_toString h value⟩
      rw [List.nil_append, line, decode_encode]

section Sample

/-- Two lines of the log of threads. -/
inductive Tombstone
  | first
  | second
  deriving DecidableEq

def Tombstone.json : Tombstone → String
  | .first => "\x7b\"op\":\"delete\",\"thread_id\":\"a\",\"deleted_at\":\"d\"\x7d"
  | .second => "\x7b\"op\":\"delete\",\"thread_id\":\"b\",\"deleted_at\":\"d\"\x7d"

def tombstones : JsonCodec Tombstone where
  toString := Tombstone.json
  fromStr text := [Tombstone.first, .second].find? fun value => value.json = text

theorem tombstones_lawful : tombstones.Lawful where
  oneLine value := by cases value <;> decide +kernel
  trimmed value := by cases value <;> decide +kernel
  nonEmpty value := by cases value <;> decide +kernel
  roundTrip value := by cases value <;> decide +kernel

/-- The first line is whole, of the second nothing was written. -/
theorem readsBack_tombstones :
    readJsonl tombstones "threads.jsonl"
      ([Tombstone.second].foldl (appendJsonl tombstones) (some (torn tombstones [.first, .first] 49))) =
        .ok (complete tombstones [.first, .first] 49 ++ [.second]) := by
  refine (readsBack_iff tombstones_lawful _ _ 49 _).mpr ?_
  have htail : (split newline (torn tombstones [.first, .first] 49)).2 = [] := by decide +kernel
  rw [htail]
  exact tailHarmless_nil tombstones_lawful _

/-- A record appended behind a torn one is lost with it. -/
theorem appended_record_lost :
    readJsonl tombstones "threads.jsonl"
      ([Tombstone.second].foldl (appendJsonl tombstones) (some (torn tombstones [.first] 10))) ≠
        .ok (complete tombstones [.first] 10 ++ [.second]) := by
  have hlines : ([Tombstone.second].foldl (appendJsonl tombstones)
      (some (torn tombstones [.first] 10))).map fileLines =
        some [encode ("\x7b\"op\":\"del" ++ Tombstone.json .second)] := by decide +kernel
  obtain ⟨bytes, hbytes, hpieces⟩ := Option.map_eq_some_iff.mp hlines
  rw [hbytes, readJsonl, hpieces, readLines, decode_encode]
  decide +kernel

end Sample

end Jsonl
end TinyCortex.Conversations
