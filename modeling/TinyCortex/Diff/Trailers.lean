import TinyCortex.Lib.Decimal
import TinyCortex.Lib.Lines
import TinyCortex.Lib.OrderedMap
import TinyCortex.Lib.Text

/-! What a snapshot commit says about its snapshot (`diff/ledger_helpers.rs`): a subject, and trailers
with the source, which reading the commit parses back. -/

namespace TinyCortex.Diff

inductive SnapshotTrigger
  | auto
  | manual
  deriving DecidableEq

def SnapshotTrigger.asStr : SnapshotTrigger → String
  | .auto => "auto"
  | .manual => "manual"

structure SnapshotMeta where
  sourceId : String
  sourceKind : String
  label : String
  trigger : SnapshotTrigger
  deriving DecidableEq

/-- A label on one line. -/
def sanitizeTrailer (s : String) : String :=
  String.ofList (s.toList.map fun c => if c = '\n' ∨ c = '\r' then ' ' else c)

def buildCommitMessage (snapshotMeta : SnapshotMeta) (itemCount : Nat) (takenAtMs : Int) : String :=
  "snapshot: " ++ snapshotMeta.sourceId ++ " (" ++ toString itemCount ++ " item(s))\n\n" ++
    "Source-Id: " ++ snapshotMeta.sourceId ++ "\n" ++
    "Source-Kind: " ++ snapshotMeta.sourceKind ++ "\n" ++
    "Source-Label: " ++ sanitizeTrailer snapshotMeta.label ++ "\n" ++
    "Trigger: " ++ snapshotMeta.trigger.asStr ++ "\n" ++
    "Item-Count: " ++ toString itemCount ++ "\n" ++
    "Taken-At-Ms: " ++ toString takenAtMs ++ "\n"

/-- What follows the last blank line. -/
def rsplitOnceBlank : List Char → Option (List Char)
  | [] => none
  | c :: rest =>
      (rsplitOnceBlank rest).or
        (match c, rest with
        | '\n', '\n' :: block => some block
        | _, _ => none)

/-- `str::lines`. -/
def lines (text : List Char) : List (List Char) :=
  let pieces := Lines.split '\n' text
  (if pieces.2 = [] then pieces.1 else pieces.1 ++ [pieces.2]).map fun line =>
    if line.getLast? = some '\r' then line.dropLast else line

/-- The key and the value of a trailer line. -/
def parseTrailer (line : List Char) : Option (String × String) :=
  if line.contains ':' then
    let key := (Text.trim (String.ofList (line.takeWhile (· ≠ ':')))).map Char.toLower
    if key ≠ "" ∧ ' ' ∉ key.toList then
      some (key, Text.trim (String.ofList ((line.dropWhile (· ≠ ':')).drop 1)))
    else none
  else none

/-- The trailers of a message; the last one of a key counts. -/
def parseTrailers (message : String) : OrderedMap String String :=
  ((lines ((rsplitOnceBlank (Text.trimEnd message).toList).getD message.toList)).filterMap
    parseTrailer).foldl (fun trailers trailer => trailers.insert trailer.1 trailer.2) []

def parseDigits (digits : List Char) : Option Nat :=
  if digits ≠ [] ∧ digits.all Char.isDigit then
    some (digits.foldl (fun n c => 10 * n + (c.toNat - '0'.toNat)) 0)
  else none

theorem parseDigits_eq (digits : List Char) : parseDigits digits = Decimal.parseDigits digits := by
  rw [parseDigits, Decimal.parseDigits, Nat.ofDigitChars]

theorem parseDigits_toDigits (n : Nat) : parseDigits (Nat.toDigits 10 n) = some n :=
  (parseDigits_eq _).trans (Decimal.parseDigits_padded 0 n)

/-- `str::parse::<i64>`. -/
def parseI64 (text : String) : Option Int :=
  (match text.toList with
    | '-' :: digits => (parseDigits digits).map fun n => -(n : Int)
    | '+' :: digits => (parseDigits digits).map Int.ofNat
    | digits => (parseDigits digits).map Int.ofNat).filter fun n => -2 ^ 63 ≤ n ∧ n < 2 ^ 63

/-- `str::parse::<u32>`. -/
def parseU32 (text : String) : Option Nat :=
  (match text.toList with
    | '+' :: digits => parseDigits digits
    | digits => parseDigits digits).filter fun n => n < 2 ^ 32

/-- `char::is_control`. -/
def isControl (c : Char) : Bool := c.toNat < 32 || (127 ≤ c.toNat && c.toNat < 160)

def validateSourceId (sourceId : String) : Except String Unit :=
  if Text.trim sourceId = "" then .error "source id must not be blank"
  else if sourceId.toList.any isControl then
    .error "source id must not contain control characters"
  else .ok ()

/-- The source that a commit of the snapshot is read back as. -/
def sourceReadBack (snapshotMeta : SnapshotMeta) (itemCount : Nat) (takenAtMs : Int) : String :=
  ((parseTrailers (buildCommitMessage snapshotMeta itemCount takenAtMs)).get "source-id").getD ""

end TinyCortex.Diff
