import TinyCortex.Archivist.Turn
import TinyCortex.Lib.Interleaving
import TinyCortex.Lib.Machine
import TinyCortex.Lib.OrderedMap

/-! The archive of a session (`record_turn` and `session_entries` of `archivist/store.rs`, `write_if_new` of
`store/content/atomic.rs`). Every directory entry a call reads, every existence check and every file operation is a
step of its own. -/

namespace TinyCortex.Archivist

open OrderedMap FrontMatter Locks

abbrev Dir := OrderedMap (List Char) (List Char)

/-- `{:06}`. -/
def padded (seq : UInt32) : List Char :=
  List.replicate (6 - (Nat.toDigits 10 seq.toNat).length) '0' ++ Nat.toDigits 10 seq.toNat

def fileName (seq : UInt32) : List Char := padded seq ++ ".md".toList

def tmpName (uuid : List Char) : List Char := ".tmp_".toList ++ uuid ++ ".md".toList

/-- The number `session_entries` reads off a name. -/
def fileSeq (name : List Char) : Option Nat :=
  (name.dropSuffix? ".md".toList).bind (Decimal.parseUnsigned (2 ^ 32))

/-- One turn of the loop in `next_seq`. -/
def scanEntry (max : Int) (name : List Char) : Int :=
  match (name.dropSuffix? ".md".toList).bind (Decimal.parseSigned (2 ^ 63)) with
  | some n => if n > max then n else max
  | none => max

/-- A call of `record_turn`: the scan with the greatest number so far, then what the call does with the number it
found, from the creation of the temporary file on with its name. -/
inductive Call
  | idle
  | scan (max : Int)
  | check (seq : UInt32)
  | stage (seq : UInt32)
  | link (seq : UInt32) (uuid : List Char)
  | linked (seq : UInt32) (uuid : List Char)
  | lost (seq : UInt32) (uuid : List Char)
  | missed (seq : UInt32)
  | recheck (seq : UInt32)
  | ok (seq : UInt32)
  | failed

/-- What became of the temporary file; a failed write may leave a part of it. -/
inductive Staged
  | written
  | failed (left : Option (List Char))

inductive Label (ι : Type*)
  | start (i : ι) (made : Bool)
  | entry (i : ι) (name : List Char)
  | scanned (i : ι)
  | look (i : ι)
  | stage (i : ι) (uuid : List Char) (staged : Staged)
  | link (i : ι) (supported : Bool)
  | clean (i : ι) (removed : Bool)

structure State (ι : Type*) where
  dir : Dir
  calls : ι → Call

section Store

variable {ι : Type*} [DecidableEq ι] (json : JsonStrings) (given : ι → ArchivedTurn)

def State.put (s : State ι) (i : ι) (call : Call) : State ι := { s with calls := Function.update s.calls i call }

/-- The turn a call writes under a number. -/
def assigned (i : ι) (seq : UInt32) : ArchivedTurn := { given i with seq := seq }

def State.taken (s : State ι) (seq : UInt32) : Bool := (get s.dir (fileName seq)).isSome

def step (s : State ι) : Label ι → State ι
  | .start i made =>
      match s.calls i with
      | .idle => s.put i (if made then .scan (-1) else .failed)
      | _ => s
  | .entry i name =>
      match s.calls i with
      | .scan max => if (get s.dir name).isSome then s.put i (.scan (scanEntry max name)) else s
      | _ => s
  | .scanned i =>
      match s.calls i with
      | .scan max => s.put i (.check (UInt32.ofNat (max + 1).toNat))
      | _ => s
  | .look i =>
      match s.calls i with
      | .check seq => s.put i (if s.taken seq then .scan (-1) else .stage seq)
      | .missed seq => s.put i (if s.taken seq then .scan (-1) else .recheck seq)
      | .recheck seq => s.put i (if s.taken seq then .scan (-1) else .failed)
      | _ => s
  | .stage i uuid staged =>
      match s.calls i with
      | .stage seq =>
          match staged with
          | .written =>
              { s.put i (.link seq uuid) with
                dir := insert s.dir (tmpName uuid) (composeTurn json (assigned given i seq)) }
          | .failed none => s.put i (.recheck seq)
          | .failed (some left) => { s.put i (.recheck seq) with dir := insert s.dir (tmpName uuid) left }
      | _ => s
  | .link i supported =>
      match s.calls i with
      | .link seq uuid =>
          match get s.dir (tmpName uuid) with
          | some text =>
              if supported ∧ ¬s.taken seq then
                { s.put i (.linked seq uuid) with dir := insert s.dir (fileName seq) text }
              else s.put i (.lost seq uuid)
          | none => s.put i (.lost seq uuid)
      | _ => s
  | .clean i removed =>
      match s.calls i with
      | .linked seq uuid =>
          { s.put i (.ok seq) with dir := if removed then erase s.dir (tmpName uuid) else s.dir }
      | .lost seq uuid =>
          { s.put i (.missed seq) with dir := if removed then erase s.dir (tmpName uuid) else s.dir }
      | _ => s

def machine : Machine (State ι) (Label ι) := ⟨⟨[], fun _ => .idle⟩, step json given⟩

/-- The files of a directory with a number for a name, by their numbers. -/
def sessionFiles (dir : List (List Char × List Char)) : List (Nat × List Char) :=
  (dir.filterMap fun file => (fileSeq file.1).map fun seq => (seq, file.2)).mergeSort fun a b => a.1 ≤ b.1

def sessionEntries (dir : List (List Char × List Char)) : List ArchivedTurn :=
  (sessionFiles dir).filterMap fun file => parseTurn json file.2

/-- `uuid::Uuid::new_v4` does not give the name of a temporary file that is there. -/
def Fresh (s : State ι) : Label ι → Prop
  | .stage _ uuid _ => get s.dir (tmpName uuid) = none
  | _ => True

omit [DecidableEq ι] in
instance Fresh.decidable (s : State ι) : ∀ label, Decidable (Fresh s label)
  | .stage _ uuid _ => inferInstanceAs (Decidable (get s.dir (tmpName uuid) = none))
  | .start _ _ | .entry _ _ | .scanned _ | .look _ | .link _ _ | .clean _ _ => isTrue trivial

end Store

/-! ### File names -/

theorem parse_padded (n : UInt32) : Decimal.parseUnsigned (2 ^ 32) (padded n) = some n.toNat :=
  Decimal.parseUnsigned_padded n.toNat_lt _

theorem parseSigned_padded (n : UInt32) : Decimal.parseSigned (2 ^ 63) (padded n) = some (n.toNat : Int) := by
  have hbound : n.toNat < 2 ^ 63 := lt_trans n.toNat_lt (by decide)
  have hparse : Decimal.parseUnsigned (2 ^ 63) (padded n) = some n.toNat := Decimal.parseUnsigned_padded hbound _
  unfold Decimal.parseSigned
  split
  · rename_i digits heq
    have hmem : '-' ∈ padded n := heq ▸ List.mem_cons_self
    rcases List.mem_append.mp hmem with hzero | hdigit
    · exact absurd (List.eq_of_mem_replicate hzero) (by decide)
    · exact absurd hdigit (Decimal.not_mem_toDigits (by decide) _)
  · rw [hparse]
    rfl

theorem stem_fileName (n : UInt32) : (fileName n).dropSuffix? ".md".toList = some (padded n) := dropSuffix?_append _ _

theorem stem_tmpName (uuid : List Char) :
    (tmpName uuid).dropSuffix? ".md".toList = some (".tmp_".toList ++ uuid) := dropSuffix?_append _ _

theorem parse_tmp (bound : Nat) (rest : List Char) : Decimal.parseUnsigned bound ('.' :: rest) = none := by
  have hdigits : Decimal.parseDigits ('.' :: rest) = none := by
    rw [Decimal.parseDigits, if_neg (by simp)]
  change (Decimal.parseDigits ('.' :: rest)).filter _ = none
  rw [hdigits, Option.filter_none]

theorem fileSeq_fileName (n : UInt32) : fileSeq (fileName n) = some n.toNat := by
  rw [fileSeq, stem_fileName, Option.bind_some, parse_padded]

theorem fileSeq_tmpName (uuid : List Char) : fileSeq (tmpName uuid) = none := by
  rw [fileSeq, stem_tmpName, Option.bind_some]
  exact parse_tmp _ _

theorem fileName_inj {n m : UInt32} (h : fileName n = fileName m) : n = m := by
  have hseq := congrArg fileSeq h
  rw [fileSeq_fileName, fileSeq_fileName] at hseq
  exact UInt32.toNat_inj.mp (Option.some.inj hseq)

theorem fileName_ne_tmpName (n : UInt32) (uuid : List Char) : fileName n ≠ tmpName uuid := by
  intro h
  have hseq := congrArg fileSeq h
  rw [fileSeq_fileName, fileSeq_tmpName] at hseq
  exact absurd hseq (Option.some_ne_none _)

theorem tmpName_inj {uuid other : List Char} (h : tmpName uuid = tmpName other) : uuid = other :=
  List.append_cancel_left (List.append_cancel_right h)

theorem scanEntry_fileName (max : Int) (n : UInt32) : scanEntry max (fileName n) = Max.max max (n.toNat : Int) := by
  rw [scanEntry, stem_fileName, Option.bind_some, parseSigned_padded]
  dsimp only
  split_ifs with h
  · exact (max_eq_right h.le).symm
  · exact (max_eq_left (not_lt.mp h)).symm

theorem scanEntry_tmpName (max : Int) (uuid : List Char) : scanEntry max (tmpName uuid) = max := by
  have hnone : Decimal.parseSigned (2 ^ 63) (".tmp_".toList ++ uuid) = none := by
    change (Decimal.parseUnsigned (2 ^ 63) ('.' :: ("tmp_".toList ++ uuid))).map Int.ofNat = none
    rw [parse_tmp, Option.map_none]
  rw [scanEntry, stem_tmpName, Option.bind_some, hnone]

end TinyCortex.Archivist
