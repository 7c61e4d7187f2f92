import TinyCortex.Diff.Trailers
import TinyCortex.Lib.TimeWalk

/-! The diff ledger (`diff/ledger.rs`, `diff/diff.rs`): a linear history of snapshot commits and the read
markers of the sources. An object id is the place of its commit in the history. The walk of the history
that the repository delivers is an argument; items and their changes are left out. -/

namespace TinyCortex.Diff

structure Snapshot where
  id : Nat
  sourceId : String
  sourceKind : String
  label : String
  trigger : SnapshotTrigger
  itemCount : Nat
  takenAtMs : Int
  deriving DecidableEq

structure Commit where
  id : Nat
  message : String
  seconds : Int
  deriving DecidableEq

/-- A call of `commit_snapshot`. -/
structure SnapshotCall where
  snapshotMeta : SnapshotMeta
  items : List (String × String)
  takenAtMs : Int
  deriving DecidableEq

structure DiffResult where
  sourceId : String
  sourceKind : String
  sourceLabel : String
  fromSnapshotId : Option Nat
  toSnapshotId : Nat
  deriving DecidableEq

/-- The commits, the oldest first, and the markers by their references. -/
structure Ledger where
  commits : List Commit
  readMarkers : String → Option Nat

def Ledger.empty : Ledger := ⟨[], fun _ => none⟩

/-- The commit time of a signature. -/
def signatureSeconds (atMs : Int) : Int := atMs.tdiv 1000

def upperHexByte (byte : UInt8) : List Char :=
  [(Nat.digitChar (byte.toNat / 16)).toUpper, (Nat.digitChar (byte.toNat % 16)).toUpper]

def encodeItemId (itemId : String) : String :=
  String.ofList ("i_".toList ++ (Lines.encode itemId).flatMap fun b =>
    let c := Char.ofNat b.toNat
    if c.isAlphanum ∨ c = '.' ∨ c = '_' ∨ c = '-' then [c] else '%' :: upperHexByte b)

def readMarkerRef (sourceId : String) : String := "refs/openhuman/read/" ++ encodeItemId sourceId

/-- A snapshot as its commit tells it. -/
def snapshotFromCommit (commit : Commit) : Snapshot :=
  let trailers := parseTrailers commit.message
  { id := commit.id
    sourceId := (trailers.get "source-id").getD ""
    sourceKind := (trailers.get "source-kind").getD ""
    label := (trailers.get "source-label").getD ""
    trigger := if trailers.get "trigger" = some "manual" then .manual else .auto
    itemCount := ((trailers.get "item-count").bind parseU32).getD 0
    takenAtMs := ((trailers.get "taken-at-ms").bind parseI64).getD (commit.seconds * 1000) }

/-- The commit of a call as the next one of the history. -/
def SnapshotCall.commit (call : SnapshotCall) (id : Nat) : Commit where
  id := id
  message := buildCommitMessage call.snapshotMeta call.items.length call.takenAtMs
  seconds := signatureSeconds call.takenAtMs

/-- The filtered walk, cut off when enough snapshots are found. -/
def listLoop (filter : Option String) (limit : Nat) : List Commit → List Snapshot → List Snapshot
  | [], out => out
  | commit :: rest, out =>
      if filter.any fun sourceId => (snapshotFromCommit commit).sourceId ≠ sourceId then
        listLoop filter limit rest out
      else if limit ≤ (out ++ [snapshotFromCommit commit]).length then
        out ++ [snapshotFromCommit commit]
      else listLoop filter limit rest (out ++ [snapshotFromCommit commit])

namespace Ledger

variable (ledger : Ledger)

def commitSnapshot (call : SnapshotCall) : Ledger × Except String Snapshot :=
  match validateSourceId call.snapshotMeta.sourceId with
  | .error error => (ledger, .error error)
  | .ok () =>
      ({ ledger with commits := ledger.commits ++ [call.commit ledger.commits.length] },
        .ok { id := ledger.commits.length
              sourceId := call.snapshotMeta.sourceId
              sourceKind := call.snapshotMeta.sourceKind
              label := call.snapshotMeta.label
              trigger := call.snapshotMeta.trigger
              itemCount := call.items.length
              takenAtMs := call.takenAtMs })

/-- What the repository may deliver: the history by descending commit time. -/
abbrev Walk (order : List Commit) : Prop := TimeWalk Commit.seconds ledger.commits order

/-- The snapshots along a walk of the history. -/
def listSnapshots (order : List Commit) (sourceId : Option String) (limit : Nat) : List Snapshot :=
  listLoop sourceId limit order []

def latestSnapshotsForSource (order : List Commit) (sourceId : String) (count : Nat) :
    List Snapshot :=
  listSnapshots order (some sourceId) count

def getSnapshot (id : Nat) : Option Snapshot :=
  (ledger.commits.find? fun commit => commit.id = id).map snapshotFromCommit

def getReadMarker (sourceId : String) : Option Nat := ledger.readMarkers (readMarkerRef sourceId)

/-- Along a linear history the descendants of a commit are the later ones. -/
def setReadMarker (sourceId : String) (id : Nat) : Ledger × Except String Unit :=
  match ledger.getSnapshot id with
  | none => (ledger, .error "read-marker snapshot not found")
  | some snapshot =>
      if snapshot.sourceId ≠ sourceId then
        (ledger, .error ("snapshot belongs to source '" ++ snapshot.sourceId ++ "', not '" ++
          sourceId ++ "'"))
      else
        let moved : Ledger :=
          { ledger with
            readMarkers := Function.update ledger.readMarkers (readMarkerRef sourceId) (some id) }
        match ledger.getReadMarker sourceId with
        | none => (moved, .ok ())
        | some current =>
            if current = id then (ledger, .ok ())
            else if current < id then (moved, .ok ())
            else
              (ledger, .error ("refusing to move read marker for '" ++ sourceId ++ "' backwards"))

def diffOf (fromSnapshotId : Option Nat) (toSnap : Snapshot) : DiffResult where
  sourceId := toSnap.sourceId
  sourceKind := toSnap.sourceKind
  sourceLabel := toSnap.label
  fromSnapshotId := fromSnapshotId
  toSnapshotId := toSnap.id

def computeDiff (fromSnapshotId : Option Nat) (toSnapshotId : Nat) : Except String DiffResult :=
  match ledger.getSnapshot toSnapshotId with
  | none => .error "snapshot not found"
  | some toSnap =>
      match fromSnapshotId with
      | none => .ok (diffOf none toSnap)
      | some id =>
          match ledger.getSnapshot id with
          | none => .error "snapshot not found"
          | some fromSnap =>
              if fromSnap.sourceId ≠ toSnap.sourceId then
                .error ("cross-source diff not allowed: from=" ++ fromSnap.sourceId ++ " to=" ++
                  toSnap.sourceId)
              else .ok (diffOf (some fromSnap.id) toSnap)

/-- The diff of the two snapshots listed first. -/
def diffListed : List Nat → Except String DiffResult
  | [] => .error "no snapshots found for this source"
  | [last] => ledger.computeDiff none last
  | last :: previous :: _ => ledger.computeDiff (some previous) last

def diffSinceLast (order : List Commit) (sourceId : String) : Except String DiffResult :=
  ledger.diffListed ((latestSnapshotsForSource order sourceId 2).map (·.id))

/-- The marker, if its snapshot is there. -/
def readBase (sourceId : String) : Option Nat :=
  (ledger.getReadMarker sourceId).filter fun id => (ledger.getSnapshot id).isSome

/-- The diff from the read marker to a snapshot, which becomes the marker if that is wanted. -/
def diffToHead (sourceId : String) (head : Option Nat) (commit : Bool) :
    Ledger × Except String DiffResult :=
  match head with
  | none => (ledger, .error "no snapshots found for this source")
  | some id =>
      match ledger.computeDiff (ledger.readBase sourceId) id with
      | .error error => (ledger, .error error)
      | .ok diff =>
          if commit then
            match ledger.setReadMarker sourceId id with
            | (moved, .ok ()) => (moved, .ok diff)
            | (moved, .error error) => (moved, .error error)
          else (ledger, .ok diff)

def diffSinceRead (order : List Commit) (sourceId : String) (commit : Bool) :
    Ledger × Except String DiffResult :=
  ledger.diffToHead sourceId
    (((latestSnapshotsForSource order sourceId 1).map (·.id)).head?) commit

/-- The ledger after some calls. -/
def commitAll (calls : List SnapshotCall) : Ledger :=
  calls.foldl (fun ledger call => (ledger.commitSnapshot call).1) ledger

end Ledger
end TinyCortex.Diff
