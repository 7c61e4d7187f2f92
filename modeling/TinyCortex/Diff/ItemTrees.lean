import TinyCortex.Diff.ItemId

/-! The item trees of the ledger (`diff/ledger.rs`): each snapshot commit holds one tree of items for each
source, and a diff of two commits is read back as changes of items. The repository library is a parameter; a
blob stands for its content. Counters are natural numbers. -/

namespace TinyCortex.Diff

/-- The contents of a source's items by their encoded names. -/
abbrev SourceTree := OrderedMap String String

/-- The trees of the sources by their encoded names. -/
abbrev RootTree := OrderedMap String SourceTree

/-- The ledger with the tree of each commit. -/
structure TreeLedger where
  ledger : Ledger
  roots : List RootTree

def TreeLedger.empty : TreeLedger := ⟨Ledger.empty, []⟩

/-- One blob for each item; a later item replaces an earlier one of its name. -/
def sourceTree (items : List (String × String)) : SourceTree :=
  items.foldl (fun (tree : SourceTree) item => tree.insert (encodeItemId item.1) item.2) []

/-- The tree of the parent with the tree of one source replaced, or dropped if the source has no items. -/
def SnapshotCall.root (call : SnapshotCall) (parent : RootTree) : RootTree :=
  if call.items.isEmpty then OrderedMap.erase parent (encodeItemId call.snapshotMeta.sourceId)
  else OrderedMap.insert parent (encodeItemId call.snapshotMeta.sourceId) (sourceTree call.items)

/-- What `git2` reports of a path. -/
inductive DeltaStatus
  | unmodified
  | added
  | deleted
  | modified
  | renamed
  | copied
  | ignored
  | untracked
  | typechange
  | unreadable
  | conflicted
  deriving DecidableEq

/-- One entry of a tree diff; a side without a blob has the zero id. -/
structure Delta where
  path : String
  status : DeltaStatus
  oldFile : Option String
  newFile : Option String

/-- What the code uses of the repository library. -/
structure Git2 where
  diffTreeToTree : RootTree → RootTree → String → List Delta
  patch : List Delta → Nat → Option String
  oid : String → String

inductive ChangeKind
  | added
  | removed
  | modified
  deriving DecidableEq

/-- An `ItemChange` with all of its fields. -/
structure FullItemChange where
  itemId : String
  title : String
  kind : ChangeKind
  oldContentHash : Option String
  newContentHash : Option String
  textDiff : Option String
  deriving DecidableEq

structure DiffSummary where
  added : Nat
  removed : Nat
  modified : Nat
  unchanged : Nat
  deriving DecidableEq

/-- At most so many bytes of a text. -/
def truncate (s : String) (maxChars : Nat) : String :=
  if s.utf8ByteSize ≤ maxChars then s
  else String.ofList (Text.takeBytes maxChars s.toList) ++ "…(truncated)"

/-- The first line that is not blank, without its heading markers. -/
def deriveTitle (itemId content : String) : String :=
  match ((FrontMatter.lines content.toList).map FrontMatter.trim).find? (· ≠ []) with
  | some line =>
      let title := FrontMatter.trim (line.dropWhile (· = '#'))
      if title ≠ [] then truncate (String.ofList title) 120 else itemId
  | none => itemId

def titleFor (itemId : String) (file : Option String) : String := file.elim itemId (deriveTitle itemId)

def maxTextDiffChars : Nat := 2000

def patchText (git : Git2) (diff : List Delta) (idx : Nat) : Option String :=
  (git.patch diff idx).bind fun text =>
    if Text.trim text = "" then none else some (truncate text maxTextDiffChars)

/-- The kind of change that a status stands for, if it is reported. -/
def DeltaStatus.kind : DeltaStatus → Option ChangeKind
  | .added | .copied | .untracked => some .added
  | .deleted => some .removed
  | .modified | .renamed | .typechange => some .modified
  | .unmodified | .ignored | .unreadable | .conflicted => none

/-- The item that a path below a source's directory stands for. -/
def itemOfPath (pathPrefix path : String) : Option String :=
  (path.toList.dropPrefix? pathPrefix.toList).map fun encoded => decodeItemId (String.ofList encoded)

def fullItemChange (git : Git2) (diff : List Delta) (includeTextDiff : Bool) (idx : Nat) (delta : Delta)
    (itemId : String) (kind : ChangeKind) : FullItemChange where
  itemId := itemId
  title := titleFor itemId (if kind = .removed then delta.oldFile else delta.newFile)
  kind := kind
  oldContentHash := delta.oldFile.map git.oid
  newContentHash := delta.newFile.map git.oid
  textDiff := if includeTextDiff ∧ kind = .modified then patchText git diff idx else none

def DiffSummary.count (summary : DiffSummary) : ChangeKind → DiffSummary
  | .added => { summary with added := summary.added + 1 }
  | .removed => { summary with removed := summary.removed + 1 }
  | .modified => { summary with modified := summary.modified + 1 }

/-- The loop over the deltas, from the one at `idx` on. -/
def deltaLoop (git : Git2) (diff : List Delta) (pathPrefix : String) (includeTextDiff : Bool) :
    List Delta → Nat → List FullItemChange → DiffSummary → List FullItemChange × DiffSummary
  | [], _, changes, summary => (changes, summary)
  | delta :: deltas, idx, changes, summary =>
      match itemOfPath pathPrefix delta.path with
      | none => deltaLoop git diff pathPrefix includeTextDiff deltas (idx + 1) changes summary
      | some itemId =>
          match delta.status.kind with
          | none => deltaLoop git diff pathPrefix includeTextDiff deltas (idx + 1) changes summary
          | some kind =>
              deltaLoop git diff pathPrefix includeTextDiff deltas (idx + 1)
                (changes ++ [fullItemChange git diff includeTextDiff idx delta itemId kind]) (summary.count kind)

namespace TreeLedger

variable (t : TreeLedger)

/-- The new commit gets the tree of the head with the source's tree replaced. -/
def commitSnapshot (call : SnapshotCall) : TreeLedger × Except String Snapshot :=
  match t.ledger.commitSnapshot call with
  | (ledger, .ok snapshot) => (⟨ledger, t.roots ++ [call.root (t.roots.getLast?.getD [])]⟩, .ok snapshot)
  | (ledger, .error error) => (⟨ledger, t.roots⟩, .error error)

/-- The ledger after some calls. -/
def commitAll (calls : List SnapshotCall) : TreeLedger :=
  calls.foldl (fun t call => (t.commitSnapshot call).1) t

def findTree (id : Nat) : Except String RootTree :=
  match t.roots[id]? with
  | some root => .ok root
  | none => .error "object not found"

/-- The changes from one commit, or from nothing, to another. -/
def computeChanges (git : Git2) (fromId : Option Nat) (toId : Nat) (sourceId : String) (toItemCount : Nat)
    (includeTextDiff : Bool) : Except String (List FullItemChange × DiffSummary) := do
  let toTree ← t.findTree toId
  let fromTree ← match fromId with
    | some id => t.findTree id
    | none => .ok []
  let pathPrefix := encodeItemId sourceId ++ "/"
  let diff := git.diffTreeToTree fromTree toTree (encodeItemId sourceId)
  let (changes, summary) := deltaLoop git diff pathPrefix includeTextDiff diff 0 [] ⟨0, 0, 0, 0⟩
  return (changes, { summary with unchanged := toItemCount - summary.added - summary.modified })

end TreeLedger
end TinyCortex.Diff
