import TinyCortex.Lib.Machine
import TinyCortex.Lib.OrderedMap

/-! The synchronization of a local source (`sync/workspace.rs`, `sync/state.rs`). What the folder holds at a
tick, which call of the tick fails, and whether it takes effect nevertheless, comes from outside; so does
what chrono makes of a timestamp. -/

namespace TinyCortex.Sync.Workspace

inductive SourceKind
  | composio
  | conversation
  | folder
  | githubRepo
  | twitterQuery
  | rssFeed
  | webPage
  deriving DecidableEq

def SourceKind.asStr : SourceKind → String
  | .composio => "composio"
  | .conversation => "conversation"
  | .folder => "folder"
  | .githubRepo => "github_repo"
  | .twitterQuery => "twitter_query"
  | .rssFeed => "rss_feed"
  | .webPage => "web_page"

structure MemorySourceEntry where
  id : String
  kind : SourceKind
  enabled : Bool

/-- A listed item, and what reading it gives. -/
structure File where
  id : String
  updatedAtMs : Option Int
  body : String
  deriving DecidableEq

structure LocalDocument where
  sourceId : String
  pathScope : Option String
  owner : String
  tags : List String
  title : String
  body : String
  modifiedAtMs : Int
  sourceRef : Option String
  deriving DecidableEq

/-- The fields of `SyncState` that a tick uses. -/
structure SyncState where
  itemVersions : OrderedMap String String
  lastSyncAtMs : Option Nat
  deriving DecidableEq

structure SyncOutcome where
  recordsIngested : Nat
  note : Option String
  deriving DecidableEq

/-- How a call to the host ends; one that fails may have taken effect. -/
inductive Outcome
  | done
  | failed
  | failedAfter
  deriving DecidableEq

/-- A call to the document sink that took effect. -/
inductive SinkCall
  | upsert (itemId version : String)
  | delete (itemId : String)
  deriving DecidableEq

def SinkCall.itemId : SinkCall → String
  | .upsert itemId _ => itemId
  | .delete itemId => itemId

/-- The stored documents, the saved state, and the calls to the sink since the last tick that succeeded. -/
structure Host where
  documents : OrderedMap String LocalDocument
  state : Option SyncState
  calls : List SinkCall
  deriving DecidableEq

inductive TickError
  | load
  | list
  | read (itemId : String)
  | upsert (itemId : String)
  | delete (itemId : String)
  | save
  deriving DecidableEq

/-- An order in which a hash map gives its keys. -/
structure KeyOrder where
  keys : List String → List String
  perm : ∀ l, (keys l).Perm l

/-- All that comes from outside during a tick. -/
structure Tick where
  files : List File
  loadFails : Bool
  listFails : Bool
  readFails : String → Bool
  upsert : String → Outcome
  delete : String → Outcome
  save : Outcome
  nowMs : String → Int
  savedAtMs : Nat
  order : KeyOrder

/-- A call to the host: what it leaves, and whether it succeeded. -/
def Outcome.call {σ : Type} (outcome : Outcome) (before after : σ) : σ × Bool :=
  match outcome with
  | .done => (after, true)
  | .failed => (before, false)
  | .failedAfter => (after, false)

def File.version (file : File) : String :=
  match file.updatedAtMs with
  | some value => toString value
  | none => "unknown"

section Tick

variable (fromTimestampMillis : Int → Option Int) (source : MemorySourceEntry)

def sourceId (itemId : String) : String := "mem_src:" ++ source.id ++ ":" ++ itemId

def document (nowMs : Int) (file : File) : LocalDocument where
  sourceId := sourceId source file.id
  pathScope := none
  owner := "user"
  tags := ["memory_sources", source.kind.asStr]
  title := file.id
  body := file.body
  modifiedAtMs := (file.updatedAtMs.bind fromTimestampMillis).getD nowMs
  sourceRef := some (source.id ++ ":" ++ file.id)

/-- The item is taken for stored at its version. -/
def skips (saved : OrderedMap String String) (file : File) : Bool :=
  file.updatedAtMs.isSome && saved.get file.id == some file.version

def Host.upsert (host : Host) (nowMs : Int) (file : File) : Host :=
  { host with
    documents := host.documents.insert (sourceId source file.id)
      (document fromTimestampMillis source nowMs file)
    calls := host.calls ++ [.upsert file.id file.version] }

def Host.delete (host : Host) (itemId : String) : Host :=
  { host with
    documents := host.documents.erase (sourceId source itemId)
    calls := host.calls ++ [.delete itemId] }

/-- The loop over the items. -/
def itemLoop (tick : Tick) (saved : OrderedMap String String) :
    List File → Host → OrderedMap String String → Nat →
      Host × Except TickError (OrderedMap String String × Nat)
  | [], host, versions, ingested => (host, .ok (versions, ingested))
  | file :: files, host, versions, ingested =>
      let versions := versions.insert file.id file.version
      if skips saved file then itemLoop tick saved files host versions ingested
      else if tick.readFails file.id then (host, .error (.read file.id))
      else
        match (tick.upsert file.id).call host
            (host.upsert fromTimestampMillis source (tick.nowMs file.id) file) with
        | (host, false) => (host, .error (.upsert file.id))
        | (host, true) => itemLoop tick saved files host versions (min (ingested + 1) (2 ^ 32 - 1))

/-- The loop over the removed items. -/
def deleteLoop (tick : Tick) : List String → Host → Host × Except TickError Unit
  | [], host => (host, .ok ())
  | itemId :: rest, host =>
      match (tick.delete itemId).call host (host.delete source itemId) with
      | (host, false) => (host, .error (.delete itemId))
      | (host, true) => deleteLoop tick rest host

/-- `SyncState::load`: a fresh state when there is none. -/
def Host.load (host : Host) : SyncState := host.state.getD ⟨[], none⟩

def removedItems (tick : Tick) (saved : OrderedMap String String) : List String :=
  if source.kind = .folder then
    (tick.order.keys (saved.map (·.1))).filter fun itemId => itemId ∉ tick.files.map File.id
  else []

def runTick (tick : Tick) (host : Host) : Host × Except TickError SyncOutcome :=
  if source.enabled = false then (host, .ok ⟨0, some "source disabled"⟩)
  else if tick.loadFails then (host, .error .load)
  else if tick.listFails then (host, .error .list)
  else
    let saved := host.load.itemVersions
    match itemLoop fromTimestampMillis source tick saved tick.files host [] 0 with
    | (host, .error error) => (host, .error error)
    | (host, .ok (versions, ingested)) =>
        let removed := removedItems source tick saved
        match deleteLoop source tick removed host with
        | (host, .error error) => (host, .error error)
        | (host, .ok ()) =>
            match tick.save.call host { host with state := some ⟨versions, some tick.savedAtMs⟩ } with
            | (host, false) => (host, .error .save)
            | (host, true) =>
                (host, .ok ⟨ingested, if removed = [] then none
                  else some (toString removed.length ++ " removed")⟩)

end Tick

/-- The host, the versions saved by the last tick that succeeded, and the files seen so far. -/
structure World where
  host : Host
  settled : OrderedMap String String
  seen : List File

def World.empty : World := ⟨⟨[], none, []⟩, [], []⟩

section Run

variable (fromTimestampMillis : Int → Option Int) (source : MemorySourceEntry)

def advance (w : World) (tick : Tick) : World :=
  match runTick fromTimestampMillis source tick w.host with
  | (host, .error _) => { w with host := host, seen := w.seen ++ tick.files }
  | (host, .ok _) => ⟨{ host with calls := [] }, host.load.itemVersions, w.seen ++ tick.files⟩

def pipeline : Machine World Tick := ⟨World.empty, advance fromTimestampMillis source⟩

/-- The documents under the ids of the source are those of the files, as they are. -/
structure Mirrors (files : List File) (documents : OrderedMap String LocalDocument) : Prop where
  listed : ∀ file ∈ files, ∃ nowMs, documents.get (sourceId source file.id) =
    some (document fromTimestampMillis source nowMs file)
  unlisted : ∀ itemId, itemId ∉ files.map File.id → documents.get (sourceId source itemId) = none

/-- A tick that succeeds leaves the folder mirrored. -/
def MirrorsAfter (w : World) (tick : Tick) : Prop :=
  (runTick fromTimestampMillis source tick w.host).2.toBool → source.enabled →
    Mirrors fromTimestampMillis source tick.files (advance fromTimestampMillis source w tick).host.documents

/-- A file has a name of its own, and another body only with another modification time. -/
structure Folder (w : World) (tick : Tick) : Prop where
  names : (tick.files.map File.id).Nodup
  times : ∀ file ∈ tick.files, ∀ other ∈ w.seen, other.id = file.id → file.updatedAtMs.isSome →
    other.updatedAtMs = file.updatedAtMs → other.body = file.body

/-- The version of the item in the last call to the sink, since the last tick that succeeded, that was
about it. -/
def lastCall (calls : List SinkCall) (itemId : String) : Option SinkCall :=
  (calls.filter fun call => call.itemId = itemId).getLast?

/-- What failed ticks did to an item does not deceive the next one that succeeds: an item that was stored
is still listed, or is in the saved versions; one that is back at its saved version is stored at it. -/
def Undeceived (w : World) (tick : Tick) : Prop :=
  ∀ itemId call, lastCall w.host.calls itemId = some call →
    (∀ version, call = .upsert itemId version → itemId ∉ tick.files.map File.id →
      (w.host.load.itemVersions.get itemId).isSome) ∧
      ∀ file ∈ tick.files, file.id = itemId → skips w.host.load.itemVersions file →
        call = .upsert itemId file.version

/-- No call that the tick makes to the reader or to the host fails. -/
structure Unfailing (source : MemorySourceEntry) (host : Host) (tick : Tick) : Prop where
  load : ¬tick.loadFails
  list : ¬tick.listFails
  read : ∀ file ∈ tick.files, ¬skips host.load.itemVersions file → ¬tick.readFails file.id
  upsert : ∀ file ∈ tick.files, ¬skips host.load.itemVersions file → tick.upsert file.id = .done
  delete : ∀ itemId ∈ removedItems source tick host.load.itemVersions, tick.delete itemId = .done
  save : tick.save = .done

def Kept (w : World) (tick : Tick) : Prop := Unfailing source w.host tick → Undeceived w tick

end Run

end TinyCortex.Sync.Workspace
