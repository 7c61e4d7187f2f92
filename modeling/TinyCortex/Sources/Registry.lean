import TinyCortex.Lib.Text
import TinyCortex.Lib.Machine
import TinyCortex.Lib.OrderedMap

/-! Configured sources (`sources/types.rs`, `sources/validation.rs`): an entry, what each kind requires of it, and
patches. Costs are floating point numbers, of which nothing is used. -/

namespace TinyCortex.Sources

inductive SourceKind where
  | composio
  | conversation
  | folder
  | githubRepo
  | twitterQuery
  | rssFeed
  | webPage
  deriving DecidableEq

def SourceKind.asStr : SourceKind → String
  | composio => "composio"
  | conversation => "conversation"
  | folder => "folder"
  | githubRepo => "github_repo"
  | twitterQuery => "twitter_query"
  | rssFeed => "rss_feed"
  | webPage => "web_page"

structure MemorySourceEntry (usd : Type) where
  id : String
  kind : SourceKind
  label : String
  enabled : Bool
  toolkit : Option String
  connectionId : Option String
  path : Option String
  glob : Option String
  url : Option String
  branch : Option String
  paths : List String
  maxCommits : Option Nat
  maxIssues : Option Nat
  maxPrs : Option Nat
  query : Option String
  sinceDays : Option Nat
  maxItems : Option Nat
  selector : Option String
  maxTokensPerSync : Option Nat
  maxCostPerSyncUsd : Option usd
  syncDepthDays : Option Nat

/-! ### Validation -/

def requireField (value : Option String) (name : String) : Except String Unit :=
  if value.any (· ≠ "") then .ok () else .error (name ++ " is required for this source kind")

variable {usd : Type}

def validateEntry (entry : MemorySourceEntry usd) : Except String Unit :=
  if Text.trim entry.id = "" then .error "id is required"
  else if ':' ∈ entry.id.toList ∨ entry.id.toList.any Text.isControl then
    .error "id must not contain ':' or control characters"
  else if entry.label = "" then .error "label is required"
  else
    match entry.kind with
    | .composio => (requireField entry.toolkit "toolkit").bind fun _ => requireField entry.connectionId "connection_id"
    | .conversation => .ok ()
    | .folder => requireField entry.path "path"
    | .githubRepo => requireField entry.url "url"
    | .twitterQuery => requireField entry.query "query"
    | .rssFeed => requireField entry.url "url"
    | .webPage => requireField entry.url "url"

/-! ### Patches -/

/-- A field that is absent stays; an inner `none` clears it. -/
structure MemorySourcePatch (usd : Type) where
  label : Option String
  enabled : Option Bool
  toolkit : Option (Option String)
  connectionId : Option (Option String)
  path : Option (Option String)
  glob : Option (Option String)
  url : Option (Option String)
  branch : Option (Option String)
  paths : Option (List String)
  query : Option (Option String)
  sinceDays : Option (Option Nat)
  maxItems : Option (Option Nat)
  selector : Option (Option String)
  maxTokensPerSync : Option (Option Nat)
  maxCostPerSyncUsd : Option (Option usd)
  syncDepthDays : Option (Option Nat)
  maxCommits : Option (Option Nat)
  maxIssues : Option (Option Nat)
  maxPrs : Option (Option Nat)

def reject (field : String) (kind : SourceKind) : Except String Unit :=
  .error ("field '" ++ field ++ "' is not applicable to source kind '" ++ kind.asStr ++ "'")

namespace MemorySourcePatch

def validateForKind (patch : MemorySourcePatch usd) (kind : SourceKind) : Except String Unit :=
  if (patch.toolkit.isSome || patch.connectionId.isSome) ∧ kind ≠ .composio then reject "toolkit/connection_id" kind
  else if (patch.path.isSome || patch.glob.isSome) ∧ kind ≠ .folder then reject "path/glob" kind
  else if (patch.branch.isSome || patch.paths.isSome || patch.maxCommits.isSome || patch.maxIssues.isSome ||
      patch.maxPrs.isSome) ∧ kind ≠ .githubRepo then reject "github repository fields" kind
  else if patch.query.isSome ∧ kind ≠ .twitterQuery then reject "query" kind
  else if patch.sinceDays.any Option.isSome ∧ kind ≠ .twitterQuery then reject "since_days" kind
  else if patch.selector.isSome ∧ kind ≠ .webPage then reject "selector" kind
  else if patch.maxItems.any Option.isSome ∧ kind ≠ .rssFeed ∧ kind ≠ .composio then reject "max_items" kind
  else if patch.url.isSome ∧ kind ≠ .githubRepo ∧ kind ≠ .rssFeed ∧ kind ≠ .webPage then reject "url" kind
  else .ok ()

def applyTo (patch : MemorySourcePatch usd) (entry : MemorySourceEntry usd) : MemorySourceEntry usd where
  id := entry.id
  kind := entry.kind
  label := patch.label.getD entry.label
  enabled := patch.enabled.getD entry.enabled
  toolkit := patch.toolkit.getD entry.toolkit
  connectionId := patch.connectionId.getD entry.connectionId
  path := patch.path.getD entry.path
  glob := patch.glob.getD entry.glob
  url := patch.url.getD entry.url
  branch := patch.branch.getD entry.branch
  paths := patch.paths.getD entry.paths
  maxCommits := patch.maxCommits.getD entry.maxCommits
  maxIssues := patch.maxIssues.getD entry.maxIssues
  maxPrs := patch.maxPrs.getD entry.maxPrs
  query := patch.query.getD entry.query
  sinceDays := patch.sinceDays.getD entry.sinceDays
  maxItems := patch.maxItems.getD entry.maxItems
  selector := patch.selector.getD entry.selector
  maxTokensPerSync := patch.maxTokensPerSync.getD entry.maxTokensPerSync
  maxCostPerSyncUsd := patch.maxCostPerSyncUsd.getD entry.maxCostPerSyncUsd
  syncDepthDays := patch.syncDepthDays.getD entry.syncDepthDays

end MemorySourcePatch

/-! ### What an accepted entry is -/

/-- The text is there and not empty. -/
def Present (value : Option String) : Prop := ∃ text, value = some text ∧ text ≠ ""

theorem requireField_eq_ok_iff {value : Option String} {name : String} :
    requireField value name = .ok () ↔ Present value := by
  unfold requireField Present
  cases value with
  | none => simp
  | some text =>
      by_cases hempty : text = ""
      · simp [hempty]
      · simp [hempty]

/-- The required fields of a kind. -/
def Complete (entry : MemorySourceEntry usd) : Prop :=
  match entry.kind with
  | .composio => Present entry.toolkit ∧ Present entry.connectionId
  | .conversation => True
  | .folder => Present entry.path
  | .githubRepo => Present entry.url
  | .twitterQuery => Present entry.query
  | .rssFeed => Present entry.url
  | .webPage => Present entry.url

/-- An identifier that may be used. -/
def ProperId (id : String) : Prop := Text.trim id ≠ "" ∧ ':' ∉ id.toList ∧ ∀ c ∈ id.toList, Text.isControl c = false

theorem validateEntry_eq_ok_iff {entry : MemorySourceEntry usd} :
    validateEntry entry = .ok () ↔ ProperId entry.id ∧ entry.label ≠ "" ∧ Complete entry := by
  unfold validateEntry ProperId
  by_cases hblank : Text.trim entry.id = ""
  · rw [if_pos hblank]
    exact iff_of_false nofun fun h => h.1.1 hblank
  by_cases hchars : ':' ∈ entry.id.toList ∨ entry.id.toList.any Text.isControl = true
  · rw [if_neg hblank, if_pos hchars]
    refine iff_of_false nofun fun h => ?_
    rcases hchars with hcolon | hcontrol
    · exact h.1.2.1 hcolon
    · obtain ⟨c, hc, hcontrol⟩ := List.any_eq_true.mp hcontrol
      rw [h.1.2.2 c hc] at hcontrol
      cases hcontrol
  by_cases hlabel : entry.label = ""
  · rw [if_neg hblank, if_neg hchars, if_pos hlabel]
    exact iff_of_false nofun fun h => h.2.1 hlabel
  rw [if_neg hblank, if_neg hchars, if_neg hlabel]
  have hid : Text.trim entry.id ≠ "" ∧ ':' ∉ entry.id.toList ∧ ∀ c ∈ entry.id.toList, Text.isControl c = false := by
    rw [not_or] at hchars
    refine ⟨hblank, hchars.1, fun c hc => ?_⟩
    exact eq_false_of_ne_true fun hcontrol => hchars.2 (List.any_eq_true.mpr ⟨c, hc, hcontrol⟩)
  rw [and_iff_right hid, and_iff_right hlabel]
  unfold Complete
  cases entry.kind with
  | composio =>
      dsimp only
      have htoolkit : requireField entry.toolkit "toolkit" = .ok () ↔ _ := requireField_eq_ok_iff
      have hconnection : requireField entry.connectionId "connection_id" = .ok () ↔ _ := requireField_eq_ok_iff
      rw [← htoolkit, ← hconnection]
      cases requireField entry.toolkit "toolkit" with
      | error e => exact iff_of_false nofun fun h => by cases h.1
      | ok _ => exact ⟨fun h => ⟨Eq.refl _, h⟩, fun h => h.2⟩
  | conversation => exact iff_of_true (Eq.refl _) trivial
  | folder => exact requireField_eq_ok_iff
  | githubRepo => exact requireField_eq_ok_iff
  | twitterQuery => exact requireField_eq_ok_iff
  | rssFeed => exact requireField_eq_ok_iff
  | webPage => exact requireField_eq_ok_iff

end TinyCortex.Sources

/-! The registry of sources (`sources/registry.rs`): each mutation loads the file, changes the entries and saves them
under their key. -/

namespace TinyCortex.Sources

/-- The two directions of `toml` for the entries. Its integers have 64 bits with sign, so that larger token budgets are
refused; what is written is read back. -/
structure TomlCodec (ω usd : Type) where
  encode : List (MemorySourceEntry usd) → Except String ω
  decode : ω → Except String (List (MemorySourceEntry usd))
  encode_iff : ∀ entries, (∃ value, encode entries = .ok value) ↔
    ∀ entry ∈ entries, ∀ tokens, entry.maxTokensPerSync = some tokens → tokens < 2 ^ 63
  roundTrip : ∀ entries value, encode entries = .ok value → decode value = .ok entries

/-- `Uuid::new_v4().as_simple()`: a text that no identifier in use has, without colons and control characters. -/
structure UuidSource where
  newV4 : List String → String
  fresh : ∀ used, "src_" ++ newV4 used ∉ used
  plain : ∀ used, ∀ c ∈ (newV4 used).toList, c ≠ ':' ∧ Text.isControl c = false

/-- What goes wrong with the file during an operation: at the first read, at the second, or at the write. -/
structure Faults where
  read : Option String
  reread : Option String
  write : Option String

/-- The file, if it exists, as its table. -/
abbrev ConfigFile (ω : Type) := Option (OrderedMap String ω)

def sourcesKey : String := "memory_sources"

section Registry

variable {ω usd α : Type} (codec : TomlCodec ω usd) (faults : Faults)

def readTable (fault : Option String) (file : ConfigFile ω) : Except String (OrderedMap String ω) :=
  match file, fault with
  | none, _ => .ok []
  | some _, some e => .error e
  | some table, none => .ok table

def list (file : ConfigFile ω) : Except String (List (MemorySourceEntry usd)) :=
  (readTable faults.read file).bind fun table =>
    match table.get sourcesKey with
    | some value => codec.decode value
    | none => .ok []

def writeAll (entries : List (MemorySourceEntry usd)) (file : ConfigFile ω) : ConfigFile ω × Except String Unit :=
  match readTable faults.reread file, codec.encode entries, faults.write with
  | .error e, _, _ => (file, .error e)
  | .ok _, .error e, _ => (file, .error e)
  | .ok _, .ok _, some e => (file, .error e)
  | .ok table, .ok value, none => (some (table.insert sourcesKey value), .ok ())

/-- Load the entries and go on with them. -/
def load (k : List (MemorySourceEntry usd) → ConfigFile ω × Except String α) (file : ConfigFile ω) :
    ConfigFile ω × Except String α :=
  match list codec faults file with
  | .error e => (file, .error e)
  | .ok sources => k sources

/-- Save the entries and answer. -/
def save (file : ConfigFile ω) (entries : List (MemorySourceEntry usd)) (answer : α) :
    ConfigFile ω × Except String α :=
  let written := writeAll codec faults entries file
  (written.1, written.2.map fun _ => answer)

def add (entry : MemorySourceEntry usd) (file : ConfigFile ω) :
    ConfigFile ω × Except String (MemorySourceEntry usd) :=
  match validateEntry entry with
  | .error e => (file, .error e)
  | .ok () =>
      load codec faults (fun sources =>
        if sources.any (·.id = entry.id) then (file, .error ("source with id '" ++ entry.id ++ "' already exists"))
        else save codec faults file (sources ++ [entry]) entry) file

/-- Change the first entry that is meant. -/
def updateFirst (p : MemorySourceEntry usd → Bool) (f : MemorySourceEntry usd → MemorySourceEntry usd) :
    List (MemorySourceEntry usd) → List (MemorySourceEntry usd)
  | [] => []
  | entry :: rest => if p entry then f entry :: rest else entry :: updateFirst p f rest

def update (id : String) (patch : MemorySourcePatch usd) (file : ConfigFile ω) :
    ConfigFile ω × Except String (MemorySourceEntry usd) :=
  load codec faults (fun sources =>
    match sources.find? (·.id = id) with
    | none => (file, .error ("source '" ++ id ++ "' not found"))
    | some entry =>
        match (patch.validateForKind entry.kind).bind fun _ => validateEntry (patch.applyTo entry) with
        | .error e => (file, .error e)
        | .ok () => save codec faults file (updateFirst (·.id = id) patch.applyTo sources) (patch.applyTo entry)) file

def remove (id : String) (file : ConfigFile ω) : ConfigFile ω × Except String Bool :=
  load codec faults (fun sources =>
    let left := sources.filter (·.id ≠ id)
    if left.length < sources.length then save codec faults file left true else (file, .ok false)) file

/-- A composio source of the connection. -/
def boundTo (connectionId : String) (entry : MemorySourceEntry usd) : Bool :=
  entry.kind = .composio && entry.connectionId = some connectionId

def removeComposioSourceByConnectionId (connectionId : String) (file : ConfigFile ω) :
    ConfigFile ω × Except String Nat :=
  load codec faults (fun sources =>
    let left := sources.filter fun entry => !boundTo connectionId entry
    let removed := sources.length - left.length
    if 0 < removed then save codec faults file left removed else (file, .ok removed)) file

def memorySyncDefaultsForToolkit : String → Option Nat × Option Nat
  | "gmail" => (some 100, some 30)
  | "slack" => (some 50, some 14)
  | "notion" => (some 30, some 30)
  | "linear" => (some 50, some 30)
  | "clickup" => (some 50, some 30)
  | "github" => (some 50, some 30)
  | _ => (some 30, some 14)

structure ComposioUpsertTarget where
  toolkit : String
  connectionId : String
  label : String

def newComposioEntry (id : String) (target : ComposioUpsertTarget) : MemorySourceEntry usd where
  id := id
  kind := .composio
  label := target.label
  enabled := true
  toolkit := some target.toolkit
  connectionId := some target.connectionId
  path := none
  glob := none
  url := none
  branch := none
  paths := []
  maxCommits := none
  maxIssues := none
  maxPrs := none
  query := none
  sinceDays := none
  maxItems := (memorySyncDefaultsForToolkit target.toolkit).1
  selector := none
  maxTokensPerSync := none
  maxCostPerSyncUsd := none
  syncDepthDays := (memorySyncDefaultsForToolkit target.toolkit).2

/-- The entries behind an upsert, the entry it is about, and whether it is new. -/
def upsertComposioEntryInPlace (uuids : UuidSource) (sources : List (MemorySourceEntry usd))
    (target : ComposioUpsertTarget) : List (MemorySourceEntry usd) × MemorySourceEntry usd × Bool :=
  match sources.find? (boundTo target.connectionId) with
  | some existing =>
      (updateFirst (boundTo target.connectionId) (fun entry => { entry with label := target.label }) sources,
        { existing with label := target.label }, false)
  | none =>
      let entry := newComposioEntry ("src_" ++ uuids.newV4 (sources.map (·.id))) target
      (sources ++ [entry], entry, true)

def upsertComposioSource (uuids : UuidSource) (target : ComposioUpsertTarget) (file : ConfigFile ω) :
    ConfigFile ω × Except String (MemorySourceEntry usd) :=
  load codec faults (fun sources =>
    let upserted := upsertComposioEntryInPlace uuids sources target
    save codec faults file upserted.1 upserted.2.1) file

/-- The entries behind the upserts of a batch. -/
def upsertAll (uuids : UuidSource) (sources : List (MemorySourceEntry usd)) (targets : List ComposioUpsertTarget) :
    List (MemorySourceEntry usd) :=
  targets.foldl (fun sources target => (upsertComposioEntryInPlace uuids sources target).1) sources

def upsertComposioSourcesBatch (uuids : UuidSource) (targets : List ComposioUpsertTarget) (file : ConfigFile ω) :
    ConfigFile ω × Except String Nat :=
  if targets = [] then (file, .ok 0)
  else
    load codec faults (fun sources =>
      save codec faults file (upsertAll uuids sources targets) (min targets.length (2 ^ 32 - 1))) file

def allIn (entry : MemorySourceEntry usd) : MemorySourceEntry usd :=
  { entry with
    enabled := true, maxItems := none, sinceDays := none, syncDepthDays := none, maxCommits := none, maxIssues := none,
    maxPrs := none, maxTokensPerSync := none, maxCostPerSyncUsd := none }

def applyAllIn (file : ConfigFile ω) : ConfigFile ω × Except String (List (MemorySourceEntry usd)) :=
  load codec faults (fun sources => save codec faults file (sources.map allIn) (sources.map allIn)) file

/-! ### Runs -/

inductive Operation (usd : Type) where
  | add (entry : MemorySourceEntry usd)
  | update (id : String) (patch : MemorySourcePatch usd)
  | remove (id : String)
  | removeComposioSourceByConnectionId (connectionId : String)
  | upsertComposioSource (uuids : UuidSource) (target : ComposioUpsertTarget)
  | upsertComposioSourcesBatch (uuids : UuidSource) (targets : List ComposioUpsertTarget)
  | applyAllIn

/-- The file behind an operation, and its error if it fails. -/
def perform (file : ConfigFile ω) : Operation usd → ConfigFile ω × Except String Unit
  | .add entry => (add codec faults entry file).map id fun answer => answer.map fun _ => ()
  | .update id' patch => (update codec faults id' patch file).map id fun answer => answer.map fun _ => ()
  | .remove id' => (remove codec faults id' file).map id fun answer => answer.map fun _ => ()
  | .removeComposioSourceByConnectionId connectionId =>
      (removeComposioSourceByConnectionId codec faults connectionId file).map id fun answer => answer.map fun _ => ()
  | .upsertComposioSource uuids target =>
      (upsertComposioSource codec faults uuids target file).map id fun answer => answer.map fun _ => ()
  | .upsertComposioSourcesBatch uuids targets =>
      (upsertComposioSourcesBatch codec faults uuids targets file).map id fun answer => answer.map fun _ => ()
  | .applyAllIn => (applyAllIn codec faults file).map id fun answer => answer.map fun _ => ()

/-- Operations one behind the other, each with what goes wrong in it. -/
def registry (start : ConfigFile ω) : Machine (ConfigFile ω) (Faults × Operation usd) where
  start := start
  step file event := (perform codec event.1 file event.2).1

end Registry

end TinyCortex.Sources
