import TinyCortex.Lib.Machine
import TinyCortex.Lib.OrderedMap

/-! The incremental synchronization (`sync/composio/orchestrator.rs`, `sync/state.rs`): runs over scopes,
pages and items, one page a step, between which items arrive at the provider. What the provider answers,
whether the daily budget is used up at a check, and which documents and states can be stored, comes from
outside. -/

namespace TinyCortex.Sync

/-- The switches of an `IncrementalSource`, and what it reads off an item. -/
structure Source (ι : Type) where
  maxPages : Nat
  perScopeCursors : Bool
  tolerateScopeErrors : Bool
  retainDedupKeys : Bool
  stopOnEmptyPending : Bool
  serverSideDepth : Bool
  dedupKey : ι → Option String
  sortCursor : ι → Option String

/-- A source with cursors by scope keeps them, as one JSON text, in place of the cursor. -/
structure SyncState where
  cursor : Option String
  scopeCursors : OrderedMap String String
  syncedIds : List String
  deriving DecidableEq

namespace SyncState

def new : SyncState := ⟨none, [], []⟩

def isSynced (state : SyncState) (id : String) : Bool := decide (id ∈ state.syncedIds)

def markSynced (state : SyncState) (id : String) : SyncState :=
  { state with syncedIds := state.syncedIds ++ [id] }

def advanceCursor (state : SyncState) (cursor : String) : SyncState :=
  { state with cursor := some cursor }

def advanceScopeCursor (state : SyncState) (scope cursor : String) : SyncState :=
  { state with scopeCursors := state.scopeCursors.insert scope cursor }

def hasCursor (state : SyncState) : Bool := state.cursor.isSome || !state.scopeCursors.isEmpty

end SyncState

/-- The greater one of the newest cursor so far and an item's. -/
def newer (newest cursor : Option String) : Option String :=
  match cursor with
  | none => newest
  | some cursor => if newest.all fun current => current < cursor then some cursor else newest

/-- The item is older than the floor; without a sort cursor, or without a floor, it is not. -/
def older (floor cursor : Option String) : Bool :=
  match cursor, floor with
  | some cursor, some floor => decide (cursor < floor)
  | _, _ => false

/-- The item is at or below the persisted cursor. -/
def reached (persisted cursor : Option String) : Bool :=
  match cursor, persisted with
  | some cursor, some persisted => decide (cursor ≤ persisted)
  | _, _ => false

/-- From outside, for one item: is the budget used up, and does making or storing the document fail. -/
structure ItemInput where
  exhausted : Bool
  fails : Bool
  deriving DecidableEq

/-- How the reading of an item goes on. -/
inductive Flow
  | next
  | pageOver
  | stopped
  | failed
  deriving DecidableEq

section Items

variable {ι : Type}

/-- What the loop over the items of a page changes. `newest` is the newest cursor of the scope or of the
run. `skipped` notes what was taken for synced. -/
structure Progress (ι : Type) where
  state : SyncState
  stored : List (String × ι)
  skipped : List (String × ι)
  newest : Option String
  ingested : Nat
  sawUnsyncedItem : Bool
  reachedCursorBoundary : Bool
  scopeFailed : Bool

/-- What the loop over the items is given. -/
structure Limits where
  scope : String
  maxItems : Option Nat
  depthFloor : Option String

variable (source : Source ι) (limits : Limits)

def Limits.full (ingested : Nat) : Bool := limits.maxItems.any fun limit => limit ≤ ingested

/-- The document of an item is stored. -/
def keep (progress : Progress ι) (raw : ι) (key : String) : Progress ι :=
  { progress with
    stored := progress.stored ++ [(limits.scope, raw)]
    state := if source.retainDedupKeys then progress.state.markSynced key else progress.state
    newest := newer progress.newest (source.sortCursor raw)
    ingested := min (progress.ingested + 1) (2 ^ 32 - 1) }

def readItem (progress : Progress ι) (raw : ι) (input : ItemInput) : Progress ι × Flow :=
  if limits.full progress.ingested then (progress, .stopped)
  else if input.exhausted then (progress, .stopped)
  else
    match source.dedupKey raw with
    | none => (progress, .next)
    | some key =>
        if progress.state.isSynced key then
          ({ progress with skipped := progress.skipped ++ [(limits.scope, raw)] }, .next)
        else
          let progress := { progress with sawUnsyncedItem := true }
          if older limits.depthFloor (source.sortCursor raw) then
            ({ progress with reachedCursorBoundary := true }, .pageOver)
          else if !source.perScopeCursors && reached progress.state.cursor (source.sortCursor raw) then
            ({ progress with reachedCursorBoundary := true }, .pageOver)
          else if input.fails then
            if source.tolerateScopeErrors then ({ progress with scopeFailed := true }, .pageOver)
            else (progress, .failed)
          else
            let kept := keep source limits progress raw key
            (kept, if limits.full kept.ingested then .stopped else .next)

def readItems (progress : Progress ι) : List (ι × ItemInput) → Progress ι × Flow
  | [] => (progress, .next)
  | (raw, input) :: items =>
      match readItem source limits progress raw input with
      | (progress, .next) => readItems progress items
      | ended => ended

end Items

/-- The answer to one page request, after the retries with smaller pages: a page and whether there is a
next one, a failure, or a page too large with the budget used up. -/
inductive Reply (ι : Type)
  | page (items : List (ι × ItemInput)) (next : Bool)
  | failed
  | tooLarge

/-- One turn of the loop over pages: is the budget used up before, the reply, and is the state saved in
case the scope ends here. -/
structure PageInput (ι : Type) where
  exhausted : Bool
  reply : Reply ι
  saved : Bool

/-- The pages of one scope. `rest` is what the provider has still to list. -/
structure Pass (ι : Type) where
  scope : String
  rest : List ι
  pageIndex : Nat
  scopeNewestCursor : Option String
  scopeFailed : Bool

/-- Between two scopes, between two pages, or with the loops left. -/
inductive Phase (ι : Type)
  | scopes
  | pages (pass : Pass ι)
  | stopped
  | failed

structure Config where
  maxItems : Option Nat
  depthFloor : Option String

/-- `depthFloor` is the floor that the run itself looks at. -/
structure Run (ι : Type) where
  config : Config
  depthFloor : Option String
  state : SyncState
  newestCursor : Option String
  ingested : Nat
  morePending : Bool
  scopeError : Bool
  scopes : List String
  phase : Phase ι

/-- What a run returns when it returns `Ok`. -/
structure Outcome where
  morePending : Bool
  scopeError : Bool
  deriving DecidableEq

/-- The provider's items by scope, the newest first, and what was stored of them. `window` is the depth
floor of the last run that was without a cursor for the scope. -/
structure Archive (ι : Type) where
  listing : String → List ι
  stored : List (String × ι)
  window : String → Option String

/-- The stored state, what was ever taken for synced, a run under way, and what the last one returned. -/
structure World (ι : Type) extends Archive ι where
  skipped : List (String × ι)
  persisted : SyncState
  run : Option (Run ι)
  outcome : Option Outcome

inductive Label (ι : Type)
  | arrive (scope : String) (item : ι)
  | start (config : Config) (exhausted : Bool) (scopes : Option (List String))
  | openScope (listed : List ι)
  | page (input : PageInput ι)
  | finish (saved : Bool)
  | crash

section Steps

variable {ι : Type} (source : Source ι)

/-- The cursor that counts for a scope. -/
def Source.cursorOf (state : SyncState) (scope : String) : Option String :=
  if source.perScopeCursors then state.scopeCursors.get scope else state.cursor

def Source.depthFloor (state : SyncState) (config : Config) : Option String :=
  if source.serverSideDepth || state.hasCursor then none else config.depthFloor

/-- The floor for a scope without a cursor, whether the provider looks at it or the run. -/
def Source.floorOf (run : Run ι) : Option String :=
  if source.serverSideDepth then run.config.depthFloor else run.depthFloor

def Run.afterItems (run : Run ι) (progress : Progress ι) : Run ι :=
  { run with
    state := progress.state
    newestCursor := if source.perScopeCursors then run.newestCursor else progress.newest
    ingested := progress.ingested }

def Pass.afterItems (pass : Pass ι) (progress : Progress ι) (count : Nat) : Pass ι :=
  { pass with
    rest := pass.rest.drop count
    scopeNewestCursor := if source.perScopeCursors then progress.newest else pass.scopeNewestCursor
    scopeFailed := progress.scopeFailed }

namespace World

variable (world : World ι)

/-- Before the items of a page. -/
def progress (run : Run ι) (pass : Pass ι) : Progress ι where
  state := run.state
  stored := world.stored
  skipped := world.skipped
  newest := if source.perScopeCursors then pass.scopeNewestCursor else run.newestCursor
  ingested := run.ingested
  sawUnsyncedItem := false
  reachedCursorBoundary := false
  scopeFailed := pass.scopeFailed

def afterItems (progress : Progress ι) : World ι :=
  { world with stored := progress.stored, skipped := progress.skipped }

/-- The end of a scope: with cursors by scope, its cursor is committed unless something is missing. -/
def endScope (run : Run ι) (pass : Pass ι) (saved : Bool) : World ι :=
  let run := { run with phase := .scopes, scopeError := run.scopeError || pass.scopeFailed }
  if source.perScopeCursors && !pass.scopeFailed && !run.morePending then
    match pass.scopeNewestCursor with
    | some cursor =>
        let state := run.state.advanceScopeCursor pass.scope cursor
        if saved then { world with persisted := state, run := some { run with state := state } }
        else { world with run := some { run with state := state, phase := .failed } }
    | none => { world with run := some run }
  else { world with run := some run }

/-- After the items of a page. -/
def endPage (run : Run ι) (pass : Pass ι) (progress : Progress ι) (next saved : Bool) : World ι :=
  if source.stopOnEmptyPending && !progress.sawUnsyncedItem then world.endScope source run pass saved
  else if progress.reachedCursorBoundary then world.endScope source run pass saved
  else if !next then world.endScope source run pass saved
  else if pass.pageIndex + 1 = max source.maxPages 1 then
    world.endScope source { run with morePending := true } pass saved
  else
    { world with
      run := some { run with phase := .pages { pass with pageIndex := pass.pageIndex + 1 } } }

def stop (run : Run ι) : World ι :=
  { world with run := some { run with morePending := true, phase := .stopped } }

/-- One turn of the loop over pages. -/
def page (run : Run ι) (pass : Pass ι) (input : PageInput ι) : World ι :=
  if input.exhausted then world.stop run
  else
    match input.reply with
    | .failed =>
        if source.tolerateScopeErrors then
          world.endScope source run { pass with scopeFailed := true } input.saved
        else { world with run := some { run with phase := .failed } }
    | .tooLarge => world.stop run
    | .page items next =>
        let (progress, flow) := readItems source ⟨pass.scope, run.config.maxItems, run.depthFloor⟩
          (world.progress source run pass) items
        let world := world.afterItems progress
        let run := run.afterItems source progress
        let pass := pass.afterItems source progress items.length
        match flow with
        | .stopped => world.stop run
        | .failed => { world with run := some { run with phase := .failed } }
        | _ => world.endPage source run pass progress next input.saved

/-- After the loops: the one cursor is committed, and the state saved in any case. -/
def finish (run : Run ι) (ok saved : Bool) : World ι :=
  let state :=
    if ok && !source.perScopeCursors && !run.morePending then
      (run.newestCursor.map run.state.advanceCursor).getD run.state
    else run.state
  { world with
    persisted := if saved then state else world.persisted
    run := none
    outcome := if ok && saved then some ⟨run.morePending, run.scopeError⟩ else none }

/-- With the budget used up a run returns at once. -/
def start (config : Config) (exhausted : Bool) (scopes : Option (List String)) : World ι :=
  if exhausted then { world with outcome := some ⟨false, false⟩ }
  else
    { world with
      outcome := none
      run := some
        { config := config
          depthFloor := source.depthFloor world.persisted config
          state := world.persisted
          newestCursor := world.persisted.cursor
          ingested := 0
          morePending := false
          scopeError := false
          scopes := scopes.getD []
          phase := if scopes.isSome then .scopes else .failed } }

/-- The window of a scope as the run is about to list it. -/
def windowOf (run : Run ι) (scope : String) : Option String :=
  if (source.cursorOf run.state scope).isSome then world.window scope else source.floorOf run

def openScope (run : Run ι) (listed : List ι) : World ι :=
  match run.scopes with
  | [] => world
  | scope :: scopes =>
      { world with
        window := Function.update world.window scope (world.windowOf source run scope)
        run := some
          { run with
            scopes := scopes
            phase := .pages
              { scope := scope
                rest := listed
                pageIndex := 0
                scopeNewestCursor := none
                scopeFailed := false } } }

/-- A crash loses the run; documents and states that were stored stay. -/
def step : Label ι → World ι
  | .arrive scope item =>
      { world with
        listing := Function.update world.listing scope (item :: world.listing scope)
        outcome := none }
  | .start config exhausted scopes =>
      match world.run with
      | none => world.start source config exhausted scopes
      | some _ => world
  | .openScope listed =>
      match world.run with
      | some run =>
          match run.phase with
          | .scopes => world.openScope source run listed
          | _ => world
      | none => world
  | .page input =>
      match world.run with
      | some run =>
          match run.phase with
          | .pages pass => world.page source run pass input
          | _ => world
      | none => world
  | .finish saved =>
      match world.run with
      | some run =>
          match run.phase with
          | .scopes => if run.scopes.isEmpty then world.finish source run true saved else world
          | .pages _ => world
          | .stopped => world.finish source run true saved
          | .failed => world.finish source run false saved
      | none => world
  | .crash => { world with run := none, outcome := none }

end World

def machine : Machine (World ι) (Label ι) where
  start :=
    { listing := fun _ => []
      stored := []
      window := fun _ => none
      skipped := []
      persisted := .new
      run := none
      outcome := none }
  step := World.step source

end Steps

end TinyCortex.Sync
