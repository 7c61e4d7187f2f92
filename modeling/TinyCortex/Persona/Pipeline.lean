import TinyCortex.Lib.Interleaving
import TinyCortex.Lib.Machine

/-! The transcript part of the persona pipeline (`persona/pipeline.rs`, `persona/state.rs`): runs that
check the cursor of a file, read it, take its new cursor, digest, fold and commit, while others append to
the files. One access to a file or to the state store is one step. -/

namespace TinyCortex.Persona

open Interleaving

structure TranscriptFile where
  content : List UInt8
  mtimeMs : Int
  deriving DecidableEq

structure FileCursor where
  mtimeMs : Int
  len : Nat
  deriving DecidableEq

inductive TranscriptKind
  | claudeCode
  | codex
  deriving DecidableEq

/-- The state key of a file: its kind and its path. -/
structure FileKey where
  kind : TranscriptKind
  path : String
  deriving DecidableEq

abbrev Files := String → Option TranscriptFile

/-- The cursors of the files in the state store. -/
abbrev StateStore := FileKey → Option FileCursor

/-- The readers: whether the bytes of a file are a session, and whether that is empty. -/
structure PersonaEnv where
  sessionIsEmpty : TranscriptKind → List UInt8 → Option Bool

inductive RunMode
  | backfill
  | incremental
  deriving DecidableEq

structure RunReport where
  filesSeen : Nat
  sessionsProcessed : Nat
  sessionsSkipped : Nat
  digests : Nat
  sessionsFailed : Nat
  windowsLost : Nat
  observations : Nat
  budgetHit : Bool
  systemicDigestFailure : Bool
  deriving DecidableEq

/-- What a digest comes to: how many observations, and how many windows were dropped. -/
structure SessionOutcome where
  observations : Nat
  windowsLost : Nat
  deriving DecidableEq

inductive DigestResult
  | outcome (outcome : SessionOutcome) (foldFails : Bool)
  | budgetExhausted
  | failed
  deriving DecidableEq

/-- A session that was read, as the bytes it was read from, and the cursor to commit for it. -/
structure Pending where
  key : FileKey
  bytes : List UInt8
  commit : Option FileCursor
  deriving DecidableEq

/-- How a session whose cursor gets committed ended. -/
inductive Fate
  | empty
  | folded (outcome : SessionOutcome)
  | localized (outcome : SessionOutcome) (runObservations : Nat)
  deriving DecidableEq

/-- A committed cursor, with the bytes that the committing run had read. -/
structure Commit where
  key : FileKey
  cursor : FileCursor
  bytes : List UInt8
  fate : Fate
  deriving DecidableEq

inductive RunPhase
  | checking (files : List FileKey)
  | reading (key : FileKey) (files : List FileKey)
  | statting (key : FileKey) (bytes : List UInt8) (isEmpty : Bool) (files : List FileKey)
  | recording (key : FileKey) (bytes : List UInt8) (cursor : FileCursor) (files : List FileKey)
  | folding (selected : List Pending)
  | resolving (deferred : List (Pending × SessionOutcome))
  | done
  | aborted
  deriving DecidableEq

structure Run where
  mode : RunMode
  maxSessions : Nat
  phase : RunPhase
  pending : List Pending
  deferred : List (Pending × SessionOutcome)
  report : RunReport
  deriving DecidableEq

/-- The next step of a run. `fails` is an error of the access that the step makes; the git part of a run
counts only by its observations, or aborts the run. -/
inductive RunAction
  | advance (fails : Bool)
  | digested (result : DigestResult) (storeFails : Bool)
  | gitDone (observations : Option Nat)
  deriving DecidableEq

/-- `FileCursor::of`. -/
def cursorOf (files : Files) (path : String) : Option FileCursor :=
  (files path).map fun file => ⟨file.mtimeMs, file.content.length⟩

def fileUnchanged (files : Files) (store : StateStore) (key : FileKey) : Bool :=
  match cursorOf files key.path with
  | some current => store key = some current
  | none => false

namespace Run

variable (env : PersonaEnv) (files : Files) (store : StateStore) (run : Run)

/-- The cursor check, or the end of the files and the selection within the session budget. -/
def check (fails : Bool) : List FileKey → Run
  | [] =>
      { run with
        phase := .folding (run.pending.take run.maxSessions)
        report := { run.report with budgetHit := run.maxSessions < run.pending.length } }
  | key :: rest =>
      let run := { run with report := { run.report with filesSeen := run.report.filesSeen + 1 } }
      if run.mode = .incremental then
        if fails ∧ (cursorOf files key.path).isSome then { run with phase := .aborted }
        else if fileUnchanged files store key then
          { run with
            phase := .checking rest
            report := { run.report with sessionsSkipped := run.report.sessionsSkipped + 1 } }
        else { run with phase := .reading key rest }
      else { run with phase := .reading key rest }

def read (fails : Bool) (key : FileKey) (rest : List FileKey) : Run :=
  match if fails then none else files key.path with
  | none => { run with phase := .checking rest }
  | some file =>
      match env.sessionIsEmpty key.kind file.content with
      | none => { run with phase := .checking rest }
      | some isEmpty => { run with phase := .statting key file.content isEmpty rest }

/-- The cursor of what was read is taken from the file as it is now. -/
def stat (fails : Bool) (key : FileKey) (bytes : List UInt8) (isEmpty : Bool)
    (rest : List FileKey) : Run :=
  let commit := if fails then none else cursorOf files key.path
  if isEmpty then
    match commit with
    | some cursor => { run with phase := .recording key bytes cursor rest }
    | none => { run with phase := .checking rest }
  else
    { run with phase := .checking rest, pending := run.pending ++ [⟨key, bytes, commit⟩] }

/-- One digested session: folded, and its cursor committed or its commit put off. -/
def fold (result : DigestResult) (storeFails : Bool) (p : Pending) (rest : List Pending) :
    Run × Option Commit :=
  let run := { run with phase := .folding rest }
  match result with
  | .budgetExhausted => ({ run with report := { run.report with budgetHit := true } }, none)
  | .failed =>
      ({ run with report := { run.report with sessionsFailed := run.report.sessionsFailed + 1 } },
        none)
  | .outcome outcome foldFails =>
      let report :=
        { run.report with
          sessionsProcessed := run.report.sessionsProcessed + 1
          windowsLost := run.report.windowsLost + outcome.windowsLost
          digests := run.report.digests + (if 0 < outcome.observations then 1 else 0)
          observations := run.report.observations + outcome.observations }
      let run := { run with report := report }
      if 0 < outcome.observations ∧ foldFails then ({ run with phase := .aborted }, none)
      else
        match p.commit with
        | none => (run, none)
        | some cursor =>
            if outcome.observations = 0 ∧ 0 < outcome.windowsLost then
              ({ run with deferred := run.deferred ++ [(p, outcome)] }, none)
            else (run, if storeFails then none else some ⟨p.key, cursor, p.bytes, .folded outcome⟩)

/-- Behind all sources, the commits that were put off are made only if the run observed anything. -/
def resolve (gitObservations : Nat) : Run :=
  let run :=
    { run with
      report := { run.report with observations := run.report.observations + gitObservations } }
  if run.deferred = [] then { run with phase := .done }
  else if 0 < run.report.observations then { run with phase := .resolving run.deferred }
  else { run with phase := .done, report := { run.report with systemicDigestFailure := true } }

def commitDeferred (fails : Bool) (p : Pending) (outcome : SessionOutcome)
    (rest : List (Pending × SessionOutcome)) : Run × Option Commit :=
  ({ run with phase := .resolving rest },
    if fails then none
    else p.commit.map fun cursor =>
      ⟨p.key, cursor, p.bytes, .localized outcome run.report.observations⟩)

/-- One step of the run and the commit it makes. -/
def step : RunAction → Run × Option Commit
  | .advance fails =>
      match run.phase with
      | .checking keys => (run.check files store fails keys, none)
      | .reading key rest => (run.read env files fails key rest, none)
      | .statting key bytes isEmpty rest => (run.stat files fails key bytes isEmpty rest, none)
      | .recording key bytes cursor rest =>
          if fails then ({ run with phase := .aborted }, none)
          else ({ run with phase := .checking rest }, some ⟨key, cursor, bytes, .empty⟩)
      | .resolving ((p, outcome) :: rest) => run.commitDeferred fails p outcome rest
      | .resolving [] => ({ run with phase := .done }, none)
      | _ => (run, none)
  | .digested result storeFails =>
      match run.phase with
      | .folding (p :: rest) => run.fold result storeFails p rest
      | _ => (run, none)
  | .gitDone observations =>
      match run.phase, observations with
      | .folding [], some n => (run.resolve n, none)
      | .folding [], none => ({ run with phase := .aborted }, none)
      | _, _ => (run, none)

end Run

/-- The files, the state store, the runs, and every commit so far. -/
structure PersonaWorld where
  files : Files
  store : StateStore
  runs : List Run
  committed : List Commit

inductive PersonaLabel
  | append (path : String) (bytes : List UInt8) (mtimeMs : Int)
  | start (mode : RunMode) (maxSessions : Nat) (files : List FileKey)
  | run (i : Nat) (action : RunAction)
  deriving DecidableEq

/-- A file after an append. -/
def TranscriptFile.append (file : Option TranscriptFile) (bytes : List UInt8) (mtimeMs : Int) :
    TranscriptFile :=
  ⟨(file.map (·.content)).getD [] ++ bytes, mtimeMs⟩

namespace PersonaWorld

variable (env : PersonaEnv)

def step (world : PersonaWorld) : PersonaLabel → PersonaWorld
  | .append path bytes mtimeMs =>
      { world with
        files := Function.update world.files path
          (some (TranscriptFile.append (world.files path) bytes mtimeMs)) }
  | .start mode maxSessions files =>
      { world with
        runs := world.runs ++
          [⟨mode, maxSessions, .checking files, [], [], ⟨0, 0, 0, 0, 0, 0, 0, false, false⟩⟩] }
  | .run i action =>
      match world.runs[i]? with
      | none => world
      | some run =>
          let stepped := run.step env world.files world.store action
          { world with
            runs := replace i (some stepped.1) world.runs
            store := stepped.2.elim world.store fun commit =>
              Function.update world.store commit.key (some commit.cursor)
            committed := world.committed ++ stepped.2.toList }

def machine : Machine PersonaWorld PersonaLabel where
  start := ⟨fun _ => none, fun _ => none, [], []⟩
  step := step env

end PersonaWorld
end TinyCortex.Persona
