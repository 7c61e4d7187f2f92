import TinyCortex.Persona.Pipeline

/-! The git part of the persona pipeline (`persona/pipeline_git.rs`, and `digest_and_fold` and the deferred commits of
`persona/pipeline.rs`). A run is given what its surroundings answer: the heads and sessions of the repositories, how
each session is digested, and which accesses fail. -/

namespace TinyCortex.Persona.Git

/-- A session that was read: how its digest ends, and whether the write of a watermark behind it fails. -/
structure SessionInput where
  result : DigestResult
  storeFails : Bool
  deriving DecidableEq

/-- A discovered repository: its head, if it has one, and its sessions, if they can be read. -/
structure RepoInput where
  repo : String
  head : Option String
  sessions : Option (List SessionInput)
  checkFails : Bool
  recordFails : Bool
  deriving DecidableEq

/-- One run, from behind its transcripts on. Discovery lists a repository once. -/
structure GitRun where
  mode : RunMode
  authorEmails : List String
  repos : List RepoInput
  sessionsLeft : Nat
  report : RunReport
  transcriptsDeferred : Bool
  distinct : (repos.map RepoInput.repo).Nodup
  deriving DecidableEq

/-- The watermarks in the state store, by repository. -/
abbrev Watermarks := String → Option String

/-- A session of a repository at a head; the last one carries the watermark. -/
structure Pending where
  repo : String
  value : String
  session : SessionInput
  commit : Bool
  deriving DecidableEq

/-- What became of a session that was read. -/
inductive Fate
  | digested (outcome : SessionOutcome)
  | failed
  | cutOff
  | unreached
  deriving DecidableEq

structure SessionLog where
  repo : String
  value : String
  fate : Fate
  deriving DecidableEq

/-- A run under way, with a log of its sessions and of the watermarks it wrote. -/
structure RunState where
  store : Watermarks
  pending : List Pending
  deferred : List Pending
  report : RunReport
  log : List SessionLog
  commits : List (String × String)
  aborted : Bool

variable (authorSetHash : List String → String)

def watermark (head : String) (authorEmails : List String) : String := head ++ ":" ++ authorSetHash authorEmails

def RunState.commit (s : RunState) (repo value : String) : RunState :=
  { s with
    store := Function.update s.store repo (some value)
    commits := s.commits ++ [(repo, value)] }

def RunState.logged (s : RunState) (p : Pending) (fate : Fate) : RunState :=
  { s with log := s.log ++ [⟨p.repo, p.value, fate⟩] }

/-- The sessions of one repository; the watermark is attached to the last of them. -/
def attach (repo value : String) (sessions : List SessionInput) : List Pending :=
  sessions.zipIdx.map fun (session, i) => ⟨repo, value, session, i + 1 == sessions.length⟩

def scanRepo (run : GitRun) (s : RunState) (r : RepoInput) : RunState :=
  if s.aborted then s
  else
    let s := { s with report := { s.report with filesSeen := s.report.filesSeen + 1 } }
    match r.head with
    | none => s
    | some head =>
        let value := watermark authorSetHash head run.authorEmails
        if run.mode = .incremental ∧ r.checkFails then { s with aborted := true }
        else if run.mode = .incremental ∧ s.store r.repo = some value then
          { s with report := { s.report with sessionsSkipped := s.report.sessionsSkipped + 1 } }
        else
          match r.sessions with
          | none => s
          | some [] => if r.recordFails then { s with aborted := true } else s.commit r.repo value
          | some sessions => { s with pending := s.pending ++ attach r.repo value sessions }

def scan (run : GitRun) (store : Watermarks) : RunState :=
  run.repos.foldl (scanRepo authorSetHash run) ⟨store, [], [], run.report, [], [], false⟩

/-- One turn of the loop over the digested sessions. -/
def foldSession (s : RunState) (p : Pending) : RunState :=
  if s.aborted then s.logged p .unreached
  else
    match p.session.result with
    | .budgetExhausted => { s.logged p .cutOff with report := { s.report with budgetHit := true } }
    | .failed => { s.logged p .failed with report := { s.report with sessionsFailed := s.report.sessionsFailed + 1 } }
    | .outcome outcome foldFails =>
        let s :=
          { s with
            report :=
              { s.report with
                sessionsProcessed := s.report.sessionsProcessed + 1
                windowsLost := s.report.windowsLost + outcome.windowsLost
                digests := s.report.digests + (if 0 < outcome.observations then 1 else 0)
                observations := s.report.observations + outcome.observations } }
        if 0 < outcome.observations ∧ foldFails then { s.logged p .unreached with aborted := true }
        else
          let s := s.logged p (.digested outcome)
          if p.commit = false then s
          else if outcome.observations = 0 ∧ 0 < outcome.windowsLost then { s with deferred := s.deferred ++ [p] }
          else if p.session.storeFails then s
          else s.commit p.repo p.value

/-- The watermarks that were put off, once all sources ran. -/
def resolveDeferred (run : GitRun) (s : RunState) : RunState :=
  if s.deferred = [] ∧ run.transcriptsDeferred = false then s
  else if 0 < s.report.observations then
    s.deferred.foldl (fun s p => if p.session.storeFails then s else s.commit p.repo p.value) s
  else { s with report := { s.report with systemicDigestFailure := true } }

/-- `digest_and_fold`; sessions beyond the session budget are cut off. -/
def digestAndFold (run : GitRun) (s : RunState) : RunState :=
  let budgetHit := s.report.budgetHit || decide (run.sessionsLeft < s.pending.length)
  let folded := (s.pending.take run.sessionsLeft).foldl foldSession
    { s with report := { s.report with budgetHit := budgetHit } }
  { folded with
    log := folded.log ++ (s.pending.drop run.sessionsLeft).map fun p => ⟨p.repo, p.value, .cutOff⟩ }

/-- The rest of a run; an error ends it where it is. -/
def GitRun.exec (run : GitRun) (store : Watermarks) : RunState :=
  let scanned := scan authorSetHash run store
  if scanned.aborted then { scanned with log := scanned.pending.map fun p => ⟨p.repo, p.value, .unreached⟩ }
  else
    let folded := digestAndFold run scanned
    if folded.aborted then folded else resolveDeferred run folded

/-- What is kept of a run that is over. -/
structure RunLog where
  sessions : List SessionLog
  commits : List (String × String)
  observations : Nat
  deriving DecidableEq

structure World where
  store : Watermarks
  runs : List RunLog

def World.step (world : World) (run : GitRun) : World :=
  let ended := run.exec authorSetHash world.store
  ⟨ended.store, world.runs ++ [⟨ended.log, ended.commits, ended.report.observations⟩]⟩

/-- Runs one after the other. -/
def machine : Machine World GitRun := ⟨⟨fun _ => none, []⟩, World.step authorSetHash⟩

end TinyCortex.Persona.Git
