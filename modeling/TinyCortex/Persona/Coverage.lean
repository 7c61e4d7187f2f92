import TinyCortex.Lib.Lines
import TinyCortex.Persona.Pipeline

/-! A cursor that was committed covers only bytes that its run read, as long as nothing is appended to a
file between a run's read of it and its stat. Then a file found unchanged is one whose every byte was
read, and whose session is accounted for. -/

namespace TinyCortex.Persona

open Interleaving

variable {env : PersonaEnv} {files : Files} {store : StateStore} {run : Run} {bytes : List UInt8}
  {key : FileKey} {cursor : FileCursor}

/-- The session was folded, was empty, or is a loss in a run that observed something elsewhere. -/
def Commit.Accounted (env : PersonaEnv) (commit : Commit) : Prop :=
  match commit.fate with
  | .empty => env.sessionIsEmpty commit.key.kind commit.bytes = some true
  | .folded outcome => 0 < outcome.observations ∨ outcome.windowsLost = 0
  | .localized outcome runObservations => 0 < outcome.windowsLost ∧ 0 < runObservations

/-- The file holds the bytes that were read, and perhaps more behind them; the cursor has their length. -/
def Fits (files : Files) (key : FileKey) (bytes : List UInt8) (cursor : FileCursor) : Prop :=
  bytes.length = cursor.len ∧ ∃ file, files key.path = some file ∧ bytes <+: file.content

def Pending.Fits (files : Files) (p : Pending) : Prop :=
  ∀ cursor ∈ p.commit, Persona.Fits files p.key p.bytes cursor

namespace PersonaWorld

/-- The file that a step of an incremental run skips, and what is in it. -/
def skipped (world : PersonaWorld) : PersonaLabel → Option (FileKey × List UInt8)
  | .run i (.advance false) =>
      match world.runs[i]? with
      | some ⟨.incremental, _, .checking (key :: _), _, _, _⟩ =>
          if fileUnchanged world.files world.store key then
            (world.files key.path).map fun file => (key, file.content)
          else none
      | _ => none
  | _ => none

/-- What is skipped was read to its last byte by a run that committed its cursor. -/
def SkipsCovered (env : PersonaEnv) (world : PersonaWorld) (label : PersonaLabel) : Prop :=
  ∀ skip ∈ world.skipped label, ∃ commit ∈ world.committed,
    commit.key = skip.1 ∧ commit.bytes = skip.2 ∧ commit.Accounted env

/-- The run has read the file and not yet taken its cursor. -/
def hasRead (run : Run) (path : String) : Bool :=
  match run.phase with
  | .statting key _ _ _ => key.path = path
  | _ => false

/-- Nothing is appended to a file between a run's read of it and its stat. -/
def Careful (world : PersonaWorld) : PersonaLabel → Prop
  | .append path bytes _ => bytes = [] ∨ ∀ run ∈ world.runs, hasRead run path = false
  | _ => True

instance (world : PersonaWorld) (label : PersonaLabel) : Decidable (world.Careful label) :=
  match label with
  | .append _ _ _ => inferInstanceAs (Decidable (_ ∨ _))
  | .start _ _ _ => isTrue trivial
  | .run _ _ => isTrue trivial

end PersonaWorld

/-- What a run relies on in each phase. -/
def RunPhase.Sound (env : PersonaEnv) (files : Files) (run : Run) : RunPhase → Prop
  | .statting key bytes isEmpty _ => env.sessionIsEmpty key.kind bytes = some isEmpty ∧
      ∃ file, files key.path = some file ∧ file.content = bytes
  | .recording key bytes cursor _ =>
      env.sessionIsEmpty key.kind bytes = some true ∧ Fits files key bytes cursor
  | .folding selected => ∀ p ∈ selected, p.Fits files
  | .resolving deferred => 0 < run.report.observations ∧
      ∀ entry ∈ deferred, entry.1.Fits files ∧ 0 < entry.2.windowsLost
  | _ => True

/-- Every cursor a run has in hand fits what it read. -/
structure Run.Sound (env : PersonaEnv) (files : Files) (run : Run) : Prop where
  phase : run.phase.Sound env files run
  pending : ∀ p ∈ run.pending, p.Fits files
  deferred : ∀ entry ∈ run.deferred, entry.1.Fits files ∧ 0 < entry.2.windowsLost

/-- A commit that a run may make. -/
def Commit.Sound (env : PersonaEnv) (files : Files) (commit : Commit) : Prop :=
  commit.Accounted env ∧ Fits files commit.key commit.bytes commit.cursor

theorem Run.Sound.check (h : run.Sound env files) (fails : Bool) (keys : List FileKey) :
    (run.check files store fails keys).Sound env files := by
  cases keys with
  | nil => exact ⟨fun p hp => h.pending p (List.mem_of_mem_take hp), h.pending, h.deferred⟩
  | cons key rest =>
      rw [Run.check]
      dsimp only
      split_ifs <;> exact ⟨trivial, h.pending, h.deferred⟩

theorem Run.Sound.read (h : run.Sound env files) (fails : Bool) (key : FileKey)
    (rest : List FileKey) : (run.read env files fails key rest).Sound env files := by
  rw [Run.read]
  cases fails with
  | true => exact ⟨trivial, h.pending, h.deferred⟩
  | false =>
      rw [if_neg (by decide)]
      cases hfile : files key.path with
      | none => exact ⟨trivial, h.pending, h.deferred⟩
      | some file =>
          dsimp only
          cases hempty : env.sessionIsEmpty key.kind file.content with
          | none => exact ⟨trivial, h.pending, h.deferred⟩
          | some isEmpty => exact ⟨⟨hempty, file, hfile, rfl⟩, h.pending, h.deferred⟩

/-- The cursor is that of the bytes read, since the file is still as it was. -/
theorem fits_of_cursorOf {file : TranscriptFile} (hfile : files key.path = some file)
    (hcursor : cursorOf files key.path = some cursor) : Fits files key file.content cursor := by
  rw [cursorOf, hfile, Option.map_some, Option.some.injEq] at hcursor
  rw [← hcursor]
  exact ⟨rfl, file, hfile, List.prefix_rfl⟩

theorem Run.Sound.stat (h : run.Sound env files) (fails : Bool) {isEmpty : Bool}
    {rest : List FileKey} (hphase : (RunPhase.statting key bytes isEmpty rest).Sound env files run) :
    (run.stat files fails key bytes isEmpty rest).Sound env files := by
  obtain ⟨hempty, file, hfile, rfl⟩ := hphase
  have hfits : ∀ cursor ∈ (if fails then none else cursorOf files key.path),
      Fits files key file.content cursor := by
    intro cursor hcursor
    cases fails with
    | true => cases hcursor
    | false => exact fits_of_cursorOf hfile hcursor
  rw [Run.stat]
  cases isEmpty with
  | true =>
      rw [if_pos rfl]
      cases hcommit : (if fails then none else cursorOf files key.path) with
      | none => exact ⟨trivial, h.pending, h.deferred⟩
      | some cursor => exact ⟨⟨hempty, hfits cursor hcommit⟩, h.pending, h.deferred⟩
  | false =>
      rw [if_neg (by decide)]
      refine ⟨trivial, fun p hp => ?_, h.deferred⟩
      rcases List.mem_append.mp hp with hold | hnew
      · exact h.pending p hold
      · rw [List.mem_singleton.mp hnew]
        exact hfits

/-- A folded session is accounted for, and one whose commit is put off has lost windows. -/
theorem Run.Sound.fold (h : run.Sound env files) {p : Pending} {rest : List Pending}
    (hselected : ∀ q ∈ p :: rest, q.Fits files) (result : DigestResult) (storeFails : Bool) :
    (run.fold result storeFails p rest).1.Sound env files ∧
      ∀ commit ∈ (run.fold result storeFails p rest).2, commit.Sound env files := by
  obtain ⟨hp, hrest⟩ := List.forall_mem_cons.mp hselected
  cases result with
  | budgetExhausted => exact ⟨⟨hrest, h.pending, h.deferred⟩, nofun⟩
  | failed => exact ⟨⟨hrest, h.pending, h.deferred⟩, nofun⟩
  | outcome outcome foldFails =>
      rw [Run.fold]
      dsimp only
      by_cases habort : 0 < outcome.observations ∧ foldFails
      · rw [if_pos habort]
        exact ⟨⟨trivial, h.pending, h.deferred⟩, nofun⟩
      · rw [if_neg habort]
        cases hcommit : p.commit with
        | none => exact ⟨⟨hrest, h.pending, h.deferred⟩, nofun⟩
        | some cursor =>
            dsimp only
            by_cases hlost : outcome.observations = 0 ∧ 0 < outcome.windowsLost
            · rw [if_pos hlost]
              refine ⟨⟨hrest, h.pending, fun entry hentry => ?_⟩, nofun⟩
              rcases List.mem_append.mp hentry with hold | hnew
              · exact h.deferred entry hold
              · rw [List.mem_singleton.mp hnew]
                exact ⟨hp, hlost.2⟩
            · rw [if_neg hlost]
              refine ⟨⟨hrest, h.pending, h.deferred⟩, fun commit hmem => ?_⟩
              cases storeFails with
              | true => cases hmem
              | false =>
                  rw [← Option.some.inj hmem]
                  refine ⟨?_, hp cursor hcommit⟩
                  change 0 < outcome.observations ∨ outcome.windowsLost = 0
                  omega

theorem Run.Sound.resolve (h : run.Sound env files) (n : Nat) :
    (run.resolve n).Sound env files := by
  rw [Run.resolve]
  dsimp only
  split_ifs with hnone hobserved
  · exact ⟨trivial, h.pending, h.deferred⟩
  · exact ⟨⟨hobserved, h.deferred⟩, h.pending, h.deferred⟩
  · exact ⟨trivial, h.pending, h.deferred⟩

theorem Run.Sound.commitDeferred (h : run.Sound env files) (fails : Bool) {p : Pending}
    {outcome : SessionOutcome} {rest : List (Pending × SessionOutcome)}
    (hphase : (RunPhase.resolving ((p, outcome) :: rest)).Sound env files run) :
    (run.commitDeferred fails p outcome rest).1.Sound env files ∧
      ∀ commit ∈ (run.commitDeferred fails p outcome rest).2, commit.Sound env files := by
  obtain ⟨hobserved, hentries⟩ := hphase
  obtain ⟨⟨hp, hlost⟩, hrest⟩ := List.forall_mem_cons.mp hentries
  refine ⟨⟨⟨hobserved, hrest⟩, h.pending, h.deferred⟩, fun commit hcommit => ?_⟩
  rw [Run.commitDeferred] at hcommit
  cases fails with
  | true => cases hcommit
  | false =>
      obtain ⟨cursor, hcursor, rfl⟩ := Option.map_eq_some_iff.mp hcommit
      exact ⟨⟨hlost, hobserved⟩, hp cursor hcursor⟩

/-- One step of a run keeps what it relies on, and commits nothing else than what it read. -/
theorem Run.Sound.step (h : run.Sound env files) (store : StateStore) (action : RunAction) :
    (run.step env files store action).1.Sound env files ∧
      ∀ commit ∈ (run.step env files store action).2, commit.Sound env files := by
  have hphase := h.phase
  cases action with
  | advance fails =>
      rw [Run.step]
      cases hrun : run.phase with
      | checking keys => exact ⟨h.check fails keys, nofun⟩
      | reading key rest => exact ⟨h.read fails key rest, nofun⟩
      | statting key bytes isEmpty rest =>
          rw [hrun] at hphase
          exact ⟨h.stat fails hphase, nofun⟩
      | recording key bytes cursor rest =>
          rw [hrun] at hphase
          dsimp only
          split_ifs
          · exact ⟨⟨trivial, h.pending, h.deferred⟩, nofun⟩
          · refine ⟨⟨trivial, h.pending, h.deferred⟩, fun commit hcommit => ?_⟩
            rw [← Option.some.inj hcommit]
            exact hphase
      | folding selected => exact ⟨h, nofun⟩
      | resolving deferred =>
          rw [hrun] at hphase
          match deferred with
          | [] => exact ⟨⟨trivial, h.pending, h.deferred⟩, nofun⟩
          | (p, outcome) :: rest => exact h.commitDeferred fails hphase
      | done => exact ⟨h, nofun⟩
      | aborted => exact ⟨h, nofun⟩
  | digested result storeFails =>
      rw [Run.step]
      split
      next p rest hrun =>
        rw [hrun] at hphase
        exact h.fold hphase result storeFails
      next => exact ⟨h, nofun⟩
  | gitDone observations =>
      unfold Run.step
      dsimp only
      split
      next n hrun => exact ⟨h.resolve n, nofun⟩
      next hrun => exact ⟨⟨trivial, h.pending, h.deferred⟩, nofun⟩
      next => exact ⟨h, nofun⟩

/-- The files after an append. -/
def appended (files : Files) (path : String) (more : List UInt8) (mtimeMs : Int) : Files :=
  Function.update files path (some (TranscriptFile.append (files path) more mtimeMs))

section Append

variable {path : String} {more : List UInt8} {mtimeMs : Int}

theorem appended_content (path : String) (more : List UInt8) (mtimeMs : Int) {file : TranscriptFile}
    {other : String} (h : files other = some file) :
    ∃ file', appended files path more mtimeMs other = some file' ∧
      file'.content = file.content ++ if other = path then more else [] := by
  by_cases hother : other = path
  · subst hother
    refine ⟨TranscriptFile.append (files other) more mtimeMs, Function.update_self _ _ _, ?_⟩
    rw [if_pos rfl, TranscriptFile.append, h]
    rfl
  · refine ⟨file, ?_, by rw [if_neg hother, List.append_nil]⟩
    rw [appended, Function.update_of_ne hother, h]

/-- An append changes nothing about the bytes read before. -/
theorem Fits.append (h : Fits files key bytes cursor) :
    Fits (appended files path more mtimeMs) key bytes cursor := by
  obtain ⟨hlen, file, hfile, hprefixed⟩ := h
  obtain ⟨file', hfile', hcontent⟩ := appended_content path more mtimeMs hfile
  refine ⟨hlen, file', hfile', ?_⟩
  rw [hcontent]
  exact hprefixed.trans (List.prefix_append _ _)

theorem Run.Sound.append (h : run.Sound env files)
    (hcareful : more = [] ∨ PersonaWorld.hasRead run path = false) :
    run.Sound env (appended files path more mtimeMs) := by
  have hfits : ∀ p : Pending, p.Fits files → p.Fits (appended files path more mtimeMs) :=
    fun p hp cursor hcursor => (hp cursor hcursor).append
  refine ⟨?_, fun p hp => hfits p (h.pending p hp), fun entry hentry =>
    ⟨hfits entry.1 (h.deferred entry hentry).1, (h.deferred entry hentry).2⟩⟩
  have hphase := h.phase
  rw [PersonaWorld.hasRead] at hcareful
  cases hrun : run.phase with
  | statting key bytes isEmpty rest =>
      rw [hrun] at hphase hcareful
      obtain ⟨hempty, file, hfile, hbytes⟩ := hphase
      obtain ⟨file', hfile', hcontent⟩ := appended_content path more mtimeMs hfile
      refine ⟨hempty, file', hfile', ?_⟩
      have hnone : (if key.path = path then more else []) = [] := by
        rcases hcareful with hmore | hread
        · rw [hmore, ite_self]
        · exact if_neg (of_decide_eq_false hread)
      rw [hcontent, hnone, List.append_nil, hbytes]
  | recording key bytes cursor rest =>
      rw [hrun] at hphase
      exact ⟨hphase.1, hphase.2.append⟩
  | folding selected =>
      rw [hrun] at hphase
      exact fun p hp => hfits p (hphase p hp)
  | resolving deferred =>
      rw [hrun] at hphase
      exact ⟨hphase.1, fun entry hentry =>
        ⟨hfits entry.1 (hphase.2 entry hentry).1, (hphase.2 entry hentry).2⟩⟩
  | checking keys => trivial
  | reading key rest => trivial
  | done => trivial
  | aborted => trivial

end Append

namespace PersonaWorld

/-- Every stored cursor was committed for bytes that its file still starts with. -/
structure Sound (env : PersonaEnv) (world : PersonaWorld) : Prop where
  runs : ∀ run ∈ world.runs, run.Sound env world.files
  stored : ∀ key cursor, world.store key = some cursor →
    ∃ commit ∈ world.committed, commit.key = key ∧ commit.cursor = cursor ∧
      commit.Sound env world.files

theorem Sound.step {world : PersonaWorld} (h : world.Sound env) {label : PersonaLabel}
    (hcareful : world.Careful label) : (world.step env label).Sound env := by
  cases label with
  | append path more mtimeMs =>
      refine ⟨fun run hrun => (h.runs run hrun).append ?_, fun key cursor hstore => ?_⟩
      · rcases hcareful with hmore | hread
        · exact Or.inl hmore
        · exact Or.inr (hread run hrun)
      · obtain ⟨commit, hmem, hkey, hcursor, haccounted, hfits⟩ := h.stored key cursor hstore
        exact ⟨commit, hmem, hkey, hcursor, haccounted, hfits.append⟩
  | start mode maxSessions files =>
      refine ⟨fun run hrun => ?_, h.stored⟩
      rcases List.mem_append.mp hrun with hold | hnew
      · exact h.runs run hold
      · rw [List.mem_singleton.mp hnew]
        exact ⟨trivial, fun p hp => absurd hp List.not_mem_nil,
          fun entry hentry => absurd hentry List.not_mem_nil⟩
  | run i action =>
      rw [PersonaWorld.step]
      cases hi : world.runs[i]? with
      | none => exact h
      | some run =>
          obtain ⟨hnext, hcommit⟩ := (h.runs run (List.mem_of_getElem? hi)).step
            world.store action
          refine ⟨fun other hother => ?_, fun key cursor hstore => ?_⟩
          · dsimp only at hother
            rcases mem_replace hother with hold | hnew
            · exact h.runs other hold
            · rw [← Option.some.inj hnew]
              exact hnext
          · dsimp only at hstore ⊢
            cases hmade : (run.step env world.files world.store action).2 with
            | none =>
                rw [hmade] at hstore
                obtain ⟨commit, hmem, hrest⟩ := h.stored key cursor hstore
                exact ⟨commit, List.mem_append_left _ hmem, hrest⟩
            | some commit =>
                rw [hmade, Option.elim_some, Function.update_apply] at hstore
                split_ifs at hstore with hkey
                · refine ⟨commit, List.mem_append_right _ (by simp), hkey.symm,
                    Option.some.inj hstore, ?_⟩
                  exact hcommit commit hmade
                · obtain ⟨other, hmem, hrest⟩ := h.stored key cursor hstore
                  exact ⟨other, List.mem_append_left _ hmem, hrest⟩

/-- An unchanged file is as long as the bytes its cursor was committed for, so it is these. -/
theorem Sound.skipsCovered {world : PersonaWorld} (h : world.Sound env) (label : PersonaLabel) :
    world.SkipsCovered env label := by
  intro skip hskip
  unfold skipped at hskip
  split at hskip
  next i =>
    split at hskip
    next key rest pending deferred report hi =>
      by_cases hunchanged : fileUnchanged world.files world.store key
      swap
      · rw [if_neg hunchanged] at hskip
        cases hskip
      rw [if_pos hunchanged] at hskip
      obtain ⟨file, hfile, rfl⟩ := Option.map_eq_some_iff.mp hskip
      rw [fileUnchanged, cursorOf, hfile] at hunchanged
      obtain ⟨commit, hmem, rfl, hcursor, haccounted, hlen, file', hfile', hprefixed⟩ :=
        h.stored key _ (of_decide_eq_true hunchanged)
      obtain rfl : file = file' := Option.some.inj (hfile.symm.trans hfile')
      refine ⟨commit, hmem, rfl, hprefixed.eq_of_length ?_, haccounted⟩
      rw [hlen, hcursor]
    next => cases hskip
  next => cases hskip

/-- In every run of careful steps, whatever the digests and the store do, what an incremental run skips
was read to its last byte and accounted for. -/
theorem skipsCovered_of_careful (env : PersonaEnv) {labels : List PersonaLabel}
    (hcareful : (machine env).AllSteps Careful labels) :
    (machine env).AllSteps (SkipsCovered env) labels := by
  intro done label rest heq
  have hbefore : (machine env).AllSteps Careful done :=
    hcareful.of_prefix _ ⟨label :: rest, heq.symm⟩
  have hsound : ((machine env).run done).Sound env := by
    have hstart : Sound env (machine env).start :=
      ⟨fun run hrun => absurd hrun List.not_mem_nil, fun key cursor h => nomatch h⟩
    exact (machine env).invariant_of_steps hstart (fun world label h hlabel => h.step hlabel) hbefore
  exact hsound.skipsCovered label

section Sample

/-- A user's line in a transcript. -/
def userLine (text : String) : List UInt8 :=
  Lines.encode ("\x7b\"type\":\"user\",\"message\":\x7b\"content\":\"" ++ text ++ "\"\x7d\x7d\n")

/-- Files of such lines are empty sessions only without any. -/
def sampleEnv : PersonaEnv := ⟨fun _ bytes => some (bytes = [])⟩

def sampleKey : FileKey := ⟨.claudeCode, "/projects/a/session.jsonl"⟩

/-- The steps of a run behind its read: stat, selection, a digest with an observation, no git. -/
def restOfRun : List PersonaLabel :=
  [.run 0 (.advance false), .run 0 (.advance false), .run 0 (.digested (.outcome ⟨1, 0⟩ false) false),
    .run 0 (.gitDone (some 0))]

/-- A second run finds the file unchanged. -/
def secondRun : List PersonaLabel :=
  [.start .incremental 10 [sampleKey], .run 1 (.advance false)]

def firstRead : List PersonaLabel :=
  [.append sampleKey.path (userLine "use tabs") 1000, .start .incremental 10 [sampleKey],
    .run 0 (.advance false), .run 0 (.advance false)]

/-- What is appended behind the stat is not covered, and the file not skipped. -/
theorem skipsCovered_late_append :
    (machine sampleEnv).AllSteps (SkipsCovered sampleEnv)
      (firstRead ++ restOfRun ++ secondRun ++
        [.append sampleKey.path (userLine "no, spaces") 2000, .start .incremental 10 [sampleKey],
          .run 2 (.advance false)]) := by
  refine skipsCovered_of_careful sampleEnv ?_
  exact (Machine.allSteps_iff_stepsFrom _).mpr (by decide +kernel)

/-- The second line comes between the read and the stat. -/
def appendedBeforeStat : List PersonaLabel :=
  firstRead ++ [.append sampleKey.path (userLine "no, spaces") 2000] ++ restOfRun

/-- Then the cursor covers it, and the next run skips the file though nobody read the line. -/
theorem unread_line_skipped :
    ¬(machine sampleEnv).AllSteps (SkipsCovered sampleEnv) (appendedBeforeStat ++ secondRun) := by
  intro h
  have hcovered := h (appendedBeforeStat ++ [.start .incremental 10 [sampleKey]])
    (.run 1 (.advance false)) [] (by rw [secondRun, List.append_assoc]; rfl)
  have hskipped : ((machine sampleEnv).run
      (appendedBeforeStat ++ [.start .incremental 10 [sampleKey]])).skipped
        (.run 1 (.advance false)) =
      some (sampleKey, userLine "use tabs" ++ userLine "no, spaces") := by decide +kernel
  have hcommitted : ((machine sampleEnv).run
      (appendedBeforeStat ++ [.start .incremental 10 [sampleKey]])).committed.map (·.bytes) =
        [userLine "use tabs"] := by decide +kernel
  obtain ⟨commit, hmem, -, hbytes, -⟩ := hcovered _ hskipped
  have hread : commit.bytes ∈ [userLine "use tabs"] := by
    rw [← hcommitted]
    exact List.mem_map_of_mem hmem
  rw [hbytes, List.mem_singleton] at hread
  exact absurd hread (by decide +kernel)

end Sample

end PersonaWorld
end TinyCortex.Persona
