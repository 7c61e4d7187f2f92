import TinyCortex.Persona.Git

/-! Watermarks of repositories. A watermark is written behind the last session of a repository, whatever became of the
sessions before it; it means that the whole repository was folded as long as no session before the last one fails, runs
out of calls, or is lost in a run that observes nothing, while the last one's watermark is written. -/

namespace TinyCortex.Persona.Git

/-- The session was folded, was empty, or is a loss in a run that observed something. -/
def Fate.Accounted (runObservations : Nat) : Fate → Prop
  | .digested outcome => 0 < outcome.observations ∨ outcome.windowsLost = 0 ∨ 0 < runObservations
  | _ => False

/-- Every watermark was written by a run that accounted for all sessions it read from the repository; a run in which one
of them failed or was cut off writes none. -/
structure World.Folded (world : World) : Prop where
  watermarked : ∀ repo value, world.store repo = some value → ∃ run ∈ world.runs, (repo, value) ∈ run.commits ∧
    ∀ session ∈ run.sessions, session.repo = repo → session.fate.Accounted run.observations
  retried : ∀ run ∈ world.runs, ∀ session ∈ run.sessions, session.fate = .failed ∨ session.fate = .cutOff →
    (session.repo, session.value) ∉ run.commits

/-! ### What the results say -/

/-- The digest observed something that then could not be folded, which ends the run. -/
def Pending.aborts (p : Pending) : Bool :=
  match p.session.result with
  | .outcome outcome foldFails => decide (0 < outcome.observations) && foldFails
  | _ => false

def Pending.observations (p : Pending) : Nat :=
  match p.session.result with
  | .outcome outcome _ => outcome.observations
  | _ => 0

/-- Nothing was observed, and windows were lost. -/
def Pending.lost (p : Pending) : Bool :=
  match p.session.result with
  | .outcome outcome _ => decide (outcome.observations = 0) && decide (0 < outcome.windowsLost)
  | _ => false

def Pending.digests (p : Pending) : Bool :=
  match p.session.result with
  | .outcome _ _ => true
  | _ => false

/-- The fate of a session that is reached. -/
def Pending.fate (p : Pending) : Fate :=
  match p.session.result with
  | .outcome outcome _ => .digested outcome
  | .failed => .failed
  | .budgetExhausted => .cutOff

/-- The sessions that are through before a fold fails. -/
def reached (selected : List Pending) : List Pending := selected.takeWhile fun p => !p.aborts

/-- What the sessions observe, up to the one whose fold fails. -/
def observed : List Pending → Nat
  | [] => 0
  | p :: rest => p.observations + if p.aborts then 0 else observed rest

/-- The watermark behind the session gets written. -/
def Pending.writes (p : Pending) (selected : List Pending) (runObservations : Nat) : Prop :=
  p.commit = true ∧ p.digests = true ∧ p.session.storeFails = false ∧
    (p.lost = true → selected.any Pending.aborts = false ∧ 0 < runObservations)

variable (authorSetHash : List String → String)

/-- The sessions that a run selects. -/
def GitRun.selected (run : GitRun) (store : Watermarks) : List Pending :=
  (scan authorSetHash run store).pending.take run.sessionsLeft

/-- Where the watermark of a repository gets written, each of its sessions is digested, and none is lost unless the run
observes something. -/
def GitRun.Whole (run : GitRun) (store : Watermarks) : Prop :=
  let selected := run.selected authorSetHash store
  let runObservations := run.report.observations + observed selected
  ∀ p ∈ reached selected, p.writes selected runObservations →
    ∀ q ∈ selected, q.repo = p.repo → q.digests = true ∧ (q.lost = true → 0 < runObservations)

instance (p : Pending) (selected : List Pending) (runObservations : Nat) :
    Decidable (p.writes selected runObservations) :=
  inferInstanceAs (Decidable (_ ∧ _ ∧ _ ∧ (_ → _)))

instance (run : GitRun) (store : Watermarks) : Decidable (run.Whole authorSetHash store) :=
  inferInstanceAs (Decidable (∀ p ∈ _, _ → ∀ q ∈ _, _ → _))

variable {authorSetHash} {run : GitRun} {store : Watermarks}

/-! ### The scan -/

/-- A watermark is attached to a session behind which there is none of its repository. -/
def Ordered (pending : List Pending) : Prop := pending.Pairwise fun p q => p.commit = true → q.repo ≠ p.repo

theorem mem_attach {repo value : String} {sessions : List SessionInput} {p : Pending}
    (h : p ∈ attach repo value sessions) : p.repo = repo ∧ p.value = value := by
  obtain ⟨entry, -, rfl⟩ := List.mem_map.mp h
  exact ⟨rfl, rfl⟩

theorem attach_ordered (repo value : String) (sessions : List SessionInput) : Ordered (attach repo value sessions) := by
  apply List.pairwise_iff_getElem.mpr
  intro i j hi hj hij hcommit
  simp only [attach, List.getElem_map, List.getElem_zipIdx, List.length_map, List.length_zipIdx, beq_iff_eq] at hcommit hj
  omega

/-- What the scan has after some repositories. -/
structure Scanned (run : GitRun) (store : Watermarks) (seen : List String) (s : RunState) : Prop where
  log : s.log = []
  deferred : s.deferred = []
  observations : s.report.observations = run.report.observations
  ordered : Ordered s.pending
  pending : ∀ p ∈ s.pending, p.repo ∈ seen
  commits : ∀ commit ∈ s.commits, commit.1 ∈ seen ∧ ∀ p ∈ s.pending, p.repo ≠ commit.1
  store : ∀ repo value, s.store repo = some value → store repo = some value ∨ (repo, value) ∈ s.commits

theorem Scanned.mono {seen : List String} {s : RunState} (h : Scanned run store seen s) (repo : String) :
    Scanned run store (seen ++ [repo]) s :=
  { h with
    pending := fun p hp => List.mem_append_left _ (h.pending p hp)
    commits := fun commit hcommit =>
      ⟨List.mem_append_left _ (h.commits commit hcommit).1, (h.commits commit hcommit).2⟩ }

/-- A write to the store is among the watermarks written. -/
theorem store_commit {s : RunState} {repo value : String}
    (h : ∀ repo value, s.store repo = some value → store repo = some value ∨ (repo, value) ∈ s.commits) :
    ∀ repo' value', (s.commit repo value).store repo' = some value' →
      store repo' = some value' ∨ (repo', value') ∈ (s.commit repo value).commits := by
  intro repo' value' hsome
  rw [RunState.commit] at hsome ⊢
  dsimp only at hsome ⊢
  by_cases hrepo : repo' = repo
  · subst hrepo
    rw [Function.update_self] at hsome
    rw [← Option.some.inj hsome]
    exact Or.inr (List.mem_append_right _ (List.mem_singleton_self _))
  · rw [Function.update_of_ne hrepo] at hsome
    exact (h repo' value' hsome).imp_right (List.mem_append_left _)

theorem Scanned.commit {seen : List String} {s : RunState} (h : Scanned run store seen s) {repo : String}
    (hnew : repo ∉ seen) (value : String) : Scanned run store (seen ++ [repo]) (s.commit repo value) where
  log := h.log
  deferred := h.deferred
  observations := h.observations
  ordered := h.ordered
  pending := fun p hp => List.mem_append_left _ (h.pending p hp)
  commits := by
    intro commit hcommit
    rcases List.mem_append.mp hcommit with hold | hlast
    · exact ⟨List.mem_append_left _ (h.commits commit hold).1, (h.commits commit hold).2⟩
    · rw [List.mem_singleton.mp hlast]
      refine ⟨List.mem_append_right _ (List.mem_singleton_self _), fun p hp heq => hnew ?_⟩
      have hseen := h.pending p hp
      rwa [heq] at hseen
  store := store_commit h.store

theorem Scanned.attach {seen : List String} {s : RunState} (h : Scanned run store seen s) {repo : String}
    (hnew : repo ∉ seen) (value : String) (sessions : List SessionInput) :
    Scanned run store (seen ++ [repo]) { s with pending := s.pending ++ attach repo value sessions } where
  log := h.log
  deferred := h.deferred
  observations := h.observations
  ordered := by
    refine List.pairwise_append.mpr ⟨h.ordered, attach_ordered repo value sessions, fun p hp q hq _ heq => hnew ?_⟩
    rw [← (mem_attach hq).1, heq]
    exact h.pending p hp
  pending := by
    intro p hp
    rcases List.mem_append.mp hp with hold | hlast
    · exact List.mem_append_left _ (h.pending p hold)
    · rw [(mem_attach hlast).1]
      exact List.mem_append_right _ (List.mem_singleton_self _)
  commits := by
    intro commit hcommit
    obtain ⟨hseen, hnone⟩ := h.commits commit hcommit
    refine ⟨List.mem_append_left _ hseen, fun p hp => ?_⟩
    rcases List.mem_append.mp hp with hold | hlast
    · exact hnone p hold
    · rw [(mem_attach hlast).1]
      exact fun heq => hnew (heq ▸ hseen)
  store := h.store

theorem Scanned.scanRepo {seen : List String} {s : RunState} (h : Scanned run store seen s) {r : RepoInput}
    (hnew : r.repo ∉ seen) : Scanned run store (seen ++ [r.repo]) (scanRepo authorSetHash run s r) := by
  rw [Git.scanRepo]
  by_cases haborted : s.aborted = true
  · rw [if_pos haborted]
    exact h.mono r.repo
  rw [if_neg haborted]
  have hseen : Scanned run store seen { s with report := { s.report with filesSeen := s.report.filesSeen + 1 } } :=
    { h with }
  cases r.head with
  | none => exact hseen.mono r.repo
  | some head =>
      dsimp only
      by_cases hcheck : run.mode = .incremental ∧ r.checkFails = true
      · rw [if_pos hcheck]
        exact { hseen.mono r.repo with }
      rw [if_neg hcheck]
      by_cases hsame : run.mode = .incremental ∧
          s.store r.repo = some (watermark authorSetHash head run.authorEmails)
      · rw [if_pos hsame]
        exact { hseen.mono r.repo with }
      rw [if_neg hsame]
      cases r.sessions with
      | none => exact hseen.mono r.repo
      | some sessions =>
          cases sessions with
          | nil =>
              dsimp only
              by_cases hrecord : r.recordFails = true
              · rw [if_pos hrecord]
                exact { hseen.mono r.repo with }
              · rw [if_neg hrecord]
                exact hseen.commit hnew _
          | cons session sessions => exact hseen.attach hnew _ (session :: sessions)

theorem scan_scanned : Scanned run store (run.repos.map RepoInput.repo) (scan authorSetHash run store) := by
  have hfold : ∀ (repos : List RepoInput) seen s, Scanned run store seen s → (seen ++ repos.map RepoInput.repo).Nodup →
      Scanned run store (seen ++ repos.map RepoInput.repo) (repos.foldl (scanRepo authorSetHash run) s) := by
    intro repos
    induction repos with
    | nil =>
        intro seen s h _
        rw [List.map_nil, List.append_nil]
        exact h
    | cons r repos ih =>
        intro seen s h hnodup
        have hsplit : seen ++ (r :: repos).map RepoInput.repo = (seen ++ [r.repo]) ++ repos.map RepoInput.repo := by simp
        rw [hsplit] at hnodup ⊢
        have hfresh := (List.nodup_append.mp (List.nodup_append.mp hnodup).1).2.2
        exact ih _ _ (h.scanRepo fun hmem => hfresh _ hmem _ (List.mem_singleton_self _) rfl) hnodup
  have hstart : Scanned run store [] ⟨store, [], [], run.report, [], [], false⟩ :=
    ⟨rfl, rfl, rfl, List.Pairwise.nil, fun _ hp => absurd hp List.not_mem_nil,
      fun _ hcommit => absurd hcommit List.not_mem_nil, fun _ _ => Or.inl⟩
  have hall := hfold run.repos [] _ hstart (by rw [List.nil_append]; exact run.distinct)
  rw [List.nil_append] at hall
  exact hall

/-! ### The loop over the digested sessions -/

/-- The watermark is written with the turn of its session. -/
def Pending.writesAtOnce (p : Pending) : Bool := p.commit && p.digests && !p.lost && !p.session.storeFails

/-- The watermark is put off. -/
def Pending.putOff (p : Pending) : Bool := p.commit && p.lost

def Pending.key (p : Pending) : String × String := (p.repo, p.value)

/-- The sessions behind a fold that fails, that one included. -/
def unreached (selected : List Pending) : List Pending := selected.dropWhile fun p => !p.aborts

theorem reached_append_unreached (selected : List Pending) : reached selected ++ unreached selected = selected :=
  List.takeWhile_append_dropWhile

def Pending.entry (p : Pending) (fate : Fate) : SessionLog := ⟨p.repo, p.value, fate⟩

/-- What the loop adds to a state. -/
structure Folds (selected : List Pending) (s s' : RunState) : Prop where
  log : s'.log = s.log ++ ((reached selected).map (fun p => p.entry p.fate) ++
    (unreached selected).map fun p => p.entry .unreached)
  commits : s'.commits = s.commits ++ ((reached selected).filter Pending.writesAtOnce).map Pending.key
  deferred : s'.deferred = s.deferred ++ (reached selected).filter Pending.putOff
  observations : s'.report.observations = s.report.observations + observed selected
  aborted : s'.aborted = selected.any Pending.aborts
  store : ∀ repo value, s'.store repo = some value → s.store repo = some value ∨ (repo, value) ∈ s'.commits

/-- A run that has ended only logs. -/
theorem foldl_aborted (selected : List Pending) {s : RunState} (h : s.aborted = true) :
    selected.foldl foldSession s = { s with log := s.log ++ selected.map fun p => p.entry .unreached } := by
  induction selected generalizing s with
  | nil => simp
  | cons p rest ih =>
      have hstep : foldSession s p = s.logged p .unreached := by rw [foldSession, if_pos h]
      have hlogged : (s.logged p .unreached).aborted = true := h
      rw [List.foldl_cons, hstep, ih hlogged]
      simp [RunState.logged, Pending.entry]

/-- One turn before a failing fold. -/
structure Turn (p : Pending) (s s' : RunState) : Prop where
  log : s'.log = s.log ++ [p.entry p.fate]
  commits : s'.commits = s.commits ++ if p.writesAtOnce then [p.key] else []
  deferred : s'.deferred = s.deferred ++ if p.putOff then [p] else []
  observations : s'.report.observations = s.report.observations + p.observations
  aborted : s'.aborted = false
  store : ∀ repo value, s'.store repo = some value → s.store repo = some value ∨ (repo, value) ∈ s'.commits

theorem foldSession_turn {p : Pending} {s : RunState} (hs : s.aborted = false) (hp : p.aborts = false) :
    Turn p s (foldSession s p) := by
  have hgoing : ¬s.aborted = true := by rw [hs]; exact Bool.false_ne_true
  rw [foldSession, if_neg hgoing]
  cases hresult : p.session.result with
  | budgetExhausted =>
      refine ⟨?_, ?_, ?_, ?_, hs, fun _ _ => Or.inl⟩
      · simp [RunState.logged, Pending.entry, Pending.fate, hresult]
      · simp [RunState.logged, Pending.writesAtOnce, Pending.digests, hresult]
      · simp [RunState.logged, Pending.putOff, Pending.lost, hresult]
      · simp [Pending.observations, hresult]
  | failed =>
      refine ⟨?_, ?_, ?_, ?_, hs, fun _ _ => Or.inl⟩
      · simp [RunState.logged, Pending.entry, Pending.fate, hresult]
      · simp [RunState.logged, Pending.writesAtOnce, Pending.digests, hresult]
      · simp [RunState.logged, Pending.putOff, Pending.lost, hresult]
      · simp [Pending.observations, hresult]
  | outcome outcome foldFails =>
      have hfolds : ¬(0 < outcome.observations ∧ foldFails = true) := by
        simpa [Pending.aborts, hresult] using hp
      have hobservations : p.observations = outcome.observations := by rw [Pending.observations, hresult]
      have hfate : p.fate = .digested outcome := by rw [Pending.fate, hresult]
      have hdigests : p.digests = true := by rw [Pending.digests, hresult]
      have hlost : p.lost = (decide (outcome.observations = 0) && decide (0 < outcome.windowsLost)) := by
        rw [Pending.lost, hresult]
      dsimp only
      rw [if_neg hfolds]
      by_cases hcommit : p.commit = false
      · rw [if_pos hcommit]
        exact ⟨by rw [hfate]; rfl, by simp [RunState.logged, Pending.writesAtOnce, hcommit],
          by simp [RunState.logged, Pending.putOff, hcommit], by rw [hobservations]; rfl, hs, fun _ _ => Or.inl⟩
      rw [if_neg hcommit]
      rw [Bool.not_eq_false] at hcommit
      by_cases hall : outcome.observations = 0 ∧ 0 < outcome.windowsLost
      · have hgone : p.lost = true := by simp [hlost, hall]
        rw [if_pos hall]
        exact ⟨by rw [hfate]; rfl, by simp [RunState.logged, Pending.writesAtOnce, hgone],
          by simp [RunState.logged, Pending.putOff, hcommit, hgone], by rw [hobservations]; rfl, hs, fun _ _ => Or.inl⟩
      have hkept : p.lost = false := by
        rw [hlost, Bool.eq_false_iff]
        simpa using hall
      rw [if_neg hall]
      cases hwrite : p.session.storeFails with
      | true =>
          rw [if_pos rfl]
          exact ⟨by rw [hfate]; rfl, by simp [RunState.logged, Pending.writesAtOnce, hwrite],
            by simp [RunState.logged, Pending.putOff, hkept], by rw [hobservations]; rfl, hs, fun _ _ => Or.inl⟩
      | false =>
          rw [if_neg Bool.false_ne_true]
          refine ⟨by rw [hfate]; rfl, ?_, ?_, by rw [hobservations]; rfl, hs, store_commit fun _ _ => Or.inl⟩
          · simp [RunState.commit, RunState.logged, Pending.writesAtOnce, Pending.key, hcommit, hdigests, hkept, hwrite]
          · simp [RunState.commit, RunState.logged, Pending.putOff, hkept]

/-- The turn of a failing fold ends the run. -/
theorem foldSession_abort {p : Pending} {s : RunState} (hs : s.aborted = false) (hp : p.aborts = true) :
    ∃ report, report.observations = s.report.observations + p.observations ∧
      foldSession s p = { s with log := s.log ++ [p.entry .unreached], report := report, aborted := true } := by
  have hgoing : ¬s.aborted = true := by rw [hs]; exact Bool.false_ne_true
  rw [foldSession, if_neg hgoing]
  cases hresult : p.session.result with
  | budgetExhausted => simp [Pending.aborts, hresult] at hp
  | failed => simp [Pending.aborts, hresult] at hp
  | outcome outcome foldFails =>
      have hfails : 0 < outcome.observations ∧ foldFails = true := by simpa [Pending.aborts, hresult] using hp
      dsimp only
      rw [if_pos hfails]
      have hobservations : p.observations = outcome.observations := by rw [Pending.observations, hresult]
      refine ⟨_, ?_, rfl⟩
      rw [hobservations]
      rfl

theorem foldl_folds (selected : List Pending) {s : RunState} (hs : s.aborted = false) :
    Folds selected s (selected.foldl foldSession s) := by
  induction selected generalizing s with
  | nil => exact ⟨by simp [reached, unreached], by simp [reached], by simp [reached], rfl, hs, fun _ _ => Or.inl⟩
  | cons p rest ih =>
      cases hp : p.aborts with
      | true =>
          obtain ⟨report, hobservations, hstep⟩ := foldSession_abort hs hp
          have hreached : reached (p :: rest) = [] := by simp [reached, hp]
          have hunreached : unreached (p :: rest) = p :: rest := by simp [unreached, hp]
          rw [List.foldl_cons, hstep, foldl_aborted rest rfl]
          refine ⟨?_, ?_, ?_, ?_, ?_, fun _ _ => Or.inl⟩
          · rw [hreached, hunreached]
            simp
          · rw [hreached]
            simp
          · rw [hreached]
            simp
          · rw [observed, hp]
            exact hobservations
          · rw [List.any_cons, hp, Bool.true_or]
      | false =>
          have hturn := foldSession_turn hs hp
          have hrest := ih hturn.aborted
          have hreached : reached (p :: rest) = p :: reached rest := by simp [reached, hp]
          have hunreached : unreached (p :: rest) = unreached rest := by simp [unreached, hp]
          refine ⟨?_, ?_, ?_, ?_, ?_, ?_⟩
          · rw [List.foldl_cons, hrest.log, hturn.log, hreached, hunreached]
            simp
          · rw [List.foldl_cons, hrest.commits, hturn.commits, hreached, List.filter_cons]
            cases p.writesAtOnce <;> simp
          · rw [List.foldl_cons, hrest.deferred, hturn.deferred, hreached, List.filter_cons]
            cases p.putOff <;> simp
          · rw [List.foldl_cons, hrest.observations, hturn.observations, observed, hp, Nat.add_assoc]
            rfl
          · rw [List.foldl_cons, hrest.aborted, List.any_cons, hp, Bool.false_or]
          · intro repo value hsome
            rw [List.foldl_cons] at hsome ⊢
            refine (hrest.store repo value hsome).elim (fun hmid => ?_) Or.inr
            refine (hturn.store repo value hmid).imp_right fun hold => ?_
            rw [hrest.commits]
            exact List.mem_append_left _ hold

/-! ### A run -/

/-- Watermarks that are put off are written once the run has observed something. -/
structure Resolves (s s' : RunState) : Prop where
  log : s'.log = s.log
  observations : s'.report.observations = s.report.observations
  commits : ∀ commit ∈ s'.commits, commit ∈ s.commits ∨ (0 < s.report.observations ∧
    ∃ p ∈ s.deferred, p.session.storeFails = false ∧ p.key = commit)
  kept : s.commits ⊆ s'.commits
  store : ∀ repo value, s'.store repo = some value → s.store repo = some value ∨ (repo, value) ∈ s'.commits

theorem Resolves.step {s t : RunState} (h : Resolves s t) (hobserved : 0 < s.report.observations) {p : Pending}
    (hp : p ∈ s.deferred) : Resolves s (if p.session.storeFails then t else t.commit p.repo p.value) := by
  by_cases hfails : p.session.storeFails = true
  · rw [if_pos hfails]
    exact h
  rw [if_neg hfails]
  refine ⟨h.log, h.observations, fun commit hcommit => ?_, fun commit hcommit => ?_, store_commit h.store⟩
  · rcases List.mem_append.mp hcommit with hold | hlast
    · exact h.commits commit hold
    · exact Or.inr ⟨hobserved, p, hp, by simpa using hfails, (List.mem_singleton.mp hlast).symm⟩
  · exact List.mem_append_left _ (h.kept hcommit)

theorem resolveDeferred_resolves (run : GitRun) (s : RunState) : Resolves s (resolveDeferred run s) := by
  rw [resolveDeferred]
  split_ifs with hnone hobserved
  · exact ⟨rfl, rfl, fun _ => Or.inl, fun _ h => h, fun _ _ => Or.inl⟩
  · exact List.foldlRecOn s.deferred _ ⟨rfl, rfl, fun _ => Or.inl, fun _ h => h, fun _ _ => Or.inl⟩
      fun t ht p hp => ht.step hobserved hp
  · exact ⟨rfl, rfl, fun _ => Or.inl, fun _ h => h, fun _ _ => Or.inl⟩

/-- A session that is digested, and that is no loss of a run that observes nothing, is accounted for. -/
theorem fate_accounted {p : Pending} {runObservations : Nat} (hdigests : p.digests = true)
    (hlost : p.lost = true → 0 < runObservations) : p.fate.Accounted runObservations := by
  cases hresult : p.session.result with
  | budgetExhausted => simp [Pending.digests, hresult] at hdigests
  | failed => simp [Pending.digests, hresult] at hdigests
  | outcome outcome foldFails =>
      have hfate : p.fate = .digested outcome := by rw [Pending.fate, hresult]
      have hgone : p.lost = true ↔ outcome.observations = 0 ∧ 0 < outcome.windowsLost := by
        simp [Pending.lost, hresult]
      rw [hfate]
      show 0 < outcome.observations ∨ outcome.windowsLost = 0 ∨ 0 < runObservations
      by_cases hall : outcome.observations = 0 ∧ 0 < outcome.windowsLost
      · exact Or.inr (Or.inr (hlost (hgone.mpr hall)))
      · omega

/-- Behind a session that carries a watermark there is none of its repository. -/
theorem repo_ne_of_later {pending : List Pending} (h : Ordered pending) {before after : List Pending}
    (hsplit : pending = before ++ after) {p q : Pending} (hp : p ∈ before) (hq : q ∈ after) (hcommit : p.commit = true) :
    q.repo ≠ p.repo := by
  rw [hsplit] at h
  exact (List.pairwise_append.mp h).2.2 p hp q hq hcommit

/-- The log of a loop over the first sessions, with the others cut off, and a watermark that may be written. -/
theorem accounted_of_writes {scanned : RunState} {seen : List String} (hscan : Scanned run store seen scanned)
    {selected rest : List Pending} (hsplit : scanned.pending = selected ++ rest) {runObservations : Nat}
    (hwhole : ∀ p ∈ reached selected, p.writes selected runObservations →
      ∀ q ∈ selected, q.repo = p.repo → q.digests = true ∧ (q.lost = true → 0 < runObservations))
    {commit : String × String}
    (hcommit : commit ∈ scanned.commits ∨ ∃ p ∈ reached selected, p.key = commit ∧ p.writes selected runObservations)
    {session : SessionLog}
    (hsession : session ∈ (reached selected).map (fun p => p.entry p.fate) ++
      (unreached selected).map (fun p => p.entry .unreached) ++ rest.map fun p => p.entry .cutOff)
    (hrepo : session.repo = commit.1) : session.fate.Accounted runObservations := by
  have hparts : scanned.pending = reached selected ++ (unreached selected ++ rest) := by
    rw [← List.append_assoc, reached_append_unreached, hsplit]
  have hfrom : (∃ q ∈ reached selected, session = q.entry q.fate) ∨
      ∃ q ∈ unreached selected ++ rest, ∃ fate, session = q.entry fate := by
    rcases List.mem_append.mp hsession with hfirst | hcut
    · rcases List.mem_append.mp hfirst with hreached | hunreached
      · obtain ⟨q, hq, rfl⟩ := List.mem_map.mp hreached
        exact Or.inl ⟨q, hq, rfl⟩
      · obtain ⟨q, hq, rfl⟩ := List.mem_map.mp hunreached
        exact Or.inr ⟨q, List.mem_append_left _ hq, _, rfl⟩
    · obtain ⟨q, hq, rfl⟩ := List.mem_map.mp hcut
      exact Or.inr ⟨q, List.mem_append_right _ hq, _, rfl⟩
  rcases hcommit with hscanned | ⟨p, hp, rfl, hwrites⟩
  · -- the scan writes watermarks of repositories without sessions only
    have hnone := (hscan.commits commit hscanned).2
    rw [hparts] at hnone
    rcases hfrom with ⟨q, hq, rfl⟩ | ⟨q, hq, fate, rfl⟩
    · exact absurd hrepo (hnone q (List.mem_append_left _ hq))
    · exact absurd hrepo (hnone q (List.mem_append_right _ hq))
  · rcases hfrom with ⟨q, hq, rfl⟩ | ⟨q, hq, fate, rfl⟩
    · obtain ⟨hdigests, hlost⟩ := hwhole p hp hwrites q ((List.takeWhile_prefix _).subset hq) hrepo
      exact fate_accounted hdigests hlost
    · exact absurd hrepo (repo_ne_of_later hscan.ordered hparts hp hq hwrites.1)

theorem writes_of_writesAtOnce {p : Pending} (h : p.writesAtOnce = true) (selected : List Pending) (runObservations : Nat) :
    p.writes selected runObservations := by
  simp only [Pending.writesAtOnce, Bool.and_eq_true, Bool.not_eq_true'] at h
  obtain ⟨⟨⟨hcommit, hdigests⟩, hkept⟩, hwrite⟩ := h
  exact ⟨hcommit, hdigests, hwrite, fun hlost => absurd (hkept.symm.trans hlost) Bool.false_ne_true⟩

theorem digests_of_lost {p : Pending} (h : p.lost = true) : p.digests = true := by
  cases hresult : p.session.result with
  | outcome outcome foldFails => rw [Pending.digests, hresult]
  | budgetExhausted => simp [Pending.lost, hresult] at h
  | failed => simp [Pending.lost, hresult] at h

/-- What the digest loop comes to behind a scan. -/
structure Looped (run : GitRun) (store : Watermarks) (selected rest : List Pending) (scanned folded : RunState) :
    Prop where
  log : folded.log = (reached selected).map (fun p => p.entry p.fate) ++
    (unreached selected).map (fun p => p.entry .unreached) ++ rest.map fun p => p.entry .cutOff
  commits : ∀ commit ∈ folded.commits, commit ∈ scanned.commits ∨ ∃ p ∈ reached selected, p.key = commit ∧
    p.writes selected (run.report.observations + observed selected)
  deferred : folded.deferred = (reached selected).filter Pending.putOff
  observations : folded.report.observations = run.report.observations + observed selected
  aborted : folded.aborted = selected.any Pending.aborts
  store : ∀ repo value, folded.store repo = some value → store repo = some value ∨ (repo, value) ∈ folded.commits

theorem digestAndFold_looped {scanned : RunState} {seen : List String} (hscan : Scanned run store seen scanned)
    (hgoing : scanned.aborted = false) :
    Looped run store (scanned.pending.take run.sessionsLeft) (scanned.pending.drop run.sessionsLeft) scanned
      (digestAndFold run scanned) := by
  have hfolds : Folds (scanned.pending.take run.sessionsLeft) _ _ := foldl_folds _ (s := { scanned with
    report := { scanned.report with
      budgetHit := scanned.report.budgetHit || decide (run.sessionsLeft < scanned.pending.length) } }) hgoing
  refine ⟨?_, ?_, ?_, ?_, hfolds.aborted, ?_⟩
  · refine congrArg (· ++ _) (hfolds.log.trans ?_)
    show scanned.log ++ _ = _
    rw [hscan.log, List.nil_append]
  · intro commit hcommit
    have hsplit := hfolds.commits ▸ hcommit
    refine (List.mem_append.mp hsplit).imp_right fun hlast => ?_
    obtain ⟨p, hp, rfl⟩ := List.mem_map.mp hlast
    obtain ⟨hmem, hwrites⟩ := List.mem_filter.mp hp
    exact ⟨p, hmem, rfl, writes_of_writesAtOnce hwrites _ _⟩
  · refine hfolds.deferred.trans ?_
    show scanned.deferred ++ _ = _
    rw [hscan.deferred, List.nil_append]
  · have hobservations := hfolds.observations
    rw [hscan.observations] at hobservations
    exact hobservations
  · intro repo value hsome
    refine (hfolds.store repo value hsome).elim (fun hmid => ?_) Or.inr
    refine (hscan.store repo value hmid).imp_right fun hold => ?_
    exact hfolds.commits ▸ List.mem_append_left _ hold

theorem exec_accounted (hwhole : run.Whole authorSetHash store) :
    (∀ commit ∈ (run.exec authorSetHash store).commits, ∀ session ∈ (run.exec authorSetHash store).log,
      session.repo = commit.1 → session.fate.Accounted (run.exec authorSetHash store).report.observations) ∧
    ∀ repo value, (run.exec authorSetHash store).store repo = some value →
      store repo = some value ∨ (repo, value) ∈ (run.exec authorSetHash store).commits := by
  have hscan : Scanned run store _ (scan authorSetHash run store) := scan_scanned
  rw [GitRun.Whole, GitRun.selected] at hwhole
  rw [GitRun.exec]
  generalize scan authorSetHash run store = scanned at hscan hwhole ⊢
  by_cases habort : scanned.aborted = true
  · rw [if_pos habort]
    refine ⟨fun commit hcommit session hsession hrepo => ?_, hscan.store⟩
    obtain ⟨q, hq, rfl⟩ := List.mem_map.mp hsession
    exact absurd hrepo ((hscan.commits commit hcommit).2 q hq)
  rw [if_neg habort]
  have hloop := digestAndFold_looped hscan (Bool.eq_false_iff.mpr habort)
  have hsplit : scanned.pending = scanned.pending.take run.sessionsLeft ++ scanned.pending.drop run.sessionsLeft :=
    (List.take_append_drop _ _).symm
  generalize digestAndFold run scanned = folded at hloop ⊢
  by_cases hfailed : folded.aborted = true
  · rw [if_pos hfailed, hloop.observations, hloop.log]
    exact ⟨fun commit hcommit session hsession hrepo =>
      accounted_of_writes hscan hsplit hwhole (hloop.commits commit hcommit) hsession hrepo, hloop.store⟩
  · rw [if_neg hfailed]
    have hresolves := resolveDeferred_resolves run folded
    rw [hresolves.log, hresolves.observations, hloop.observations, hloop.log]
    refine ⟨fun commit hcommit session hsession hrepo => ?_, fun repo value hsome => ?_⟩
    · refine accounted_of_writes hscan hsplit hwhole ?_ hsession hrepo
      rcases hresolves.commits commit hcommit with hold | ⟨hobserved, p, hp, hwrite, rfl⟩
      · exact hloop.commits commit hold
      · rw [hloop.deferred] at hp
        obtain ⟨hmem, hputOff⟩ := List.mem_filter.mp hp
        rw [Pending.putOff, Bool.and_eq_true] at hputOff
        rw [hloop.observations] at hobserved
        rw [hloop.aborted, Bool.not_eq_true] at hfailed
        exact Or.inr ⟨p, hmem, rfl, hputOff.1, digests_of_lost hputOff.2, hwrite, fun _ => ⟨hfailed, hobserved⟩⟩
    · refine (hresolves.store repo value hsome).elim (fun hmid => ?_) Or.inr
      exact (hloop.store repo value hmid).imp_right fun hold => hresolves.kept hold

/-! ### Sequences of runs -/

theorem World.Folded.step {world : World} (h : world.Folded) (hwhole : run.Whole authorSetHash world.store) :
    (world.step authorSetHash run).Folded := by
  obtain ⟨haccounted, hstore⟩ := exec_accounted hwhole
  refine ⟨fun repo value hsome => ?_, fun log hlog session hsession hunfinished hcommit => ?_⟩
  · rcases hstore repo value hsome with hold | hnew
    · obtain ⟨log, hlog, hwritten⟩ := h.watermarked repo value hold
      exact ⟨log, List.mem_append_left _ hlog, hwritten⟩
    · exact ⟨_, List.mem_append_right _ (List.mem_singleton_self _), hnew, haccounted (repo, value) hnew⟩
  · rcases List.mem_append.mp hlog with hold | hnew
    · exact h.retried log hold session hsession hunfinished hcommit
    · rw [List.mem_singleton.mp hnew] at hsession hcommit
      have hfate := haccounted _ hcommit session hsession rfl
      rcases hunfinished with hfailed | hcut
      · rw [hfailed] at hfate
        exact hfate
      · rw [hcut] at hfate
        exact hfate

/-- A run over one repository with two sessions, which are digested with these results. -/
def twoSessions (first last : DigestResult) : GitRun where
  mode := .backfill
  authorEmails := []
  repos := [⟨"/work/app", some "4f2a", some [⟨first, false⟩, ⟨last, false⟩], false, false⟩]
  sessionsLeft := 50
  report := ⟨0, 0, 0, 0, 0, 0, 0, false, false⟩
  transcriptsDeferred := false
  distinct := List.pairwise_singleton _ _

def observing : DigestResult := .outcome ⟨1, 0⟩ false

/-- A hash of author sets. -/
def countAuthors (authorEmails : List String) : String := String.ofList (authorEmails.map fun _ => '1')

end TinyCortex.Persona.Git
