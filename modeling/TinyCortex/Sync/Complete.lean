import TinyCortex.Sync.Pages
import TinyCortex.Sync.Skipless

/-! A run that returns without anything pending and without a scope error has stored all that is listed in
the window, and no cursor it stores keeps a later run from what is missing. -/

namespace TinyCortex.Sync

variable {ι : Type} (source : Source ι)

namespace World

variable (world : World ι)

/-- What the last run returned does not hide that something is missing. -/
def Complete : Prop := ∀ outcome ∈ world.outcome, outcome.morePending = false →
  outcome.scopeError = false → ∀ scope item, ¬world.Missing source scope item

/-- The stored cursors keep out neither what is missing nor what is listed before it, where a run would
stop. -/
def CursorSafe : Prop := ∀ scope before item after, world.listing scope = before ++ item :: after →
  world.Missing source scope item → ∀ other ∈ before ++ [item], Ahead source world.persisted scope other

/-- Besides, no run starts with the budget used up or leaves out a scope while something is missing there,
and under one cursor for all scopes no failure is passed over. -/
def Careful (label : Label ι) : Prop :=
  world.Steady source label ∧
    match label with
    | .start _ exhausted scopes => world.run.isNone →
        (exhausted = true → ∀ scope item, ¬world.Missing source scope item) ∧
          ∀ ids ∈ scopes, ∀ scope ∉ ids, ∀ item, ¬world.Missing source scope item
    | .page input => source.tolerateScopeErrors = true → source.perScopeCursors = false →
        match input.reply with
        | .page items _ => ∀ entry ∈ items, entry.2.fails = false
        | .failed => False
        | .tooLarge => True
    | _ => True

/-- Unless something is pending or failed, only the scopes still to come can miss anything. -/
def DoneBut (run : Run ι) (scopes : List String) : Prop :=
  run.morePending = false → run.scopeError = false →
    ∀ scope ∉ scopes, ∀ item, ¬world.Missing source scope item

/-- What a run has done so far. -/
def PhaseDone (run : Run ι) : Prop :=
  match run.phase with
  | .scopes => world.DoneBut source run run.scopes
  | .pages pass => (source.perScopeCursors = false → pass.scopeFailed = false) ∧
      world.DoneBut source run (pass.scope :: run.scopes)
  | _ => True

structure RunDone (run : Run ι) : Prop where
  pending : world.outcome = none
  clean : source.perScopeCursors = false → run.scopeError = false
  phase : world.PhaseDone source run

structure Accounted : Prop extends world.Sound source where
  done : ∀ run ∈ world.run, world.RunDone source run
  complete : world.Complete source

end World

namespace World

variable {source} {world : World ι} {run : Run ι} {pass : Pass ι}

theorem complete_of_pending (h : world.outcome = none) : world.Complete source := by
  intro outcome houtcome
  rw [h] at houtcome
  cases houtcome

/-- A run that will only be finished. -/
theorem Sound.account_ended (h : world.Sound source) (hpending : world.outcome = none)
    (hrun : world.run = some run) (hclean : source.perScopeCursors = false → run.scopeError = false)
    (hphase : run.phase = .stopped ∨ run.phase = .failed) : world.Accounted source where
  toSound := h
  done := by
    intro run' hrun'
    rw [hrun] at hrun'
    obtain rfl := Option.some.inj hrun'
    refine ⟨hpending, hclean, ?_⟩
    unfold PhaseDone
    rcases hphase with heq | heq
    · rw [heq]
      trivial
    · rw [heq]
      trivial
  complete := complete_of_pending hpending

/-- A scope that ends with nothing missing in it, unless it failed or something is pending. -/
theorem account_endScope {saved : Bool} (h : (world.endScope source run pass saved).Sound source)
    (hpending : world.outcome = none) (hclean : source.perScopeCursors = false →
      run.scopeError = false ∧ pass.scopeFailed = false)
    (hothers : world.DoneBut source run (pass.scope :: run.scopes))
    (hdone : pass.scopeFailed = false → run.morePending = false →
      ∀ item, ¬world.Missing source pass.scope item) :
    (world.endScope source run pass saved).Accounted source := by
  obtain ⟨persisted, state, phase, hphase, heq⟩ := endScope_cases source world run pass saved
  rw [heq] at h ⊢
  refine ⟨h, ?_, complete_of_pending hpending⟩
  intro run' hrun'
  obtain rfl := Option.some.inj hrun'
  refine ⟨hpending, ?_, ?_⟩
  · intro hshared
    obtain ⟨herror, hfailed⟩ := hclean hshared
    dsimp only
    rw [herror, hfailed]
    rfl
  · unfold PhaseDone
    rcases hphase with rfl | rfl
    · intro hmore herror scope hscope item
      rw [Bool.or_eq_false_iff] at herror
      by_cases hthis : scope = pass.scope
      · rw [hthis]
        exact hdone herror.2 hmore item
      · refine hothers hmore herror.1 scope (fun hmem => ?_) item
        rcases List.mem_cons.mp hmem with heq' | hlater
        · exact hthis heq'
        · exact hscope hlater
    · trivial

namespace AtPage

variable {items : List (ι × ItemInput)} {progress : Progress ι} {flow : Flow}
  (h : AtPage source world run pass items progress flow)

include h

/-- A page leaves the scopes done before as they are. -/
theorem doneBut {scopes : List String} (hdone : world.DoneBut source run scopes) :
    (world.afterItems progress).DoneBut source (run.afterItems source progress) scopes := by
  intro hmore herror scope hscope item hmissing
  exact hdone hmore herror scope hscope item (hmissing.mono rfl rfl h.stored)

theorem clean (hclean : source.perScopeCursors = false → pass.scopeFailed = false)
    (hcareful : source.tolerateScopeErrors = true → source.perScopeCursors = false →
      ∀ entry ∈ items, entry.2.fails = false) (hshared : source.perScopeCursors = false) :
    progress.scopeFailed = false := by
  by_contra hfailed
  rcases h.reads.failed (Bool.not_eq_false _ ▸ hfailed) with hbefore | hnew
  · have hpass : pass.scopeFailed = true := hbefore
    rw [hclean hshared] at hpass
    cases hpass
  · obtain ⟨htolerate, entry, hentry, hfails⟩ := hnew
    rw [hcareful htolerate hshared entry hentry] at hfails
    cases hfails

theorem account_endPage (hover : flow = .next ∨ flow = .pageOver) {next : Bool} (saved : Bool)
    (hlast : next = false → pass.rest = items.map (·.1))
    (hstop : source.stopOnEmptyPending = true →
      (∀ item ∈ items.map (·.1), ∀ key ∈ source.dedupKey item, key ∈ run.state.syncedIds) →
        ∀ item ∈ pass.rest.drop items.length, ¬world.Missing source pass.scope item)
    (hpending : world.outcome = none) (hclean : source.perScopeCursors = false →
      run.scopeError = false ∧ progress.scopeFailed = false)
    (hothers : world.DoneBut source run (pass.scope :: run.scopes)) :
    ((world.afterItems progress).endPage source (run.afterItems source progress)
      (pass.afterItems source progress items.length) progress next saved).Accounted source := by
  have hsound := h.endPage hover saved hlast hstop
  rcases h.endPage_cases hover saved hlast hstop with hgo | ⟨more, hmore, hdone, hend⟩
  · rw [hgo] at hsound ⊢
    refine ⟨hsound, ?_, complete_of_pending hpending⟩
    intro run' hrun'
    obtain rfl := Option.some.inj hrun'
    refine ⟨hpending, fun hshared => (hclean hshared).1, fun hshared => (hclean hshared).2, ?_⟩
    exact h.doneBut hothers
  · rw [hend] at hsound ⊢
    refine account_endScope hsound hpending hclean ?_ fun hfailed hmore' => hdone hmore' hfailed
    intro hmore' herror
    exact h.doneBut hothers (hmore hmore') herror

end AtPage

/-- One turn of the loop over pages. -/
theorem Accounted.page (h : world.Accounted source) (hrun : world.run = some run)
    (hphase : run.phase = .pages pass) {input : PageInput ι}
    (hcontract : world.Contract source (.page input)) (hcareful : world.Careful source (.page input)) :
    (world.page source run pass input).Accounted source := by
  obtain ⟨hsteady, hnofail⟩ := hcareful
  have hpaged := h.toSound.page hrun hphase hcontract hsteady
  obtain ⟨hsound, hplace⟩ := h.running run hrun
  obtain ⟨hpending, hclean, hdone⟩ := h.done run hrun
  unfold PhaseSound at hplace
  unfold PhaseDone at hdone
  rw [hphase] at hplace hdone
  obtain ⟨hsame, hpass⟩ := hplace
  obtain ⟨hpassed, hothers⟩ := hdone
  unfold World.page at hpaged ⊢
  by_cases hexhausted : input.exhausted
  · rw [if_pos hexhausted] at hpaged ⊢
    exact hpaged.account_ended hpending rfl hclean (Or.inl rfl)
  rw [if_neg hexhausted] at hpaged ⊢
  cases hreply : input.reply with
  | failed =>
      rw [hreply] at hpaged
      dsimp only at hpaged ⊢
      by_cases htolerate : source.tolerateScopeErrors
      · rw [if_pos htolerate] at hpaged ⊢
        refine account_endScope hpaged hpending ?_ hothers nofun
        intro hshared
        have hfalse := hnofail htolerate hshared
        rw [hreply] at hfalse
        exact hfalse.elim
      · rw [if_neg htolerate] at hpaged ⊢
        exact hpaged.account_ended hpending rfl hclean (Or.inr rfl)
  | tooLarge =>
      rw [hreply] at hpaged
      exact hpaged.account_ended hpending rfl hclean (Or.inl rfl)
  | page items next =>
      rw [hreply] at hpaged
      obtain ⟨hpage, hlast⟩ := hcontract run hrun pass hphase items next hreply
      have hreads := readItems_reads source ⟨pass.scope, run.config.maxItems, run.depthFloor⟩ items
        (world.progress source run pass)
      dsimp only at hpaged ⊢
      generalize readItems source ⟨pass.scope, run.config.maxItems, run.depthFloor⟩
        (world.progress source run pass) items = read at hreads hpaged ⊢
      obtain ⟨progress, flow⟩ := read
      have hat : AtPage source world run pass items progress flow :=
        ⟨h.toBase, hsound, hsame, hpass, hpage, hreads⟩
      have hstop := fun hempty => hsteady hempty run hrun pass hphase items next hreply
      have hnone : source.tolerateScopeErrors = true → source.perScopeCursors = false →
          ∀ entry ∈ items, entry.2.fails = false := by
        intro htolerate hshared
        have hall := hnofail htolerate hshared
        rw [hreply] at hall
        exact hall
      have hkept (hshared : source.perScopeCursors = false) :
          run.scopeError = false ∧ progress.scopeFailed = false :=
        ⟨hclean hshared, hat.clean hpassed hnone hshared⟩
      cases flow with
      | next => exact hat.account_endPage (Or.inl rfl) input.saved hlast hstop hpending hkept hothers
      | pageOver => exact hat.account_endPage (Or.inr rfl) input.saved hlast hstop hpending hkept hothers
      | stopped => exact hpaged.account_ended hpending rfl hclean (Or.inl rfl)
      | failed => exact hpaged.account_ended hpending rfl hclean (Or.inr rfl)

theorem Accounted.start (h : world.Accounted source) (hidle : world.run = none) {config : Config}
    {exhausted : Bool} {scopes : Option (List String)}
    (hcareful : world.Careful source (.start config exhausted scopes)) :
    (world.start source config exhausted scopes).Accounted source := by
  have hsound := h.toSound.start hidle config exhausted scopes
  obtain ⟨hdone, hscopes⟩ := hcareful.2 (Option.isNone_iff_eq_none.mpr hidle)
  unfold World.start at hsound ⊢
  by_cases hexhausted : exhausted
  · rw [if_pos hexhausted] at hsound ⊢
    refine ⟨hsound, ?_, fun _ _ _ _ => hdone hexhausted⟩
    intro run hrun
    have hnone : world.run = some run := hrun
    rw [hidle] at hnone
    cases hnone
  · rw [if_neg hexhausted] at hsound ⊢
    refine ⟨hsound, ?_, complete_of_pending rfl⟩
    intro run hrun
    obtain rfl := Option.some.inj hrun
    refine ⟨rfl, fun _ => rfl, ?_⟩
    unfold PhaseDone
    cases scopes with
    | none => trivial
    | some ids => exact fun _ _ => hscopes ids rfl

theorem Accounted.openScope (h : world.Accounted source) (hrun : world.run = some run)
    (hphase : run.phase = .scopes) {listed : List ι}
    (hcontract : world.Contract source (.openScope listed)) :
    (world.openScope source run listed).Accounted source := by
  have hsound := h.toSound.openScope hrun hphase hcontract
  obtain ⟨hpending, hclean, hdone⟩ := h.done run hrun
  unfold PhaseDone at hdone
  rw [hphase] at hdone
  unfold World.openScope at hsound ⊢
  cases hscopes : run.scopes with
  | nil => exact h
  | cons scope scopes =>
      rw [hscopes] at hsound hdone
      dsimp only at hsound ⊢
      refine ⟨hsound, ?_, complete_of_pending hpending⟩
      intro run' hrun'
      obtain rfl := Option.some.inj hrun'
      refine ⟨hpending, hclean, fun _ => rfl, ?_⟩
      intro hmore herror other hother item hmissing
      have hne : other ≠ scope := by
        rintro rfl
        exact hother List.mem_cons_self
      refine hdone hmore herror other hother item (hmissing.mono rfl ?_ (List.Subset.refl _))
      exact Function.update_of_ne hne _ _

/-- Between runs there is nothing to account for but the last outcome. -/
theorem Sound.account_idle (h : world.Sound source) (hidle : world.run = none)
    (hcomplete : world.Complete source) : world.Accounted source where
  toSound := h
  done := by
    intro run hrun
    rw [hidle] at hrun
    cases hrun
  complete := hcomplete

/-- What a run returns. -/
theorem complete_finish {ok saved : Bool} (hdone : ok = true → run.morePending = false →
    run.scopeError = false → ∀ scope item, ¬world.Missing source scope item) :
    (world.finish source run ok saved).Complete source := by
  intro outcome houtcome
  unfold World.finish at houtcome
  dsimp only at houtcome
  split_ifs at houtcome with hok
  · obtain rfl := Option.some.inj houtcome
    rw [Bool.and_eq_true] at hok
    exact hdone hok.1
  · cases houtcome

theorem Accounted.step (h : world.Accounted source) {label : Label ι}
    (hcontract : world.Contract source label) (hcareful : world.Careful source label) :
    (world.step source label).Accounted source := by
  have hlast (run : Run ι) (hrun : world.run = some run) (hphase : run.phase = .scopes)
      (hscopes : run.scopes = []) (hmore : run.morePending = false) (herror : run.scopeError = false) :
      ∀ scope item, ¬world.Missing source scope item := by
    have hdone := (h.done run hrun).phase
    unfold PhaseDone at hdone
    rw [hphase] at hdone
    dsimp only at hdone
    rw [hscopes] at hdone
    exact fun scope => hdone hmore herror scope List.not_mem_nil
  have hsound := h.toSound.step hcontract hcareful.1 fun run hrun hphase hscopes hshared hmore =>
    hlast run hrun hphase hscopes hmore ((h.done run hrun).clean hshared)
  cases label with
  | arrive scope item =>
      refine hsound.account_idle ?_ (complete_of_pending rfl)
      exact Option.isNone_iff_eq_none.mp hcareful.1.1
  | start config exhausted scopes =>
      unfold World.step
      cases hrun : world.run with
      | none => exact h.start hrun hcareful
      | some run => exact h
  | openScope listed =>
      unfold World.step
      cases hrun : world.run with
      | none => exact h
      | some run =>
          dsimp only
          cases hphase : run.phase with
          | scopes => exact h.openScope hrun hphase hcontract
          | _ => exact h
  | page input =>
      unfold World.step
      cases hrun : world.run with
      | none => exact h
      | some run =>
          dsimp only
          cases hphase : run.phase with
          | pages pass => exact h.page hrun hphase hcontract hcareful
          | _ => exact h
  | finish saved =>
      unfold World.step at hsound ⊢
      cases hrun : world.run with
      | none => exact h
      | some run =>
          rw [hrun] at hsound
          dsimp only at hsound ⊢
          cases hphase : run.phase with
          | scopes =>
              rw [hphase] at hsound
              dsimp only at hsound ⊢
              by_cases hempty : run.scopes.isEmpty
              · rw [if_pos hempty] at hsound ⊢
                refine hsound.account_idle rfl (complete_finish fun _ => ?_)
                exact hlast run hrun hphase (List.isEmpty_iff.mp hempty)
              · rw [if_neg hempty]
                exact h
          | pages pass => exact h
          | stopped =>
              rw [hphase] at hsound
              have hplace := (h.running run hrun).2
              unfold PhaseSound at hplace
              rw [hphase] at hplace
              refine hsound.account_idle rfl (complete_finish fun _ hmore => ?_)
              rw [hplace] at hmore
              cases hmore
          | failed =>
              rw [hphase] at hsound
              exact hsound.account_idle rfl (complete_finish nofun)
  | crash => exact hsound.account_idle rfl (complete_of_pending rfl)

theorem accounted_start (source : Source ι) : (machine source).start.Accounted source :=
  (sound_start source).account_idle rfl (complete_of_pending rfl)

end World

/-- No run hides that something is missing, and no cursor keeps a later run from it. -/
theorem incremental_complete (source : Source ι) (labels : List (Label ι))
    (hlabels : (machine source).AllSteps
      (fun world label => world.Contract source label ∧ world.Careful source label) labels) :
    (machine source).Throughout (fun world => world.Complete source ∧ world.CursorSafe source) labels := by
  refine (machine source).throughout_of_steps (World.accounted_start source) ?_ ?_ hlabels
  · exact fun world label h hok => h.step hok.1 hok.2
  · intro world h
    exact ⟨h.complete, fun scope before item after heq hmissing => h.persisted.ahead heq hmissing⟩

end TinyCortex.Sync
