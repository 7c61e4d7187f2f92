import TinyCortex.Sync.Sound

/-! No cursor and no synced key skips an item that was not stored, as long as new items come in ahead of
the cursor under a key of their own, and no page stops a scope in front of a missing item. -/

namespace TinyCortex.Sync

variable {ι : Type} (source : Source ι)

namespace World

variable {source} {world : World ι} {run : Run ι} {pass : Pass ι}

/-- A run that will only be finished. -/
theorem Base.ended (h : world.Base source) (hrun : world.RunSound source run)
    (hphase : run.phase = .stopped ∧ run.morePending = true ∨ run.phase = .failed) :
    ({ world with run := some run } : World ι).Sound source where
  toBase := ⟨h.ordered, h.distinct, h.persisted, h.skipped⟩
  running := by
    intro run' hrun'
    obtain rfl := Option.some.inj hrun'
    refine ⟨⟨hrun.backed, hrun.server, hrun.floor⟩, ?_⟩
    unfold PhaseSound
    rcases hphase with ⟨heq, hpending⟩ | heq
    · rw [heq]
      exact hpending
    · rw [heq]
      trivial

theorem Base.stop (h : world.Base source) (hrun : world.RunSound source run) :
    (world.stop run).Sound source :=
  h.ended ⟨hrun.backed, hrun.server, hrun.floor⟩ (Or.inl ⟨rfl, rfl⟩)

theorem Base.fail (h : world.Base source) (hrun : world.RunSound source run) :
    ({ world with run := some { run with phase := .failed } } : World ι).Sound source :=
  h.ended ⟨hrun.backed, hrun.server, hrun.floor⟩ (Or.inr rfl)

/-- A run between two scopes. -/
theorem Base.between (h : world.Base source) (hrun : world.RunSound source run)
    (hsame : world.SameCursors source run) (hphase : run.phase = .scopes) :
    ({ world with run := some run } : World ι).Sound source where
  toBase := ⟨h.ordered, h.distinct, h.persisted, h.skipped⟩
  running := by
    intro run' hrun'
    obtain rfl := Option.some.inj hrun'
    refine ⟨⟨hrun.backed, hrun.server, hrun.floor⟩, ?_⟩
    unfold PhaseSound
    rw [hphase]
    exact hsame

section Commit

variable {state : SyncState} {scope cursor : String}

theorem cursorOf_advanceScopeCursor (hper : source.perScopeCursors = true) (other : String) :
    source.cursorOf (state.advanceScopeCursor scope cursor) other =
      if scope = other then some cursor else source.cursorOf state other := by
  unfold Source.cursorOf
  rw [if_pos hper, if_pos hper, SyncState.advanceScopeCursor, OrderedMap.get_insert]

/-- The cursor of a scope may move to anywhere once nothing is missing in it. -/
theorem backed_advanceScopeCursor {archive : Archive ι} (h : archive.Backed source state)
    (hper : source.perScopeCursors = true) (hdone : ∀ item, ¬archive.Missing source scope item) :
    archive.Backed source (state.advanceScopeCursor scope cursor) where
  synced := h.synced
  split := by
    intro other
    by_cases hother : scope = other
    · subst hother
      exact ⟨[], archive.listing scope, rfl, fun _ hitem => absurd hitem List.not_mem_nil,
        fun item _ => hdone item⟩
    · obtain ⟨fresh, old, heq, hfresh, hold⟩ := h.split other
      refine ⟨fresh, old, heq, fun item hitem => ?_, hold⟩
      unfold Ahead
      rw [cursorOf_advanceScopeCursor hper, if_neg hother]
      exact hfresh item hitem

/-- So may the one cursor once nothing is missing at all. -/
theorem backed_advanceCursor {archive : Archive ι} (h : archive.Backed source state)
    (hdone : ∀ scope item, ¬archive.Missing source scope item) :
    archive.Backed source (state.advanceCursor cursor) where
  synced := h.synced
  split := fun scope => ⟨[], archive.listing scope, rfl,
    fun _ hitem => absurd hitem List.not_mem_nil, fun item _ => hdone scope item⟩

end Commit

/-- A scope ends with nothing missing in it, unless it failed or something is pending. -/
theorem Base.endScope (h : world.Base source) (hrun : world.RunSound source run)
    (hsame : world.SameCursors source run) (pass : Pass ι)
    (hfloor : ∀ f ∈ run.depthFloor, world.window pass.scope = some f) (saved : Bool)
    (hdone : pass.scopeFailed = false → run.morePending = false →
      ∀ item, ¬world.Missing source pass.scope item) :
    (world.endScope source run pass saved).Sound source := by
  unfold World.endScope
  dsimp only
  by_cases hcommit : source.perScopeCursors && !pass.scopeFailed && !run.morePending
  · rw [if_pos hcommit]
    rw [Bool.and_eq_true, Bool.and_eq_true, Bool.not_eq_true', Bool.not_eq_true'] at hcommit
    obtain ⟨⟨hper, hfailed⟩, hpending⟩ := hcommit
    split
    · rename_i cursor hcursor
      have hback : world.Backed source (run.state.advanceScopeCursor pass.scope cursor) :=
        backed_advanceScopeCursor hrun.backed hper (hdone hfailed hpending)
      have hfloors : ∀ scope, ∀ f ∈ run.depthFloor,
          source.cursorOf (run.state.advanceScopeCursor pass.scope cursor) scope = none ∨
            world.window scope = some f := by
        intro scope f hf
        rw [cursorOf_advanceScopeCursor hper]
        by_cases hscope : pass.scope = scope
        · exact Or.inr (hscope ▸ hfloor f hf)
        · rw [if_neg hscope]
          exact hrun.floor scope f hf
      by_cases hsaved : saved
      · rw [if_pos hsaved]
        have hbase : ({ world with persisted := run.state.advanceScopeCursor pass.scope cursor } :
            World ι).Base source := ⟨h.ordered, h.distinct, hback, h.skipped⟩
        exact hbase.between ⟨hback, hrun.server, hfloors⟩ (fun _ => rfl) rfl
      · rw [if_neg hsaved]
        exact h.ended ⟨hback, hrun.server, hfloors⟩ (Or.inr rfl)
    · exact h.between ⟨hrun.backed, hrun.server, hrun.floor⟩ hsame rfl
  · rw [if_neg hcommit]
    exact h.between ⟨hrun.backed, hrun.server, hrun.floor⟩ hsame rfl

section Page

variable {items : List (ι × ItemInput)} {progress : Progress ι} {flow : Flow}

/-- The run before a page, and the page as the provider gives it. -/
structure AtPage (source : Source ι) (world : World ι) (run : Run ι) (pass : Pass ι)
    (items : List (ι × ItemInput)) (progress : Progress ι) (flow : Flow) : Prop where
  base : world.Base source
  running : world.RunSound source run
  same : world.SameCursors source run
  passing : world.PassSound source run pass
  page : items.map (·.1) <+: pass.rest
  reads : Reads source ⟨pass.scope, run.config.maxItems, run.depthFloor⟩
    (world.progress source run pass) items progress flow

namespace AtPage

variable (h : AtPage source world run pass items progress flow)

include h

theorem listed {item : ι} (hitem : item ∈ items.map (·.1)) : item ∈ world.listing pass.scope :=
  h.passing.rest.subset (h.page.subset hitem)

theorem cursorOf (scope : String) :
    source.cursorOf progress.state scope = source.cursorOf run.state scope := by
  unfold Source.cursorOf
  rw [h.reads.cursor, h.reads.scopeCursors]
  rfl

theorem stored : world.stored ⊆ (world.afterItems progress).stored := h.reads.stored

theorem backed : (world.afterItems progress).Backed source progress.state := by
  refine h.running.backed.mono rfl rfl h.stored h.cursorOf ?_
  intro key hkey
  rcases h.reads.syncedFrom key hkey with hold | hnew
  · exact Or.inl hold
  · obtain ⟨item, hitem, hdedup, hmem⟩ := hnew
    exact Or.inr ⟨pass.scope, item, h.listed hitem, hdedup, hmem⟩

theorem runSound : (world.afterItems progress).RunSound source (run.afterItems source progress) where
  backed := h.backed
  server := h.running.server
  floor := by
    intro scope f hf
    change source.cursorOf progress.state scope = none ∨ _
    rw [h.cursorOf]
    exact h.running.floor scope f hf

theorem baseAfter : (world.afterItems progress).Base source where
  ordered := h.base.ordered
  distinct := h.base.distinct
  persisted := h.base.persisted.mono rfl rfl h.stored (fun _ => rfl) fun _ hkey => Or.inl hkey
  skipped := by
    intro row hrow
    rcases h.reads.skipped row hrow with hold | hnew
    · exact h.reads.stored (h.base.skipped row hold)
    · obtain ⟨hscope, hitem, key, hkey, hdedup⟩ := hnew
      obtain ⟨scope, item, hlisted, hdedup', hstored⟩ := h.backed.synced key hkey
      obtain ⟨hscope', rfl⟩ := h.base.distinct pass.scope scope row.2 item (h.listed hitem) hlisted key
        hdedup hdedup'
      have heq : row = (scope, row.2) := Prod.ext (hscope.trans hscope') rfl
      rw [heq]
      exact hstored

theorem sameAfter : (world.afterItems progress).SameCursors source (run.afterItems source progress) := by
  intro scope
  change source.cursorOf progress.state scope = source.cursorOf world.persisted scope
  rw [h.cursorOf]
  exact h.same scope

theorem rest_eq : pass.rest = items.map (·.1) ++ pass.rest.drop items.length := by
  obtain ⟨rest, hrest⟩ := h.page
  rw [← hrest, List.drop_left' (List.length_map _)]

/-- What is still missing comes after the page, which ended without reaching a boundary. -/
theorem left (hover : flow = .next ∨ flow = .pageOver) (hfailed : progress.scopeFailed = false)
    {item : ι} (hmissing : (world.afterItems progress).Missing source pass.scope item) :
    item ∈ pass.rest.drop items.length ∧ progress.reachedCursorBoundary = false := by
  have hnot {other : ι} (hhandled : Handled source progress.state.syncedIds progress.stored pass.scope
      other) : ¬(world.afterItems progress).Missing source pass.scope other :=
    h.backed.not_missing h.base.distinct hhandled
  have hbefore : world.Missing source pass.scope item := hmissing.mono rfl rfl h.stored
  have hpassed : pass.scopeFailed = false := by
    by_contra hfailed'
    rw [h.reads.failedBefore (Bool.not_eq_false _ ▸ hfailed')] at hfailed
    cases hfailed
  have hrest := h.passing.left hpassed item hbefore
  have hboundary : progress.reachedCursorBoundary = false := by
    by_contra hreached
    rcases h.reads.boundary (Bool.not_eq_false _ ▸ hreached) with hfirst | hat
    · cases hfirst
    · obtain ⟨-, done, raw, more, heq, hdone, hboundary⟩ := hat
      have hsplit := h.rest_eq
      rw [heq, List.append_assoc, List.cons_append] at hsplit
      have hlisted := h.passing.rest
      rw [hsplit] at hrest hlisted
      rcases List.mem_append.mp hrest with hmem | hmem
      · exact hnot (hdone item hmem) hmissing
      · rcases hboundary with holder | hreached
        · exact h.base.ordered.not_missing_of_older hlisted h.passing.floor holder item hmem hbefore
        · refine h.running.backed.not_missing_of_reached hlisted ?_ item hmem hbefore
          unfold Ahead Source.cursorOf
          rw [if_neg (by rw [hreached.1]; exact nofun)]
          exact fun hahead => Bool.false_ne_true (hahead.symm.trans hreached.2)
  refine ⟨?_, hboundary⟩
  rw [h.rest_eq] at hrest
  rcases List.mem_append.mp hrest with hmem | hmem
  · have hnext : flow = .next := by
      rcases hover with rfl | rfl
      · rfl
      · rcases h.reads.passed rfl with hfail | hreached
        · rw [hfail] at hfailed
          cases hfailed
        · rw [hreached] at hboundary
          cases hboundary
    exact absurd hmissing (hnot (h.reads.handled hnext item hmem))
  · exact hmem

/-- The pages go on, or the scope ends: with nothing missing in it, or with something pending. -/
theorem endPage_cases (hover : flow = .next ∨ flow = .pageOver) {next : Bool} (saved : Bool)
    (hlast : next = false → pass.rest = items.map (·.1))
    (hstop : source.stopOnEmptyPending = true →
      (∀ item ∈ items.map (·.1), ∀ key ∈ source.dedupKey item, key ∈ run.state.syncedIds) →
        ∀ item ∈ pass.rest.drop items.length, ¬world.Missing source pass.scope item) :
    (world.afterItems progress).endPage source (run.afterItems source progress)
        (pass.afterItems source progress items.length) progress next saved =
      { world.afterItems progress with
        run := some { run.afterItems source progress with
          phase := .pages { pass.afterItems source progress items.length with
            pageIndex := pass.pageIndex + 1 } } } ∨
    ∃ more, (more = false → run.morePending = false) ∧
      (more = false → progress.scopeFailed = false →
        ∀ item, ¬(world.afterItems progress).Missing source pass.scope item) ∧
      (world.afterItems progress).endPage source (run.afterItems source progress)
          (pass.afterItems source progress items.length) progress next saved =
        (world.afterItems progress).endScope source
          { run.afterItems source progress with morePending := more }
          (pass.afterItems source progress items.length) saved := by
  unfold World.endPage
  by_cases hempty : source.stopOnEmptyPending && !progress.sawUnsyncedItem
  · rw [if_pos hempty]
    rw [Bool.and_eq_true, Bool.not_eq_true'] at hempty
    obtain ⟨-, -, hnot⟩ := h.reads.unseen hempty.2
    have hnext : flow = .next := hover.resolve_right hnot
    refine Or.inr ⟨run.morePending, id, fun _ hfailed item hmissing => ?_, rfl⟩
    exact hstop hempty.1 (h.reads.unseenSynced hempty.2 hnext) item (h.left hover hfailed hmissing).1
      (hmissing.mono rfl rfl h.stored)
  rw [if_neg hempty]
  by_cases hreached : progress.reachedCursorBoundary
  · rw [if_pos hreached]
    refine Or.inr ⟨run.morePending, id, fun _ hfailed item hmissing => ?_, rfl⟩
    rw [(h.left hover hfailed hmissing).2] at hreached
    cases hreached
  rw [if_neg hreached]
  by_cases hnext : !next
  · rw [if_pos hnext]
    rw [Bool.not_eq_true'] at hnext
    refine Or.inr ⟨run.morePending, id, fun _ hfailed item hmissing => ?_, rfl⟩
    have hrest := (h.left hover hfailed hmissing).1
    rw [hlast hnext, List.drop_of_length_le (List.length_map _).le] at hrest
    cases hrest
  rw [if_neg hnext]
  by_cases hlimit : (pass.afterItems source progress items.length).pageIndex + 1 = max source.maxPages 1
  · rw [if_pos hlimit]
    exact Or.inr ⟨true, nofun, nofun, rfl⟩
  · rw [if_neg hlimit]
    exact Or.inl rfl

theorem endPage (hover : flow = .next ∨ flow = .pageOver) {next : Bool} (saved : Bool)
    (hlast : next = false → pass.rest = items.map (·.1))
    (hstop : source.stopOnEmptyPending = true →
      (∀ item ∈ items.map (·.1), ∀ key ∈ source.dedupKey item, key ∈ run.state.syncedIds) →
        ∀ item ∈ pass.rest.drop items.length, ¬world.Missing source pass.scope item) :
    ((world.afterItems progress).endPage source (run.afterItems source progress)
      (pass.afterItems source progress items.length) progress next saved).Sound source := by
  rcases h.endPage_cases hover saved hlast hstop with hgo | ⟨more, -, hdone, hend⟩
  · rw [hgo]
    refine ⟨⟨h.baseAfter.ordered, h.baseAfter.distinct, h.baseAfter.persisted, h.baseAfter.skipped⟩, ?_⟩
    intro run' hrun'
    obtain rfl := Option.some.inj hrun'
    refine ⟨⟨h.backed, h.running.server, h.runSound.floor⟩, h.sameAfter, ?_⟩
    constructor
    case rest => exact (List.drop_sublist _ _).trans h.passing.rest
    case left => exact fun hfailed item hmissing => (h.left hover hfailed hmissing).1
    case floor => exact h.passing.floor
  · rw [hend]
    have hrun : (world.afterItems progress).RunSound source
        { run.afterItems source progress with morePending := more } :=
      ⟨h.backed, h.running.server, h.runSound.floor⟩
    exact h.baseAfter.endScope hrun h.sameAfter (pass.afterItems source progress items.length)
      h.passing.floor saved fun hfailed hmore => hdone hmore hfailed

end AtPage

/-- One turn of the loop over pages. -/
theorem Sound.page (h : world.Sound source) (hrun : world.run = some run) (hphase : run.phase = .pages pass)
    {input : PageInput ι} (hcontract : world.Contract source (.page input))
    (hsteady : world.Steady source (.page input)) : (world.page source run pass input).Sound source := by
  obtain ⟨hsound, hplace⟩ := h.running run hrun
  unfold PhaseSound at hplace
  rw [hphase] at hplace
  obtain ⟨hsame, hpass⟩ := hplace
  unfold World.page
  by_cases hexhausted : input.exhausted
  · rw [if_pos hexhausted]
    exact h.toBase.stop hsound
  rw [if_neg hexhausted]
  cases hreply : input.reply with
  | failed =>
      dsimp only
      by_cases htolerate : source.tolerateScopeErrors
      · rw [if_pos htolerate]
        exact h.toBase.endScope hsound hsame { pass with scopeFailed := true } hpass.floor input.saved
          nofun
      · rw [if_neg htolerate]
        exact h.toBase.fail hsound
  | tooLarge => exact h.toBase.stop hsound
  | page items next =>
      obtain ⟨hpage, hlast⟩ := hcontract run hrun pass hphase items next hreply
      have hreads := readItems_reads source ⟨pass.scope, run.config.maxItems, run.depthFloor⟩ items
        (world.progress source run pass)
      dsimp only
      generalize readItems source ⟨pass.scope, run.config.maxItems, run.depthFloor⟩
        (world.progress source run pass) items = read at hreads ⊢
      obtain ⟨progress, flow⟩ := read
      have hat : AtPage source world run pass items progress flow :=
        ⟨h.toBase, hsound, hsame, hpass, hpage, hreads⟩
      have hstop := fun hempty => hsteady hempty run hrun pass hphase items next hreply
      cases flow with
      | next => exact hat.endPage (Or.inl rfl) input.saved hlast hstop
      | pageOver => exact hat.endPage (Or.inr rfl) input.saved hlast hstop
      | stopped => exact hat.baseAfter.stop hat.runSound
      | failed => exact hat.baseAfter.fail hat.runSound

end Page

theorem ahead_of_none {state : SyncState} {scope : String} {item : ι}
    (h : source.cursorOf state scope = none) : Ahead source state scope item := by
  unfold Ahead reached
  rw [h]
  split
  · rename_i hnone
    cases hnone
  · rfl

/-- A new window for a scope without a cursor. -/
theorem backed_window {archive : Archive ι} {state : SyncState} (h : archive.Backed source state)
    {scope : String} (hnone : source.cursorOf state scope = none) (window : Option String) :
    ({ archive with window := Function.update archive.window scope window } : Archive ι).Backed source
      state where
  synced := h.synced
  split := by
    intro other
    by_cases hother : other = scope
    · subst hother
      exact ⟨archive.listing other, [], (List.append_nil _).symm, fun _ _ => ahead_of_none hnone,
        fun _ hitem => absurd hitem List.not_mem_nil⟩
    · obtain ⟨fresh, old, heq, hfresh, hold⟩ := h.split other
      refine ⟨fresh, old, heq, hfresh, fun item hitem hmissing => hold item hitem ?_⟩
      exact hmissing.mono rfl (Function.update_of_ne hother _ _) (List.Subset.refl _)

theorem Sound.openScope (h : world.Sound source) (hrun : world.run = some run)
    (hphase : run.phase = .scopes) {listed : List ι}
    (hcontract : world.Contract source (.openScope listed)) :
    (world.openScope source run listed).Sound source := by
  obtain ⟨hsound, hsame⟩ := h.running run hrun
  unfold PhaseSound at hsame
  rw [hphase] at hsame
  unfold World.openScope
  cases hscopes : run.scopes with
  | nil => exact h
  | cons scope scopes =>
      dsimp only
      obtain ⟨hlisted, hall⟩ := hcontract run hrun scope (by rw [hscopes]; rfl)
      have hbacked (state : SyncState) (hstate : world.Backed source state)
          (hcursor : source.cursorOf state scope = source.cursorOf run.state scope) :
          ({ world with window := Function.update world.window scope (world.windowOf source run scope) } :
            World ι).Backed source state := by
        by_cases hsome : (source.cursorOf run.state scope).isSome
        · unfold windowOf
          rw [if_pos hsome, Function.update_eq_self]
          exact hstate
        · exact backed_window hstate (hcursor.trans (Option.not_isSome_iff_eq_none.mp hsome)) _
      have hfloor (f : String) (hf : f ∈ run.depthFloor) :
          world.windowOf source run scope = some f := by
        unfold windowOf
        split_ifs with hsome
        · refine (hsound.floor scope f hf).resolve_left fun hnone => ?_
          rw [hnone] at hsome
          cases hsome
        · unfold Source.floorOf
          split_ifs with hserver
          · rw [hsound.server hserver] at hf
            cases hf
          · exact hf
      have hback := hbacked run.state hsound.backed rfl
      refine ⟨⟨h.ordered, h.distinct, hbacked world.persisted h.persisted (hsame scope).symm, h.skipped⟩,
        ?_⟩
      intro run' hrun'
      obtain rfl := Option.some.inj hrun'
      refine ⟨⟨hback, hsound.server, ?_⟩, hsame, ?_⟩
      · intro other f hf
        by_cases hother : other = scope
        · right
          rw [hother]
          exact (Function.update_self _ _ _).trans (hfloor f hf)
        · refine (hsound.floor other f hf).imp_right fun hwindow => ?_
          exact (Function.update_of_ne hother _ _).trans hwindow
      · constructor
        case rest => exact hlisted
        case left =>
          intro _ item hmissing
          obtain ⟨fresh, old, heq, hfresh, hold⟩ := hback.split scope
          have hitem : item ∈ fresh ++ old := heq ▸ hmissing.listed
          have hnew : item ∈ fresh :=
            (List.mem_append.mp hitem).resolve_right fun hmem => hold item hmem hmissing
          refine hall item hmissing.listed (hfresh item hnew) ?_
          have hwindow : InWindow (Function.update world.window scope
            (world.windowOf source run scope) scope) (source.sortCursor item) := hmissing.inWindow
          rw [Function.update_self] at hwindow
          exact hwindow
        case floor =>
          intro f hf
          exact (Function.update_self _ _ _).trans (hfloor f hf)

theorem Sound.arrive (h : world.Sound source) {scope : String} {item : ι}
    (hcontract : world.Contract source (.arrive scope item))
    (hsteady : world.Steady source (.arrive scope item)) :
    (world.step source (.arrive scope item)).Sound source := by
  obtain ⟨hidle, hahead, hkeys⟩ := hsteady
  have hlisting (other : String) : Function.update world.listing scope (item :: world.listing scope) other =
      if other = scope then item :: world.listing scope else world.listing other := by
    rw [Function.update_apply]
  have hmem {other : String} {x : ι}
      (hx : x ∈ Function.update world.listing scope (item :: world.listing scope) other) :
      other = scope ∧ x = item ∨ x ∈ world.listing other := by
    rw [hlisting] at hx
    split_ifs at hx with hother
    · rcases List.mem_cons.mp hx with rfl | hold
      · exact Or.inl ⟨hother, rfl⟩
      · exact Or.inr (hother ▸ hold)
    · exact Or.inr hx
  have hold {other : String} {x : ι} (hx : x ∈ world.listing other) :
      x ∈ Function.update world.listing scope (item :: world.listing scope) other := by
    rw [hlisting]
    split_ifs with hother
    · exact List.mem_cons_of_mem _ (hother ▸ hx)
    · exact hx
  refine ⟨⟨?_, ?_, ⟨?_, ?_⟩, h.skipped⟩, ?_⟩
  · intro other
    change List.Pairwise _ (Function.update world.listing scope (item :: world.listing scope) other)
    rw [hlisting]
    split_ifs
    · exact List.pairwise_cons.mpr ⟨hcontract, h.ordered scope⟩
    · exact h.ordered other
  · intro s s' x x' hx hx' key hkey hkey'
    rcases hmem hx with ⟨hs, hxi⟩ | hxold
    · rcases hmem hx' with ⟨hs', hxi'⟩ | hxold'
      · exact ⟨hs.trans hs'.symm, hxi.trans hxi'.symm⟩
      · exact absurd hkey' (hkeys key (hxi ▸ hkey) s' x' hxold')
    · rcases hmem hx' with ⟨-, hxi'⟩ | hxold'
      · exact absurd hkey (hkeys key (hxi' ▸ hkey') s x hxold)
      · exact h.distinct s s' x x' hxold hxold' key hkey hkey'
  · intro key hkey
    obtain ⟨s, x, hx, hdedup, hstored⟩ := h.persisted.synced key hkey
    exact ⟨s, x, hold hx, hdedup, hstored⟩
  · intro other
    obtain ⟨fresh, old, heq, hfresh, hstored⟩ := h.persisted.split other
    have hstill (x : ι) (hx : x ∈ old) :
        ¬(world.step source (.arrive scope item)).Missing source other x := by
      intro hmissing
      refine hstored x hx ⟨?_, hmissing.keyed, hmissing.inWindow, hmissing.unstored⟩
      rw [heq]
      exact List.mem_append_right _ hx
    by_cases hother : other = scope
    · subst hother
      refine ⟨item :: fresh, old, ?_, ?_, hstill⟩
      · change Function.update world.listing other (item :: world.listing other) other = _
        rw [Function.update_self, heq, List.cons_append]
      · intro x hx
        rcases List.mem_cons.mp hx with rfl | hx
        · exact hahead
        · exact hfresh x hx
    · refine ⟨fresh, old, ?_, hfresh, hstill⟩
      change Function.update world.listing scope (item :: world.listing scope) other = _
      rw [Function.update_of_ne hother, heq]
  · intro run hrun
    rw [Option.isNone_iff_eq_none] at hidle
    have hnone : world.run = some run := hrun
    rw [hidle] at hnone
    cases hnone

theorem Sound.start (h : world.Sound source) (hidle : world.run = none) (config : Config)
    (exhausted : Bool) (scopes : Option (List String)) :
    (world.start source config exhausted scopes).Sound source := by
  have hbase : world.Base source := h.toBase
  unfold World.start
  by_cases hexhausted : exhausted
  · rw [if_pos hexhausted]
    refine ⟨⟨h.ordered, h.distinct, h.persisted, h.skipped⟩, ?_⟩
    intro run hrun
    have hnone : world.run = some run := hrun
    rw [hidle] at hnone
    cases hnone
  · rw [if_neg hexhausted]
    refine ⟨⟨h.ordered, h.distinct, h.persisted, h.skipped⟩, ?_⟩
    intro run hrun
    obtain rfl := Option.some.inj hrun
    refine ⟨⟨h.persisted, ?_, ?_⟩, ?_⟩
    · intro hserver
      dsimp only [Source.depthFloor]
      rw [hserver]
      rfl
    · intro scope f hf
      left
      dsimp only [Source.depthFloor] at hf
      split_ifs at hf with hcursor
      · cases hf
      · rw [Bool.or_eq_true, not_or, SyncState.hasCursor, Bool.or_eq_true, not_or] at hcursor
        obtain ⟨-, hone, hmany⟩ := hcursor
        unfold Source.cursorOf
        dsimp only
        split_ifs
        · rw [Bool.not_eq_true', Bool.not_eq_false, List.isEmpty_iff] at hmany
          rw [hmany]
          rfl
        · exact Option.not_isSome_iff_eq_none.mp hone
    · unfold PhaseSound
      dsimp only
      cases scopes with
      | none => trivial
      | some ids => exact fun _ => rfl

theorem Base.finish (h : world.Base source) (hrun : world.RunSound source run) (ok saved : Bool)
    (hdone : ok = true → source.perScopeCursors = false → run.morePending = false →
      ∀ scope item, ¬world.Missing source scope item) :
    (world.finish source run ok saved).Sound source := by
  have hstate : world.Backed source
      (if ok && !source.perScopeCursors && !run.morePending then
        (run.newestCursor.map run.state.advanceCursor).getD run.state
      else run.state) := by
    split_ifs with hcommit
    · rw [Bool.and_eq_true, Bool.and_eq_true, Bool.not_eq_true', Bool.not_eq_true'] at hcommit
      cases run.newestCursor with
      | none => exact hrun.backed
      | some cursor => exact backed_advanceCursor hrun.backed (hdone hcommit.1.1 hcommit.1.2 hcommit.2)
    · exact hrun.backed
  unfold World.finish
  refine ⟨⟨h.ordered, h.distinct, ?_, h.skipped⟩, fun run hrun => absurd hrun (Option.not_mem_none run)⟩
  dsimp only
  by_cases hsaved : saved
  · rw [if_pos hsaved]
    exact hstate
  · rw [if_neg hsaved]
    exact h.persisted

/-- Every step keeps it, provided the one cursor is committed with nothing missing. -/
theorem Sound.step (h : world.Sound source) {label : Label ι} (hcontract : world.Contract source label)
    (hsteady : world.Steady source label)
    (hcommit : ∀ run ∈ world.run, run.phase = .scopes → run.scopes = [] →
      source.perScopeCursors = false → run.morePending = false →
        ∀ scope item, ¬world.Missing source scope item) :
    (world.step source label).Sound source := by
  cases label with
  | arrive scope item => exact h.arrive hcontract hsteady
  | start config exhausted scopes =>
      unfold World.step
      cases hrun : world.run with
      | none => exact h.start hrun config exhausted scopes
      | some run => exact h
  | openScope listed =>
      unfold World.step
      cases hrun : world.run with
      | none => exact h
      | some run =>
          dsimp only
          cases hphase : run.phase with
          | scopes => exact h.openScope hrun hphase hcontract
          | _ => exact h
  | page input =>
      unfold World.step
      cases hrun : world.run with
      | none => exact h
      | some run =>
          dsimp only
          cases hphase : run.phase with
          | pages pass => exact h.page hrun hphase hcontract hsteady
          | _ => exact h
  | finish saved =>
      unfold World.step
      cases hrun : world.run with
      | none => exact h
      | some run =>
          obtain ⟨hsound, hplace⟩ := h.running run hrun
          dsimp only
          cases hphase : run.phase with
          | scopes =>
              dsimp only
              split_ifs with hempty
              · refine h.toBase.finish hsound true saved fun _ hshared hpending => ?_
                exact hcommit run hrun hphase (List.isEmpty_iff.mp hempty) hshared hpending
              · exact h
          | pages pass => exact h
          | stopped =>
              unfold PhaseSound at hplace
              rw [hphase] at hplace
              refine h.toBase.finish hsound true saved fun _ _ hpending => ?_
              rw [hplace] at hpending
              cases hpending
          | failed => exact h.toBase.finish hsound false saved nofun
  | crash =>
      exact ⟨⟨h.ordered, h.distinct, h.persisted, h.skipped⟩,
        fun run hrun => absurd hrun (Option.not_mem_none run)⟩

theorem sound_start (source : Source ι) : (machine source).start.Sound source := by
  refine ⟨⟨fun _ => List.Pairwise.nil, ?_, ⟨?_, ?_⟩, ?_⟩, ?_⟩
  · exact fun _ _ _ _ hitem => absurd hitem List.not_mem_nil
  · exact fun _ hkey => absurd hkey List.not_mem_nil
  · intro scope
    exact ⟨[], [], rfl, fun _ hitem => absurd hitem List.not_mem_nil,
      fun _ hitem => absurd hitem List.not_mem_nil⟩
  · exact fun _ hrow => absurd hrow List.not_mem_nil
  · exact fun run hrun => absurd hrun (Option.not_mem_none run)

end World

end TinyCortex.Sync
