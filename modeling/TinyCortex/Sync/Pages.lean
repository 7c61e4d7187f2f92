import TinyCortex.Sync.Orchestrator

/-! What reading a page does: which items are stored or taken for synced, and why the reading ends. -/

namespace TinyCortex.Sync

variable {ι : Type} {source : Source ι} {limits : Limits} {progress progress' : Progress ι} {raw : ι}
  {input : ItemInput} {items : List (ι × ItemInput)} {flow : Flow}

/-- Nothing is left to do about an item: it has no key, its key counts as synced, or it is stored. -/
def Handled (source : Source ι) (syncedIds : List String) (stored : List (String × ι)) (scope : String)
    (raw : ι) : Prop :=
  ∀ key ∈ source.dedupKey raw, key ∈ syncedIds ∨ (scope, raw) ∈ stored

theorem Handled.mono {syncedIds syncedIds' : List String} {stored stored' : List (String × ι)}
    {scope : String} (h : Handled source syncedIds stored scope raw) (hsynced : syncedIds ⊆ syncedIds')
    (hstored : stored ⊆ stored') : Handled source syncedIds' stored' scope raw :=
  fun key hkey => (h key hkey).imp (@hsynced key) (@hstored _)

/-- The reading stops at the item, for all that come after it are out of the window or long stored. -/
def AtBoundary (source : Source ι) (limits : Limits) (cursor : Option String) (raw : ι) : Prop :=
  older limits.depthFloor (source.sortCursor raw) ∨
    source.perScopeCursors = false ∧ reached cursor (source.sortCursor raw)

/-- What can happen to one item. -/
inductive ReadsItem (source : Source ι) (limits : Limits) (progress : Progress ι) (raw : ι)
    (input : ItemInput) : Progress ι × Flow → Prop
  | stopped : ReadsItem source limits progress raw input (progress, .stopped)
  | keyless (hkey : source.dedupKey raw = none) :
      ReadsItem source limits progress raw input (progress, .next)
  | synced (key : String) (hkey : source.dedupKey raw = some key)
      (hsynced : key ∈ progress.state.syncedIds) :
      ReadsItem source limits progress raw input
        ({ progress with skipped := progress.skipped ++ [(limits.scope, raw)] }, .next)
  | boundary (hboundary : AtBoundary source limits progress.state.cursor raw) :
      ReadsItem source limits progress raw input
        ({ progress with sawUnsyncedItem := true, reachedCursorBoundary := true }, .pageOver)
  | tolerated (hfails : input.fails = true) (htolerate : source.tolerateScopeErrors = true) :
      ReadsItem source limits progress raw input
        ({ progress with sawUnsyncedItem := true, scopeFailed := true }, .pageOver)
  | failed :
      ReadsItem source limits progress raw input ({ progress with sawUnsyncedItem := true }, .failed)
  | kept (key : String) (flow : Flow) (hkey : source.dedupKey raw = some key)
      (hflow : flow = .next ∨ flow = .stopped) :
      ReadsItem source limits progress raw input
        (keep source limits { progress with sawUnsyncedItem := true } raw key, flow)

theorem readItem_cases (source : Source ι) (limits : Limits) (progress : Progress ι) (raw : ι)
    (input : ItemInput) :
    ReadsItem source limits progress raw input (readItem source limits progress raw input) := by
  unfold readItem
  by_cases hfull : limits.full progress.ingested
  · rw [if_pos hfull]
    exact .stopped
  rw [if_neg hfull]
  by_cases hexhausted : input.exhausted
  · rw [if_pos hexhausted]
    exact .stopped
  rw [if_neg hexhausted]
  cases hkey : source.dedupKey raw with
  | none => exact .keyless hkey
  | some key =>
      dsimp only
      by_cases hsynced : progress.state.isSynced key
      · rw [if_pos hsynced]
        exact .synced key hkey (of_decide_eq_true hsynced)
      rw [if_neg hsynced]
      by_cases hold : older limits.depthFloor (source.sortCursor raw)
      · rw [if_pos hold]
        exact .boundary (Or.inl hold)
      rw [if_neg hold]
      by_cases hreached : !source.perScopeCursors && reached progress.state.cursor (source.sortCursor raw)
      · rw [if_pos hreached]
        rw [Bool.and_eq_true, Bool.not_eq_true'] at hreached
        exact .boundary (Or.inr hreached)
      rw [if_neg hreached]
      by_cases hfails : input.fails
      · rw [if_pos hfails]
        by_cases htolerate : source.tolerateScopeErrors
        · rw [if_pos htolerate]
          exact .tolerated hfails htolerate
        · rw [if_neg htolerate]
          exact .failed
      · rw [if_neg hfails]
        apply ReadsItem.kept key _ hkey
        split_ifs
        · exact Or.inr rfl
        · exact Or.inl rfl

/-- What reading some items does. -/
structure Reads (source : Source ι) (limits : Limits) (progress : Progress ι)
    (items : List (ι × ItemInput)) (progress' : Progress ι) (flow : Flow) : Prop where
  cursor : progress'.state.cursor = progress.state.cursor
  scopeCursors : progress'.state.scopeCursors = progress.state.scopeCursors
  stored : progress.stored ⊆ progress'.stored
  synced : progress.state.syncedIds ⊆ progress'.state.syncedIds
  syncedFrom : ∀ key ∈ progress'.state.syncedIds, key ∈ progress.state.syncedIds ∨
    ∃ raw ∈ items.map (·.1), source.dedupKey raw = some key ∧ (limits.scope, raw) ∈ progress'.stored
  skipped : ∀ row ∈ progress'.skipped, row ∈ progress.skipped ∨
    row.1 = limits.scope ∧ row.2 ∈ items.map (·.1) ∧
      ∃ key ∈ progress'.state.syncedIds, source.dedupKey row.2 = some key
  handled : flow = .next →
    ∀ raw ∈ items.map (·.1), Handled source progress'.state.syncedIds progress'.stored limits.scope raw
  passed : flow = .pageOver → progress'.scopeFailed = true ∨ progress'.reachedCursorBoundary = true
  boundary : progress'.reachedCursorBoundary = true → progress.reachedCursorBoundary = true ∨
    flow = .pageOver ∧ ∃ done raw rest, items.map (·.1) = done ++ raw :: rest ∧
      (∀ r ∈ done, Handled source progress'.state.syncedIds progress'.stored limits.scope r) ∧
        AtBoundary source limits progress.state.cursor raw
  unseen : progress'.sawUnsyncedItem = false →
    progress'.state = progress.state ∧ progress.sawUnsyncedItem = false ∧ flow ≠ .pageOver
  unseenSynced : progress'.sawUnsyncedItem = false → flow = .next →
    ∀ raw ∈ items.map (·.1), ∀ key ∈ source.dedupKey raw, key ∈ progress.state.syncedIds
  failedBefore : progress.scopeFailed = true → progress'.scopeFailed = true
  failed : progress'.scopeFailed = true → progress.scopeFailed = true ∨
    source.tolerateScopeErrors = true ∧ ∃ entry ∈ items, entry.2.fails = true

theorem mem_keep {key other : String} (h : other ∈ (keep source limits progress raw key).state.syncedIds) :
    other ∈ progress.state.syncedIds ∨ other = key := by
  rw [keep] at h
  dsimp only at h
  split_ifs at h
  · rw [SyncState.markSynced, List.mem_append, List.mem_singleton] at h
    exact h
  · exact Or.inl h

theorem synced_subset_keep (source : Source ι) (limits : Limits) (progress : Progress ι) (raw : ι)
    (key : String) :
    progress.state.syncedIds ⊆ (keep source limits progress raw key).state.syncedIds := by
  intro other h
  rw [keep]
  dsimp only
  split_ifs
  · exact List.mem_append_left _ h
  · exact h

theorem cursors_keep {key : String} :
    (keep source limits progress raw key).state.cursor = progress.state.cursor ∧
      (keep source limits progress raw key).state.scopeCursors = progress.state.scopeCursors := by
  rw [keep]
  dsimp only
  split_ifs
  · exact ⟨rfl, rfl⟩
  · exact ⟨rfl, rfl⟩

/-- Reading nothing. -/
theorem Reads.refl (source : Source ι) (limits : Limits) (progress : Progress ι) {flow : Flow}
    (hflow : flow ≠ .pageOver) : Reads source limits progress [] progress flow where
  cursor := rfl
  scopeCursors := rfl
  stored := List.Subset.refl _
  synced := List.Subset.refl _
  syncedFrom := fun _ h => Or.inl h
  skipped := fun _ h => Or.inl h
  handled := fun _ _ h => absurd h List.not_mem_nil
  passed := fun h => absurd h hflow
  boundary := fun h => Or.inl h
  unseen := fun h => ⟨rfl, h, hflow⟩
  unseenSynced := fun _ _ _ h => absurd h List.not_mem_nil
  failedBefore := id
  failed := fun h => Or.inl h

/-- The first item, and the reading may end with it. -/
theorem ReadsItem.reads (h : ReadsItem source limits progress raw input (progress', flow))
    (hitems : flow = .next → items = []) :
    Reads source limits progress ((raw, input) :: items) progress' flow := by
  cases h with
  | stopped => constructor <;> simp_all
  | keyless hkey => constructor <;> simp_all [Handled]
  | synced key hkey hsynced =>
      constructor
      case skipped =>
        intro row hrow
        rcases List.mem_append.mp hrow with hold | hnew
        · exact Or.inl hold
        · rw [List.mem_singleton.mp hnew]
          exact Or.inr ⟨rfl, List.mem_cons_self, key, hsynced, hkey⟩
      all_goals simp_all [Handled]
  | boundary hboundary =>
      constructor
      case boundary =>
        exact fun _ => Or.inr ⟨rfl, [], raw, items.map (·.1), rfl,
          fun _ h => absurd h List.not_mem_nil, hboundary⟩
      all_goals simp_all
  | tolerated hfails htolerate => constructor <;> simp_all
  | failed => constructor <;> simp_all
  | kept key flow hkey hflow =>
      have hstored : (limits.scope, raw) ∈
          (keep source limits { progress with sawUnsyncedItem := true } raw key).stored :=
        List.mem_append_right _ (List.mem_singleton.mpr rfl)
      constructor
      case cursor => exact cursors_keep.1
      case scopeCursors => exact cursors_keep.2
      case stored => exact List.subset_append_left _ _
      case synced => exact synced_subset_keep source limits { progress with sawUnsyncedItem := true } raw key
      case syncedFrom =>
        intro other hother
        rcases mem_keep hother with hold | rfl
        · exact Or.inl hold
        · exact Or.inr ⟨raw, List.mem_cons_self, hkey, hstored⟩
      case skipped => exact fun _ hrow => Or.inl hrow
      case handled =>
        intro hnext other hother
        rw [hitems hnext] at hother
        rw [List.mem_singleton.mp hother]
        exact fun _ _ => Or.inr hstored
      case passed =>
        intro hover
        rcases hflow with rfl | rfl <;> cases hover
      case boundary => exact fun hreached => Or.inl hreached
      case unseen => exact nofun
      case unseenSynced => exact nofun
      case failedBefore => exact id
      case failed => exact fun hfailed => Or.inl hfailed

/-- One item after the other. -/
theorem Reads.trans {first : List (ι × ItemInput)} {middle : Progress ι}
    (h : Reads source limits progress first middle .next)
    (h' : Reads source limits middle items progress' flow) :
    Reads source limits progress (first ++ items) progress' flow where
  cursor := h'.cursor.trans h.cursor
  scopeCursors := h'.scopeCursors.trans h.scopeCursors
  stored := List.Subset.trans h.stored h'.stored
  synced := List.Subset.trans h.synced h'.synced
  syncedFrom := by
    intro key hkey
    rw [List.map_append]
    rcases h'.syncedFrom key hkey with hmiddle | hnew
    · rcases h.syncedFrom key hmiddle with hold | hfirst
      · exact Or.inl hold
      · obtain ⟨raw, hraw, hdedup, hstored⟩ := hfirst
        exact Or.inr ⟨raw, List.mem_append_left _ hraw, hdedup, h'.stored hstored⟩
    · obtain ⟨raw, hraw, hdedup, hstored⟩ := hnew
      exact Or.inr ⟨raw, List.mem_append_right _ hraw, hdedup, hstored⟩
  skipped := by
    intro row hrow
    rw [List.map_append]
    rcases h'.skipped row hrow with hmiddle | hnew
    · rcases h.skipped row hmiddle with hold | hfirst
      · exact Or.inl hold
      · obtain ⟨hscope, hmem, key, hkey, hdedup⟩ := hfirst
        exact Or.inr ⟨hscope, List.mem_append_left _ hmem, key, h'.synced hkey, hdedup⟩
    · obtain ⟨hscope, hmem, hkey⟩ := hnew
      exact Or.inr ⟨hscope, List.mem_append_right _ hmem, hkey⟩
  handled := by
    intro hflow raw hraw
    rw [List.map_append] at hraw
    rcases List.mem_append.mp hraw with hfirst | hnew
    · exact (h.handled rfl raw hfirst).mono h'.synced h'.stored
    · exact h'.handled hflow raw hnew
  passed := h'.passed
  boundary := by
    intro hreached
    rcases h'.boundary hreached with hmiddle | hnew
    · rcases h.boundary hmiddle with hold | hfirst
      · exact Or.inl hold
      · cases hfirst.1
    · obtain ⟨hflow, done, raw, rest, heq, hdone, hat⟩ := hnew
      refine Or.inr ⟨hflow, first.map (·.1) ++ done, raw, rest, ?_, ?_, ?_⟩
      · rw [List.map_append, heq, List.append_assoc]
      · intro other hother
        rcases List.mem_append.mp hother with hfirst | hmore
        · exact (h.handled rfl other hfirst).mono h'.synced h'.stored
        · exact hdone other hmore
      · rw [← h.cursor]
        exact hat
  unseen := by
    intro hunseen
    obtain ⟨hstate, hmiddle, hflow⟩ := h'.unseen hunseen
    obtain ⟨hstate', hold, -⟩ := h.unseen hmiddle
    exact ⟨hstate.trans hstate', hold, hflow⟩
  unseenSynced := by
    intro hunseen hflow raw hraw
    obtain ⟨-, hmiddle, -⟩ := h'.unseen hunseen
    obtain ⟨hstate, -, -⟩ := h.unseen hmiddle
    rw [List.map_append] at hraw
    rcases List.mem_append.mp hraw with hfirst | hnew
    · exact h.unseenSynced hmiddle rfl raw hfirst
    · rw [← hstate]
      exact h'.unseenSynced hunseen hflow raw hnew
  failedBefore := fun hfailed => h'.failedBefore (h.failedBefore hfailed)
  failed := by
    intro hfailed
    rcases h'.failed hfailed with hmiddle | hnew
    · rcases h.failed hmiddle with hold | hfirst
      · exact Or.inl hold
      · obtain ⟨htolerate, entry, hentry, hfails⟩ := hfirst
        exact Or.inr ⟨htolerate, entry, List.mem_append_left _ hentry, hfails⟩
    · obtain ⟨htolerate, entry, hentry, hfails⟩ := hnew
      exact Or.inr ⟨htolerate, entry, List.mem_append_right _ hentry, hfails⟩

theorem readItems_reads (source : Source ι) (limits : Limits) (items : List (ι × ItemInput))
    (progress : Progress ι) :
    Reads source limits progress items (readItems source limits progress items).1
      (readItems source limits progress items).2 := by
  induction items generalizing progress with
  | nil => exact Reads.refl source limits progress nofun
  | cons entry items ih =>
      obtain ⟨raw, input⟩ := entry
      have hfirst := readItem_cases source limits progress raw input
      rw [readItems]
      generalize readItem source limits progress raw input = read at hfirst ⊢
      obtain ⟨middle, flow⟩ := read
      cases flow with
      | next => exact Reads.trans (hfirst.reads fun _ => rfl) (ih middle)
      | pageOver => exact hfirst.reads nofun
      | stopped => exact hfirst.reads nofun
      | failed => exact hfirst.reads nofun

end TinyCortex.Sync

/-! What the turns of a run leave as it is. -/

namespace TinyCortex.Sync

variable {ι : Type} {source : Source ι} {world : World ι} {run : Run ι} {pass : Pass ι}

/-- Ending a scope changes the states and where the run is, and takes over the failure of the scope. -/
theorem World.endScope_cases (source : Source ι) (world : World ι) (run : Run ι) (pass : Pass ι) (saved : Bool) :
    ∃ persisted state phase, (phase = .scopes ∨ phase = .failed) ∧ world.endScope source run pass saved =
      { world with
        persisted := persisted
        run := some { run with
          state := state
          phase := phase
          scopeError := run.scopeError || pass.scopeFailed } } := by
  unfold World.endScope
  dsimp only
  by_cases hcommit : source.perScopeCursors && !pass.scopeFailed && !run.morePending
  · rw [if_pos hcommit]
    cases hcursor : pass.scopeNewestCursor with
    | none => exact ⟨_, _, _, Or.inl rfl, rfl⟩
    | some cursor =>
        dsimp only
        by_cases hsaved : saved
        · rw [if_pos hsaved]
          exact ⟨_, _, _, Or.inl rfl, rfl⟩
        · rw [if_neg hsaved]
          exact ⟨_, _, _, Or.inr rfl, rfl⟩
  · rw [if_neg hcommit]
    exact ⟨_, _, _, Or.inl rfl, rfl⟩

/-- Documents are only added, and neither the provider's items nor the windows change. -/
structure Archive.Grows (archive archive' : Archive ι) : Prop where
  listing : archive'.listing = archive.listing
  window : archive'.window = archive.window
  stored : archive.stored ⊆ archive'.stored

theorem Archive.Grows.refl (archive : Archive ι) : archive.Grows archive :=
  ⟨rfl, rfl, List.Subset.refl _⟩

theorem World.grows_endScope {saved : Bool} {archive : Archive ι} (h : archive.Grows world.toArchive) :
    archive.Grows (world.endScope source run pass saved).toArchive := by
  obtain ⟨persisted, state, phase, -, heq⟩ := World.endScope_cases source world run pass saved
  rw [heq]
  exact h

theorem World.grows_endPage {progress : Progress ι} {next saved : Bool} {archive : Archive ι}
    (h : archive.Grows world.toArchive) :
    archive.Grows (world.endPage source run pass progress next saved).toArchive := by
  unfold World.endPage
  split_ifs
  · exact World.grows_endScope h
  · exact World.grows_endScope h
  · exact World.grows_endScope h
  · exact World.grows_endScope h
  · exact h

theorem World.grows_page {input : PageInput ι} :
    world.toArchive.Grows (world.page source run pass input).toArchive := by
  unfold World.page
  by_cases hexhausted : input.exhausted
  · rw [if_pos hexhausted]
    exact .refl _
  rw [if_neg hexhausted]
  cases input.reply with
  | failed =>
      dsimp only
      split_ifs
      · exact World.grows_endScope (.refl _)
      · exact .refl _
  | tooLarge => exact .refl _
  | page items next =>
      have hreads := readItems_reads source ⟨pass.scope, run.config.maxItems, run.depthFloor⟩ items
        (world.progress source run pass)
      dsimp only
      generalize readItems source ⟨pass.scope, run.config.maxItems, run.depthFloor⟩
        (world.progress source run pass) items = read at hreads ⊢
      obtain ⟨progress, flow⟩ := read
      have hafter : world.toArchive.Grows (world.afterItems progress).toArchive :=
        ⟨rfl, rfl, hreads.stored⟩
      cases flow with
      | next => exact World.grows_endPage hafter
      | pageOver => exact World.grows_endPage hafter
      | stopped => exact hafter
      | failed => exact hafter

end TinyCortex.Sync
