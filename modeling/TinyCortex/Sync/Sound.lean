import TinyCortex.Sync.Backed

/-! What the provider keeps to, when a step is harmless, and what then holds of a run at each of its
places. -/

namespace TinyCortex.Sync

variable {ι : Type} (source : Source ι)

namespace World

variable (world : World ι)

/-- What the provider keeps to. Items arrive in front; a listing leaves out nothing that is ahead of the
cursor and in the window; pages follow one another, and after the last one nothing is left. -/
def Contract : Label ι → Prop
  | .arrive scope item => ∀ other ∈ world.listing scope, ∀ c ∈ source.sortCursor item,
      ∀ d ∈ source.sortCursor other, d ≤ c
  | .openScope listed => ∀ run ∈ world.run, ∀ scope ∈ run.scopes.head?,
      listed.Sublist (world.listing scope) ∧ ∀ item ∈ world.listing scope,
        Ahead source run.state scope item →
          InWindow (world.windowOf source run scope) (source.sortCursor item) → item ∈ listed
  | .page input => ∀ run ∈ world.run, ∀ pass, run.phase = .pages pass → ∀ items next,
      input.reply = .page items next →
        items.map (·.1) <+: pass.rest ∧ (next = false → pass.rest = items.map (·.1))
  | _ => True

/-- New items between runs, ahead of the cursor and with new keys; and no page of synced items in front
of a missing one, for a source that stops there. -/
def Steady : Label ι → Prop
  | .arrive scope item => world.run.isNone ∧ Ahead source world.persisted scope item ∧
      ∀ key ∈ source.dedupKey item, ∀ scope', ∀ other ∈ world.listing scope',
        source.dedupKey other ≠ some key
  | .page input => source.stopOnEmptyPending = true → ∀ run ∈ world.run, ∀ pass,
      run.phase = .pages pass → ∀ items next, input.reply = .page items next →
        (∀ item ∈ items.map (·.1), ∀ key ∈ source.dedupKey item, key ∈ run.state.syncedIds) →
          ∀ item ∈ pass.rest.drop items.length, ¬world.Missing source pass.scope item
  | _ => True

/-- What holds whether a run is under way or not. -/
structure Base : Prop where
  ordered : world.NewestFirst source
  distinct : world.KeysDistinct source
  persisted : world.Backed source world.persisted
  skipped : ∀ row ∈ world.skipped, row ∈ world.stored

/-- What holds of a run. -/
structure RunSound (run : Run ι) : Prop where
  backed : world.Backed source run.state
  server : source.serverSideDepth = true → run.depthFloor = none
  floor : ∀ scope, ∀ f ∈ run.depthFloor,
    source.cursorOf run.state scope = none ∨ world.window scope = some f

/-- Between pages all that is missing is still to be listed. -/
structure PassSound (run : Run ι) (pass : Pass ι) : Prop where
  rest : pass.rest.Sublist (world.listing pass.scope)
  left : pass.scopeFailed = false → ∀ item, world.Missing source pass.scope item → item ∈ pass.rest
  floor : ∀ f ∈ run.depthFloor, world.window pass.scope = some f

/-- The cursors of a run are the stored ones until it ends. -/
def SameCursors (run : Run ι) : Prop :=
  ∀ scope, source.cursorOf run.state scope = source.cursorOf world.persisted scope

/-- What holds of where a run is. -/
def PhaseSound (run : Run ι) : Prop :=
  match run.phase with
  | .scopes => world.SameCursors source run
  | .pages pass => world.SameCursors source run ∧ world.PassSound source run pass
  | .stopped => run.morePending = true
  | .failed => True

structure Sound : Prop extends world.Base source where
  running : ∀ run ∈ world.run, world.RunSound source run ∧ world.PhaseSound source run

end World

section Places

variable (world : World ι)

def Phase.pass? : Phase ι → Option (Pass ι)
  | .pages pass => some pass
  | _ => none

def Reply.page? : Reply ι → Option (List (ι × ItemInput) × Bool)
  | .page items next => some (items, next)
  | _ => none

theorem World.contract_page_iff (input : PageInput ι) : world.Contract source (.page input) ↔
    ∀ run ∈ world.run, ∀ pass ∈ run.phase.pass?, ∀ page ∈ input.reply.page?,
      page.1.map (·.1) <+: pass.rest ∧ (page.2 = false → pass.rest = page.1.map (·.1)) := by
  unfold World.Contract
  constructor
  · intro h run hrun pass hpass page hpage
    unfold Phase.pass? at hpass
    unfold Reply.page? at hpage
    split at hpass
    · rename_i pass' hphase
      obtain rfl := Option.some.inj hpass
      split at hpage
      · rename_i items next hreply
        obtain rfl := Option.some.inj hpage
        exact h run hrun pass' hphase items next hreply
      · cases hpage
    · cases hpass
  · intro h run hrun pass hphase items next hreply
    exact h run hrun pass (by rw [hphase]; rfl) (items, next) (by rw [hreply]; rfl)

instance World.decidableContract [DecidableEq ι] : ∀ label, Decidable (world.Contract source label)
  | .arrive scope item => inferInstanceAs (Decidable (∀ other ∈ world.listing scope,
      ∀ c ∈ source.sortCursor item, ∀ d ∈ source.sortCursor other, d ≤ c))
  | .openScope listed => inferInstanceAs (Decidable (∀ run ∈ world.run, ∀ scope ∈ run.scopes.head?,
      listed.Sublist (world.listing scope) ∧ ∀ item ∈ world.listing scope,
        reached (source.cursorOf run.state scope) (source.sortCursor item) = false →
          (∀ floor ∈ world.windowOf source run scope, ∃ c ∈ source.sortCursor item, floor ≤ c) →
            item ∈ listed))
  | .page input => decidable_of_iff _ (world.contract_page_iff source input).symm
  | .start _ _ _ => isTrue trivial
  | .finish _ => isTrue trivial
  | .crash => isTrue trivial

end Places

end TinyCortex.Sync
