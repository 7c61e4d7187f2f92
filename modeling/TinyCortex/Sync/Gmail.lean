import TinyCortex.Lib.Text
import TinyCortex.Sync.Complete

/-! The Gmail source (`sync/composio/gmail.rs`): what it skips, and a run of it that hides a message. -/

namespace TinyCortex.Sync

/-- What the source looks at in a message: the first string found under one of the keys for the id, and
under one of those for the date. -/
structure GmailMessage where
  id : Option String
  internalDate : Option String
  deriving DecidableEq

namespace GmailMessage

def itemId (message : GmailMessage) : Option String :=
  (message.id.map Text.trim).filter fun id => !id.isEmpty

def itemCursor (message : GmailMessage) : Option String :=
  (message.internalDate.map Text.trim).filter fun cursor => !cursor.isEmpty

end GmailMessage

/-- The provider is asked for what is newer than the cursor or the depth. -/
def gmail (maxPages : Nat) : Source GmailMessage where
  maxPages := maxPages
  perScopeCursors := false
  tolerateScopeErrors := false
  retainDedupKeys := true
  stopOnEmptyPending := true
  serverSideDepth := true
  dedupKey := GmailMessage.itemId
  sortCursor := GmailMessage.itemCursor

section Backlog

def olderMail : GmailMessage := ⟨some "a", some "1"⟩

def newerMail : GmailMessage := ⟨some "b", some "2"⟩

/-- A run with a limit of one item, and a run after it. -/
def backlogRuns : List (Label GmailMessage) :=
  [.arrive "" olderMail, .arrive "" newerMail,
    .start ⟨some 1, none⟩ false (some [""]), .openScope [newerMail, olderMail],
    .page ⟨false, .page [(newerMail, ⟨false, false⟩)] true, true⟩, .finish true,
    .start ⟨none, none⟩ false (some [""]), .openScope [newerMail, olderMail],
    .page ⟨false, .page [(newerMail, ⟨false, false⟩)] true, true⟩, .finish true]

/-- The second run stops at the page that the first one stored, and returns that nothing is pending. -/
theorem gmail_hides_backlog :
    (machine (gmail 10)).AllSteps (fun world label => world.Contract (gmail 10) label) backlogRuns ∧
      ¬(machine (gmail 10)).Throughout
        (fun world => world.Complete (gmail 10) ∧ world.CursorSafe (gmail 10)) backlogRuns := by
  constructor
  · rw [Machine.allSteps_iff_stepsFrom]
    decide +kernel
  · intro h
    have hcomplete := (h backlogRuns List.prefix_rfl).1
    have houtcome : ((machine (gmail 10)).run backlogRuns).outcome = some ⟨false, false⟩ := by
      decide +kernel
    refine hcomplete ⟨false, false⟩ houtcome rfl rfl "" olderMail ⟨?_, ?_, ?_, ?_⟩
    · decide +kernel
    · decide +kernel
    · have hwindow : ((machine (gmail 10)).run backlogRuns).window "" = none := by decide +kernel
      rw [hwindow]
      exact nofun
    · decide +kernel

def singleRun : List (Label GmailMessage) :=
  [.arrive "" olderMail, .start ⟨none, none⟩ false (some [""]), .openScope [olderMail],
    .page ⟨false, .page [(olderMail, ⟨false, false⟩)] false, true⟩, .finish true]

theorem incremental_complete_singleRun :
    (machine (gmail 10)).Throughout
      (fun world => world.Complete (gmail 10) ∧ world.CursorSafe (gmail 10)) singleRun := by
  apply incremental_complete
  rw [Machine.allSteps_iff_stepsFrom]
  refine ⟨⟨?_, ?_, ?_⟩, ⟨?_, ?_, ?_⟩, ⟨?_, ?_, ?_⟩, ⟨?_, ?_, ?_⟩, ⟨?_, ?_, ?_⟩, trivial⟩
  case refine_1 => decide +kernel
  case refine_2 => exact ⟨rfl, rfl, fun _ _ _ _ hother => absurd hother List.not_mem_nil⟩
  case refine_3 => trivial
  case refine_4 => trivial
  case refine_5 => trivial
  case refine_6 =>
    refine fun _ => ⟨nofun, ?_⟩
    intro ids hids scope hscope item hmissing
    obtain rfl := Option.some.inj hids
    rw [List.mem_singleton] at hscope
    have hlisted : item ∈ Function.update (fun _ => []) "" [olderMail] scope := hmissing.listed
    rw [Function.update_of_ne hscope] at hlisted
    cases hlisted
  case refine_7 => decide +kernel
  case refine_8 => trivial
  case refine_9 => trivial
  case refine_10 => decide +kernel
  case refine_11 =>
    intro _ run hrun pass hphase items next hreply
    cases hreply
    obtain rfl := Option.some.inj hrun
    cases hphase
    intro _ item hitem
    cases hitem
  case refine_12 => exact nofun
  case refine_13 => trivial
  case refine_14 => trivial
  case refine_15 => trivial

end Backlog

end TinyCortex.Sync
