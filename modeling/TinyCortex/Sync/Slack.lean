import TinyCortex.Diff.Trailers
import TinyCortex.Sync.Pages
import TinyCortex.Sync.Skipless

/-! The Slack source (`sync/composio/providers/slack.rs`, `slack_parse.rs`). Its keys are the timestamps of
messages, its documents and its cursors are kept by channel. -/

namespace TinyCortex.Sync

/-- What the source picks from a message; what is found is trimmed and not empty. -/
structure SlackMessage where
  ts : Option String
  text : Option String
  deriving DecidableEq

/-- `str::parse::<u64>`. -/
def parseU64 (text : String) : Option Nat :=
  (match text.toList with
    | '+' :: digits => Diff.parseDigits digits
    | digits => Diff.parseDigits digits).filter fun n => n < 2 ^ 64

/-- The seconds, and what follows the first point. -/
def parseTs (ts : String) : Option (Int × Nat) :=
  match Diff.parseI64 (String.ofList (ts.toList.takeWhile (· ≠ '.'))) with
  | none => none
  | some seconds =>
      match ts.toList.dropWhile (· ≠ '.') with
      | [] => some (seconds, 0)
      | _ :: fraction => (parseU64 (String.ofList fraction)).map (seconds, ·)

namespace SlackMessage

def dedupKey (message : SlackMessage) : Option String :=
  match message.ts with
  | none => none
  | some ts =>
      if (parseTs ts).isNone then none
      else
        match message.text with
        | none => none
        | some text => if Text.trim text = "" then none else some ts

def sortCursor (message : SlackMessage) : Option String := message.ts

end SlackMessage

def slack (maxPages : Nat) : Source SlackMessage where
  maxPages := maxPages
  perScopeCursors := true
  tolerateScopeErrors := true
  retainDedupKeys := true
  stopOnEmptyPending := false
  serverSideDepth := true
  dedupKey := SlackMessage.dedupKey
  sortCursor := SlackMessage.sortCursor

namespace World

variable (maxPages : Nat) (world : World SlackMessage)

/-- Messages come in between runs, ahead of the cursor of their channel, with a text, not before the
window, and under a timestamp that no message of any channel has; and the first listing of a channel
reaches back to its oldest message. -/
def SlackSteady : Label SlackMessage → Prop
  | .arrive channel message => world.run.isNone ∧ Ahead (slack maxPages) world.persisted channel message ∧
      message.dedupKey.isSome ∧ InWindow (world.window channel) message.sortCursor ∧
        ∀ key ∈ message.dedupKey, ∀ channel', ∀ other ∈ world.listing channel', other.dedupKey ≠ some key
  | .openScope _ => ∀ run ∈ world.run, ∀ channel ∈ run.scopes.head?, ∀ message ∈ world.listing channel,
      InWindow (world.windowOf (slack maxPages) run channel) message.sortCursor
  | _ => True

/-- What was taken for synced was stored, and so was each message at or below the cursor of its channel,
be it the stored cursor or that of the run. -/
structure SlackSafe : Prop where
  skipped : ∀ row ∈ world.skipped, row ∈ world.stored
  persisted : ∀ channel, ∀ message ∈ world.listing channel,
    ¬Ahead (slack maxPages) world.persisted channel message → (channel, message) ∈ world.stored
  running : ∀ run ∈ world.run, ∀ channel, ∀ message ∈ world.listing channel,
    ¬Ahead (slack maxPages) run.state channel message → (channel, message) ∈ world.stored

/-- Each listed message is to be stored. -/
def Storable : Prop := ∀ channel, ∀ message ∈ world.listing channel,
  message.dedupKey.isSome ∧ InWindow (world.window channel) message.sortCursor

structure SlackSound : Prop extends world.Sound (slack maxPages) where
  storable : world.Storable

variable {maxPages} {world}

theorem SlackSteady.steady {label : Label SlackMessage} (h : world.SlackSteady maxPages label) :
    world.Steady (slack maxPages) label := by
  cases label with
  | arrive channel message => exact ⟨h.1, h.2.1, h.2.2.2.2⟩
  | page input => exact nofun
  | _ => trivial

theorem Storable.mono {world' : World SlackMessage} (h : world.Storable)
    (hgrows : world.toArchive.Grows world'.toArchive) : world'.Storable := by
  intro channel message hmessage
  rw [hgrows.listing] at hmessage
  rw [hgrows.window]
  exact h channel message hmessage

theorem Storable.step (h : world.Storable) {label : Label SlackMessage}
    (hsteady : world.SlackSteady maxPages label) : (world.step (slack maxPages) label).Storable := by
  cases label with
  | arrive channel message =>
      obtain ⟨-, -, hkey, hwindow, -⟩ := hsteady
      intro other m hm
      by_cases hother : other = channel
      · subst hother
        have hmem : m ∈ Function.update world.listing other (message :: world.listing other) other := hm
        rw [Function.update_self] at hmem
        rcases List.mem_cons.mp hmem with rfl | hold
        · exact ⟨hkey, hwindow⟩
        · exact h other m hold
      · have hmem : m ∈ Function.update world.listing channel (message :: world.listing channel) other := hm
        rw [Function.update_of_ne hother] at hmem
        exact h other m hmem
  | start config exhausted scopes =>
      unfold World.step
      cases world.run with
      | none =>
          dsimp only
          unfold World.start
          by_cases hexhausted : exhausted
          · rw [if_pos hexhausted]
            exact h
          · rw [if_neg hexhausted]
            exact h
      | some run => exact h
  | openScope listed =>
      unfold World.step
      cases hrun : world.run with
      | none => exact h
      | some run =>
          dsimp only
          cases run.phase with
          | scopes =>
              dsimp only
              unfold World.openScope
              cases hscopes : run.scopes with
              | nil => exact h
              | cons channel channels =>
                  intro other m hm
                  refine ⟨(h other m hm).1, ?_⟩
                  change InWindow (Function.update world.window channel _ other) _
                  by_cases hother : other = channel
                  · subst hother
                    rw [Function.update_self]
                    exact hsteady run hrun other (by rw [hscopes]; rfl) m hm
                  · rw [Function.update_of_ne hother]
                    exact (h other m hm).2
          | _ => exact h
  | page input =>
      unfold World.step
      cases world.run with
      | none => exact h
      | some run =>
          dsimp only
          cases run.phase with
          | pages pass => exact h.mono World.grows_page
          | _ => exact h
  | finish saved =>
      unfold World.step
      cases world.run with
      | none => exact h
      | some run =>
          dsimp only
          cases run.phase with
          | scopes =>
              dsimp only
              split_ifs
              · exact h
              · exact h
          | _ => exact h
  | crash => exact h

/-- What a state vouches for is stored. -/
theorem Storable.stored (h : world.Storable) {state : SyncState}
    (hbacked : world.Backed (slack maxPages) state) {channel : String} {message : SlackMessage}
    (hmessage : message ∈ world.listing channel)
    (hreached : ¬Ahead (slack maxPages) state channel message) : (channel, message) ∈ world.stored := by
  by_contra hmissing
  obtain ⟨before, after, heq⟩ := List.append_of_mem hmessage
  obtain ⟨hkeyed, hwindow⟩ := h channel message hmessage
  refine hreached (hbacked.ahead heq ⟨hmessage, hkeyed, hwindow, hmissing⟩ message ?_)
  exact List.mem_append_right _ (List.mem_singleton.mpr rfl)

end World

/-- No message is skipped that was not stored. -/
theorem slack_skips_only_stored (maxPages : Nat) (labels : List (Label SlackMessage))
    (hlabels : (machine (slack maxPages)).AllSteps (fun world label =>
      world.Contract (slack maxPages) label ∧ world.SlackSteady maxPages label) labels) :
    (machine (slack maxPages)).Throughout (World.SlackSafe maxPages) labels := by
  have hstart : (machine (slack maxPages)).start.SlackSound maxPages :=
    ⟨World.sound_start (slack maxPages), fun _ _ hmessage => absurd hmessage List.not_mem_nil⟩
  refine (machine (slack maxPages)).throughout_of_steps hstart ?_ ?_ hlabels
  · intro world label h ⟨hcontract, hsteady⟩
    refine ⟨h.toSound.step hcontract hsteady.steady ?_, h.storable.step hsteady⟩
    exact fun _ _ _ _ hshared => (Bool.noConfusion hshared)
  · intro world h
    refine ⟨h.skipped, ?_, ?_⟩
    · exact fun channel message hmessage => h.storable.stored h.persisted hmessage
    · exact fun run hrun channel message hmessage =>
        h.storable.stored (h.running run hrun).1.backed hmessage

section Channels

def hello : SlackMessage := ⟨some "1.0", some "hello"⟩

def greeting : SlackMessage := ⟨some "1.0", some "greeting"⟩

/-- A run over one channel. -/
def oneChannel : List (Label SlackMessage) :=
  [.arrive "C1" hello, .start ⟨none, none⟩ false (some ["C1"]), .openScope [hello],
    .page ⟨false, .page [(hello, ⟨false, false⟩)] false, true⟩, .finish true]

theorem slack_skips_only_stored_oneChannel :
    (machine (slack 20)).Throughout (World.SlackSafe 20) oneChannel := by
  apply slack_skips_only_stored
  rw [Machine.allSteps_iff_stepsFrom]
  refine ⟨⟨?_, ?_⟩, ⟨?_, ?_⟩, ⟨?_, ?_⟩, ⟨?_, ?_⟩, ⟨?_, ?_⟩, trivial⟩
  case refine_1 => decide +kernel
  case refine_2 =>
    refine ⟨rfl, rfl, by decide +kernel, fun _ hfloor => absurd hfloor (Option.not_mem_none _), ?_⟩
    exact fun _ _ _ _ hother => absurd hother List.not_mem_nil
  case refine_3 => trivial
  case refine_4 => trivial
  case refine_5 => decide +kernel
  case refine_6 =>
    intro run hrun channel hchannel message _ floor hfloor
    obtain rfl := Option.some.inj hrun
    obtain rfl := Option.some.inj hchannel
    exact absurd hfloor (Option.not_mem_none _)
  case refine_7 => decide +kernel
  case refine_8 => trivial
  case refine_9 => trivial
  case refine_10 => trivial

/-- Two channels with a message of the same time. -/
def twoChannels : List (Label SlackMessage) :=
  [.arrive "C1" hello, .arrive "C2" greeting, .start ⟨none, none⟩ false (some ["C1", "C2"]),
    .openScope [hello], .page ⟨false, .page [(hello, ⟨false, false⟩)] false, true⟩,
    .openScope [greeting], .page ⟨false, .page [(greeting, ⟨false, false⟩)] false, true⟩]

/-- The message of the second channel counts as synced by that of the first, and is not stored. -/
theorem slack_skips_other_channel :
    (machine (slack 20)).AllSteps (fun world label => world.Contract (slack 20) label) twoChannels ∧
      ¬(machine (slack 20)).Throughout (World.SlackSafe 20) twoChannels := by
  constructor
  · rw [Machine.allSteps_iff_stepsFrom]
    decide +kernel
  · intro h
    have hskipped := (h twoChannels List.prefix_rfl).skipped ("C2", greeting) (by decide +kernel)
    revert hskipped
    decide +kernel

end Channels

end TinyCortex.Sync
