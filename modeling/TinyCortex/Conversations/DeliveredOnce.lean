import TinyCortex.Conversations.Bus
import TinyCortex.Lib.Interleaving
import TinyCortex.Conversations.ChannelThreads

/-! Deliveries of channel events that run at the same time. Each call of the store is one step, so
between a delivery's duplicate check and its append the others may do anything. -/

namespace TinyCortex.Conversations

open Interleaving

/-- What a delivery does next. -/
inductive DeliveryPhase
  | choosing
  | ensuring (threadId : String)
  | checking (threadId : String)
  | appending (threadId : String)
  deriving DecidableEq

structure Delivery where
  turn : ChannelTurnDescriptor
  createdAt : String
  phase : DeliveryPhase
  deriving DecidableEq

/-- An event arrives, or a delivery makes its next call of the store. -/
inductive DeliveryLabel
  | handle (event : ChannelEvent) (createdAt : String)
  | advance (i : Nat)

structure DeliveryWorld where
  disk : Disk
  deliveries : List Delivery

namespace Delivery

variable (env : BusEnv) (disk : Disk) (delivery : Delivery)

/-- One call of the store, and the delivery after it, unless that was its last one. -/
def step : Disk × Option Delivery :=
  match delivery.phase with
  | .choosing =>
      let choice := delivery.turn.chooseThread env disk
      (disk.applyAll choice.1, some { delivery with phase := .ensuring choice.2 })
  | .ensuring threadId =>
      let ensured := disk.ensureThread (delivery.turn.request threadId delivery.createdAt)
      (disk.applyAll ensured.1,
        match ensured.2 with
        | .ok _ => some { delivery with phase := .checking threadId }
        | .error _ => none)
  | .checking threadId =>
      (disk, if delivery.turn.isPersisted disk threadId then none
        else some { delivery with phase := .appending threadId })
  | .appending threadId =>
      let appended := disk.appendMessage threadId (delivery.turn.message env delivery.createdAt)
      (disk.applyAll appended.1, none)

/-- The thread and the message id whose duplicate the delivery is about to look for. -/
def looksFor : Option (String × String) :=
  match delivery.phase with
  | .checking threadId => some (threadId, delivery.turn.persistedMessageId)
  | _ => none

/-- The delivery found no duplicate of the message and has not appended it. -/
def owes (id threadId : String) : Bool :=
  delivery.phase = .appending threadId ∧ delivery.turn.persistedMessageId = id

/-- The thread that the delivery made sure of. -/
def ensured : Option String :=
  match delivery.phase with
  | .checking threadId => some threadId
  | .appending threadId => some threadId
  | _ => none

end Delivery

namespace DeliveryWorld

variable (env : BusEnv) (myWorkspace : String) (disk : Disk)

def step (world : DeliveryWorld) : DeliveryLabel → DeliveryWorld
  | .handle event createdAt =>
      match event.descriptor myWorkspace with
      | some turn => { world with deliveries := world.deliveries ++ [⟨turn, createdAt, .choosing⟩] }
      | none => world
  | .advance i =>
      match world.deliveries[i]? with
      | some delivery =>
          { disk := (delivery.step env world.disk).1
            deliveries := replace i (delivery.step env world.disk).2 world.deliveries }
      | none => world

/-- Deliveries over a store that is there already. -/
def machine : Machine DeliveryWorld DeliveryLabel where
  start := ⟨disk, []⟩
  step := step env myWorkspace

/-- Deliveries that found no duplicate of the message in the thread and have not appended it. -/
def owing (world : DeliveryWorld) (id threadId : String) : Nat :=
  world.deliveries.countP fun delivery => delivery.owes id threadId

/-- No delivery looks for a duplicate while another one is about to append it. -/
def Careful (id : String) (world : DeliveryWorld) : DeliveryLabel → Prop
  | .handle _ _ => True
  | .advance i => ∀ lookup ∈ world.deliveries[i]?.bind Delivery.looksFor,
      lookup.2 = id → world.owing id lookup.1 = 0

instance (id : String) (world : DeliveryWorld) (label : DeliveryLabel) :
    Decidable (Careful id world label) :=
  match label with
  | .handle _ _ => isTrue trivial
  | .advance _ => inferInstanceAs (Decidable (∀ lookup ∈ _, _))

end DeliveryWorld

namespace Disk

/-- How often the message is in the thread. -/
def copies (disk : Disk) (id threadId : String) : Nat :=
  (disk.rows threadId).countP fun row => row.id = id

/-- No thread has the message twice. -/
def AtMostOnce (disk : Disk) (id : String) : Prop := ∀ threadId, disk.copies id threadId ≤ 1

end Disk
end TinyCortex.Conversations

/-! A message is in a thread once as long as no delivery looks for its duplicate while another one is
about to append it: then the copies and the deliveries that owe one are together at most one. -/

namespace TinyCortex.Conversations

open Interleaving

variable {env : BusEnv} {myWorkspace : String} {disk : Disk} {id threadId : String}

namespace Disk

theorem copies_of_messages (id threadId : String) {disk' : Disk}
    (h : disk'.messages = disk.messages) :
    disk'.copies id threadId = disk.copies id threadId := by
  rw [copies, copies, rows, rows, h]

/-- An append adds the message to its thread, or nothing. -/
theorem copies_appendMessage_le (disk : Disk) (id threadId : String) (message : ConversationMessage)
    (other : String) :
    (disk.applyAll (disk.appendMessage threadId message).1).copies id other ≤
      disk.copies id other + if threadId = other ∧ message.id = id then 1 else 0 := by
  rcases disk.appendMessage_writes threadId message with hwrites | hwrites
  · rw [hwrites]
    exact Nat.le_add_right _ _
  · rw [hwrites, applyAll_cons, applyAll_cons, applyAll_nil, copies, rows_appendThreads,
      rows_appendMessage]
    by_cases hother : other = threadId
    · subst hother
      rw [if_pos rfl, List.countP_append, List.countP_singleton, copies]
      simp
    · rw [if_neg hother]
      exact Nat.le_add_right _ _

theorem copies_of_not_isPersisted {turn : ChannelTurnDescriptor} (hlive : disk.Live threadId)
    (h : ¬turn.isPersisted disk threadId) : disk.copies turn.persistedMessageId threadId = 0 := by
  have hsome : (disk.threadIndex.get threadId).isSome = true := hlive
  rw [copies, List.countP_eq_zero]
  intro row hrow hid
  apply h
  rw [ChannelTurnDescriptor.isPersisted, getMessages, if_pos hsome, List.any_eq_true]
  exact ⟨row, hrow, hid⟩

end Disk

namespace Delivery

variable {delivery : Delivery}

theorem live_step (delivery : Delivery) (h : disk.Live threadId) :
    (delivery.step env disk).1.Live threadId := by
  rw [step]
  cases delivery.phase with
  | choosing => exact ((ChannelTurnDescriptor.chooseThread_frame env _ disk).2 threadId).mpr h
  | ensuring chosen => exact (Disk.live_ensureThread _).mpr (Or.inr h)
  | checking chosen => exact h
  | appending chosen => exact (Disk.live_appendMessage chosen _).mpr h

/-- A delivery checks and appends only in a thread that it made sure of. -/
theorem ensured_step (hlive : ∀ t ∈ delivery.ensured, disk.Live t) :
    ∀ next ∈ (delivery.step env disk).2, ∀ t ∈ next.ensured,
      (delivery.step env disk).1.Live t := by
  obtain ⟨turn, createdAt, phase⟩ := delivery
  intro next hnext t ht
  cases phase with
  | choosing =>
      obtain rfl := Option.some.inj hnext
      cases ht
  | ensuring chosen =>
      obtain ⟨thread, hok⟩ := Disk.ensureThread_isOk disk (turn.request chosen createdAt)
      rw [step] at hnext
      dsimp only at hnext
      rw [hok] at hnext
      obtain rfl := Option.some.inj hnext
      obtain rfl := Option.some.inj ht
      exact (Disk.live_ensureThread _).mpr (Or.inl rfl)
  | checking chosen =>
      rw [step] at hnext
      dsimp only at hnext
      split_ifs at hnext
      · cases hnext
      · obtain rfl := Option.some.inj hnext
        exact hlive t ht
  | appending chosen => cases hnext

/-- Copies and debts do not grow, except by a delivery that looked for a duplicate in vain. -/
theorem copies_step (env : BusEnv) (id threadId : String) (hlive : ∀ t ∈ delivery.ensured, disk.Live t) :
    (delivery.step env disk).1.copies id threadId +
          (if (delivery.step env disk).2.any (·.owes id threadId) then 1 else 0) ≤
        disk.copies id threadId + (if delivery.owes id threadId then 1 else 0) ∨
      delivery.looksFor = some (threadId, id) ∧
        (delivery.step env disk).1.copies id threadId +
          (if (delivery.step env disk).2.any (·.owes id threadId) then 1 else 0) ≤ 1 := by
  obtain ⟨turn, createdAt, phase⟩ := delivery
  cases phase with
  | choosing =>
      left
      have hsame := Disk.copies_of_messages id threadId
        (ChannelTurnDescriptor.chooseThread_frame env turn disk).1
      simp [step, owes, hsame]
  | ensuring chosen =>
      left
      obtain ⟨thread, hok⟩ := Disk.ensureThread_isOk disk (turn.request chosen createdAt)
      simp only [step, hok, owes]
      simp
      exact Nat.le_refl _
  | checking chosen =>
      by_cases hfound : turn.isPersisted disk chosen
      · left
        simp [step, hfound, owes]
      · by_cases hsame : chosen = threadId ∧ turn.persistedMessageId = id
        · right
          obtain ⟨rfl, rfl⟩ := hsame
          have hnone := Disk.copies_of_not_isPersisted (hlive chosen rfl) hfound
          refine ⟨rfl, ?_⟩
          simp [step, hfound, owes, hnone]
        · left
          simp [step, hfound, owes, hsame]
  | appending chosen =>
      left
      have hle := Disk.copies_appendMessage_le disk id chosen (turn.message env createdAt) threadId
      rw [show (turn.message env createdAt).id = turn.persistedMessageId from rfl] at hle
      simp only [step, owes, Option.any_none]
      simpa using hle

end Delivery

namespace DeliveryWorld

/-- At most one copy of the message is in a thread or owed to it. -/
structure Sound (id : String) (world : DeliveryWorld) : Prop where
  once : ∀ threadId, world.disk.copies id threadId + world.owing id threadId ≤ 1
  live : ∀ delivery ∈ world.deliveries, ∀ threadId ∈ delivery.ensured, world.disk.Live threadId

theorem Sound.step {world : DeliveryWorld} (h : world.Sound id) {label : DeliveryLabel}
    (hcareful : Careful id world label) : (world.step env myWorkspace label).Sound id := by
  cases label with
  | handle event createdAt =>
      rw [DeliveryWorld.step]
      cases event.descriptor myWorkspace with
      | none => exact h
      | some turn =>
          refine ⟨fun threadId => ?_, fun delivery hdelivery threadId ht => ?_⟩
          · have hno : (⟨turn, createdAt, .choosing⟩ : Delivery).owes id threadId = false := by
              simp [Delivery.owes]
            rw [owing, List.countP_append, List.countP_singleton, hno]
            exact h.once threadId
          · rcases List.mem_append.mp hdelivery with hold | hnew
            · exact h.live delivery hold threadId ht
            · rw [List.mem_singleton.mp hnew] at ht
              cases ht
  | advance i =>
      rw [DeliveryWorld.step]
      cases hi : world.deliveries[i]? with
      | none => exact h
      | some delivery =>
          have hlive := h.live delivery (List.mem_of_getElem? hi)
          refine ⟨fun threadId => ?_, fun other hother threadId ht => ?_⟩
          · have hcount := countP_replace (delivery.step env world.disk).2
              (fun delivery => delivery.owes id threadId) hi
            have honce := h.once threadId
            rw [owing] at honce
            dsimp only [owing]
            rcases Delivery.copies_step env id threadId hlive with hle | ⟨hlooks, hle⟩
            · omega
            · have hnone : world.owing id threadId = 0 :=
                hcareful (threadId, id) (by rw [hi]; exact hlooks) rfl
              rw [owing] at hnone
              omega
          · rcases mem_replace hother with hold | hnew
            · exact delivery.live_step (h.live other hold threadId ht)
            · exact Delivery.ensured_step hlive other hnew threadId ht

/-- Whatever the interleaving, careful deliveries leave the message in a thread at most once. -/
theorem atMostOnce_of_careful (env : BusEnv) (myWorkspace : String) {disk : Disk} {id : String}
    (hstart : disk.AtMostOnce id) {labels : List DeliveryLabel}
    (hcareful : (machine env myWorkspace disk).AllSteps (Careful id) labels) :
    (machine env myWorkspace disk).Throughout (fun world => world.disk.AtMostOnce id) labels := by
  have hsound : Sound id (machine env myWorkspace disk).start :=
    ⟨hstart, fun delivery hdelivery => absurd hdelivery List.not_mem_nil⟩
  refine (machine env myWorkspace disk).throughout_of_steps hsound
    (fun world label h hlabel => h.step hlabel) (fun world h threadId => ?_) hcareful
  exact Nat.le_of_add_right_le (h.once threadId)

section Sample

def sampleEvent : ChannelEvent := .received "slack" "m1" "alice" "C1" "hello" none "/workspace"

def sampleArrival : DeliveryLabel := .handle sampleEvent "2026-01-05T10:00:00+00:00"

/-- Delivered again once the first delivery is through, the event is checked and dropped. -/
theorem atMostOnce_redelivered :
    (machine ChannelWorld.sampleEnv "/workspace" Disk.empty).Throughout
      (fun world => world.disk.AtMostOnce "user:m1")
      [sampleArrival, .advance 0, .advance 0, .advance 0, .advance 0,
        sampleArrival, .advance 0, .advance 0, .advance 0] := by
  have hstart : Disk.empty.AtMostOnce "user:m1" := fun threadId => Nat.zero_le 1
  refine atMostOnce_of_careful ChannelWorld.sampleEnv "/workspace" hstart ?_
  exact (Machine.allSteps_iff_stepsFrom _).mpr (by decide +kernel)

/-- Both deliveries look for a duplicate before either appends. -/
def overlapping : List DeliveryLabel :=
  [sampleArrival, sampleArrival, .advance 0, .advance 0, .advance 0, .advance 1, .advance 1,
    .advance 1, .advance 0, .advance 0]

/-- Overlapping deliveries append the message twice. -/
theorem overlapping_twice :
    ¬(machine ChannelWorld.sampleEnv "/workspace" Disk.empty).Throughout
      (fun world => world.disk.AtMostOnce "user:m1") overlapping := by
  intro h
  have honce := h overlapping List.prefix_rfl "channel:slack_alice_C1"
  have htwice : ((machine ChannelWorld.sampleEnv "/workspace" Disk.empty).run
      overlapping).disk.copies "user:m1" "channel:slack_alice_C1" = 2 := by decide +kernel
  rw [htwice] at honce
  exact absurd honce (by decide)

end Sample

end DeliveryWorld
end TinyCortex.Conversations
