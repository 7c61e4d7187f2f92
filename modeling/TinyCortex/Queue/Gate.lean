import TinyCortex.Lib.Interleaving
import TinyCortex.Lib.Machine

/-! The concurrency gate of LLM-bound jobs (`queue/gate.rs`). The mutex makes each look at the count one step; a task
that waits on the condition variable comes back to the mutex only after it was notified, and another task may be at
the mutex first. -/

namespace TinyCortex.Queue

open Interleaving

/-- Where a task is: before or after its calls, in `acquire` on its way to the mutex, waiting on the condition
variable, notified and on its way back, or with a `Permit`. -/
inductive GateTask
  | idle
  | acquiring
  | parked
  | woken
  | holding
  deriving DecidableEq, Repr

structure LlmGate where
  available : Nat
  tasks : List GateTask
  deriving DecidableEq, Repr

namespace LlmGate

/-- `permits` of 0 is clamped to 1. -/
def new (permits : Nat) : LlmGate := ⟨max permits 1, []⟩

def goto (gate : LlmGate) (i : Nat) (task : GateTask) : LlmGate :=
  { gate with tasks := replace i (some task) gate.tasks }

/-- The count as a task finds it under the mutex: the task takes a slot, or goes to `busy`. -/
def take (gate : LlmGate) (i : Nat) (busy : GateTask) : LlmGate :=
  if gate.available = 0 then gate.goto i busy else { gate.goto i .holding with available := gate.available - 1 }

/-- The waiting task that `notify_one` picks. -/
def waiter (gate : LlmGate) (preferred : Nat) : Option Nat :=
  if gate.tasks[preferred]? = some .parked then some preferred else gate.tasks.findIdx? (· = .parked)

def notifyOne (gate : LlmGate) (preferred : Nat) : LlmGate :=
  match gate.waiter preferred with
  | some j => gate.goto j .woken
  | none => gate

/-- What a task does next; a drop says whom the condition variable would wake first. -/
inductive Act
  | spawn
  | tryAcquire (i : Nat)
  | acquire (i : Nat)
  | turn (i : Nat)
  | drop (i preferred : Nat)
  deriving DecidableEq, Repr

def step (gate : LlmGate) : Act → LlmGate
  | .spawn => { gate with tasks := gate.tasks ++ [.idle] }
  | .tryAcquire i => if gate.tasks[i]? = some .idle then gate.take i .idle else gate
  | .acquire i => if gate.tasks[i]? = some .idle then gate.goto i .acquiring else gate
  | .turn i =>
      if gate.tasks[i]? = some .acquiring ∨ gate.tasks[i]? = some .woken then gate.take i .parked else gate
  | .drop i preferred =>
      if gate.tasks[i]? = some .holding then
        { gate.goto i .idle with available := gate.available + 1 }.notifyOne preferred
      else gate

/-- All tasks that share one gate, in any order of their steps. -/
def machine (permits : Nat) : Machine LlmGate Act := ⟨new permits, step⟩

variable {permits : Nat} {gate : LlmGate} {i j : Nat} {task before : GateTask}

/-- How many tasks are where `task` says. -/
def count (gate : LlmGate) (task : GateTask) : Nat := gate.tasks.countP (· = task)

/-- Every slot is free or held, and where tasks wait every free slot has a notified task on its way to it. -/
structure Accounted (permits : Nat) (gate : LlmGate) : Prop where
  slots : gate.available + gate.count .holding = max permits 1
  heard : 0 < gate.count .parked → gate.available ≤ gate.count .woken

theorem count_goto (hbefore : gate.tasks[i]? = some before) (task other : GateTask) :
    (gate.goto i task).count other + (if before = other then 1 else 0) =
      gate.count other + (if task = other then 1 else 0) := by
  have hcount := countP_replace (some task) (fun at' => decide (at' = other)) hbefore
  simpa [count, goto] using hcount

theorem getElem?_goto (hbefore : gate.tasks[i]? = some before) (task : GateTask) (j : Nat) :
    (gate.goto i task).tasks[j]? = if i = j then some task else gate.tasks[j]? := by
  have hlt : i < gate.tasks.length := (List.getElem?_eq_some_iff.mp hbefore).1
  rw [goto, replace, List.getElem?_set]
  by_cases hij : i = j
  · rw [if_pos hij, if_pos hij, if_pos hlt]
  · rw [if_neg hij, if_neg hij]

theorem count_pos_iff : 0 < gate.count task ↔ ∃ i : Nat, gate.tasks[i]? = some task := by
  rw [count, List.countP_pos_iff]
  constructor
  · rintro ⟨other, hmem, hother⟩
    rw [← of_decide_eq_true hother]
    exact List.mem_iff_getElem?.mp hmem
  · rintro ⟨i, hi⟩
    exact ⟨task, List.mem_of_getElem? hi, decide_eq_true rfl⟩

theorem waiter_parked {preferred : Nat} (h : gate.waiter preferred = some j) : gate.tasks[j]? = some .parked := by
  rw [waiter] at h
  split_ifs at h with hpreferred
  · rw [← Option.some.inj h]
    exact hpreferred
  · obtain ⟨hlt, hparked, -⟩ := List.findIdx?_eq_some_iff_getElem.mp h
    rw [List.getElem?_eq_getElem hlt, of_decide_eq_true hparked]

/-- `notify_one` finds a waiting task when there is one. -/
theorem waiter_none {preferred : Nat} (h : gate.waiter preferred = none) : gate.count .parked = 0 := by
  rw [waiter] at h
  split_ifs at h
  rw [List.findIdx?_eq_none_iff] at h
  refine Nat.eq_zero_of_not_pos fun hpos => ?_
  obtain ⟨i, hi⟩ := count_pos_iff.mp hpos
  have hnot := h _ (List.mem_of_getElem? hi)
  exact of_decide_eq_false hnot rfl

/-- A task that was waiting nowhere moves on, and the slots are as they were. -/
theorem Accounted.goto (h : gate.Accounted permits) (hbefore : gate.tasks[i]? = some before)
    (hholding : before = .holding ↔ task = .holding) (hwoken : before = .woken → gate.available = 0)
    (hparked : task = .parked → gate.available = 0) : (gate.goto i task).Accounted permits := by
  have hholds := count_goto hbefore task .holding
  have hparks := count_goto hbefore task .parked
  have hwakes := count_goto hbefore task .woken
  refine ⟨?_, fun hpos => ?_⟩
  · have hslots := h.slots
    simp only [hholding] at hholds
    rw [show (gate.goto i task).available = gate.available from rfl]
    omega
  · rw [show (gate.goto i task).available = gate.available from rfl]
    by_cases hzero : gate.available = 0
    · omega
    · rw [if_neg fun hat => hzero (hwoken hat)] at hwakes
      rw [if_neg fun hat => hzero (hparked hat)] at hparks
      have hheard := h.heard (by omega)
      omega

/-- A turn at the mutex. -/
theorem Accounted.take (h : gate.Accounted permits) (hbefore : gate.tasks[i]? = some before)
    (hholding : before ≠ .holding) (hparked : before ≠ .parked) {busy : GateTask} (hbusy : busy ≠ .holding) :
    (gate.take i busy).Accounted permits := by
  rw [LlmGate.take]
  by_cases hzero : gate.available = 0
  · rw [if_pos hzero]
    exact h.goto hbefore (iff_of_false hholding hbusy) (fun _ => hzero) fun _ => hzero
  · rw [if_neg hzero]
    have hholds := count_goto hbefore .holding .holding
    have hparks := count_goto hbefore .holding .parked
    have hwakes := count_goto hbefore .holding .woken
    rw [if_neg hholding, if_pos rfl] at hholds
    rw [if_neg hparked, if_neg nofun] at hparks
    rw [if_neg (c := GateTask.holding = .woken) nofun] at hwakes
    have hslots := h.slots
    refine ⟨?_, fun hpos => ?_⟩
    · show gate.available - 1 + (gate.goto i .holding).count .holding = _
      omega
    · have hheard := h.heard (by change 0 < (gate.goto i .holding).count .parked at hpos; omega)
      show gate.available - 1 ≤ (gate.goto i .holding).count .woken
      split_ifs at hwakes <;> omega

/-- A drop frees a slot and notifies a waiting task of it. -/
theorem Accounted.drop (h : gate.Accounted permits) (hbefore : gate.tasks[i]? = some .holding) (preferred : Nat) :
    ({ gate.goto i .idle with available := gate.available + 1 }.notifyOne preferred).Accounted permits := by
  have hholds := count_goto hbefore .idle .holding
  have hparks := count_goto hbefore .idle .parked
  have hwakes := count_goto hbefore .idle .woken
  rw [if_pos rfl, if_neg nofun] at hholds
  rw [if_neg nofun, if_neg nofun] at hparks hwakes
  have hslots := h.slots
  set freed : LlmGate := { gate.goto i .idle with available := gate.available + 1 } with hfreed
  have hfreedHolding : freed.count .holding = (gate.goto i .idle).count .holding := rfl
  have hfreedParked : freed.count .parked = (gate.goto i .idle).count .parked := rfl
  have hfreedWoken : freed.count .woken = (gate.goto i .idle).count .woken := rfl
  have hfreedAvailable : freed.available = gate.available + 1 := rfl
  cases hwaiter : freed.waiter preferred with
  | none =>
      rw [notifyOne, hwaiter]
      dsimp only
      have hnone := waiter_none hwaiter
      exact ⟨by omega, fun hpos => absurd hpos (by omega)⟩
  | some j =>
      rw [notifyOne, hwaiter]
      dsimp only
      have hparked := waiter_parked hwaiter
      have hnextHolds := count_goto hparked .woken .holding
      have hnextParks := count_goto hparked .woken .parked
      have hnextWakes := count_goto hparked .woken .woken
      rw [if_neg nofun, if_neg nofun] at hnextHolds
      rw [if_pos rfl, if_neg nofun] at hnextParks
      rw [if_neg nofun, if_pos rfl] at hnextWakes
      have hnextAvailable : (freed.goto j .woken).available = freed.available := rfl
      have hheard := h.heard (by omega)
      exact ⟨by omega, fun _ => by omega⟩

theorem accounted_new (permits : Nat) : (new permits).Accounted permits := ⟨rfl, nofun⟩

theorem Accounted.step (h : gate.Accounted permits) (act : Act) : (gate.step act).Accounted permits := by
  cases act with
  | spawn =>
      have hcount (task : GateTask) (hne : task ≠ .idle) : (gate.step .spawn).count task = gate.count task := by
        simp [LlmGate.step, count, hne.symm]
      refine ⟨?_, ?_⟩
      · rw [hcount .holding nofun]
        exact h.slots
      · rw [hcount .parked nofun, hcount .woken nofun]
        exact h.heard
  | tryAcquire i =>
      rw [LlmGate.step]
      split_ifs with hidle
      · exact h.take hidle nofun nofun nofun
      · exact h
  | acquire i =>
      rw [LlmGate.step]
      split_ifs with hidle
      · exact h.goto hidle (iff_of_false nofun nofun) nofun nofun
      · exact h
  | turn i =>
      rw [LlmGate.step]
      split_ifs with hturn
      · rcases hturn with hacquiring | hwoken
        · exact h.take hacquiring nofun nofun nofun
        · exact h.take hwoken nofun nofun nofun
      · exact h
  | drop i preferred =>
      rw [LlmGate.step]
      split_ifs with hholding
      · exact h.drop hholding preferred
      · exact h

theorem accounted_run (permits : Nat) (acts : List Act) : ((machine permits).run acts).Accounted permits :=
  (machine permits).invariant (accounted_new permits) (fun _ act h => h.step act) acts

/-- The task is somewhere in a call of `acquire`. -/
def Waits (task : GateTask) : Prop := task = .acquiring ∨ task = .parked ∨ task = .woken

/-- A task at the mutex takes the slot that is free. -/
theorem turn_holds (hfree : gate.available ≠ 0)
    (hturn : gate.tasks[i]? = some .acquiring ∨ gate.tasks[i]? = some .woken) :
    (gate.step (.turn i)).tasks[i]? = some .holding ∧ ∀ j ≠ i, (gate.step (.turn i)).tasks[j]? = gate.tasks[j]? := by
  obtain ⟨before, hbefore⟩ : ∃ before, gate.tasks[i]? = some before := by
    rcases hturn with hat | hat <;> exact ⟨_, hat⟩
  rw [step, if_pos hturn, take, if_neg hfree]
  refine ⟨?_, fun j hj => ?_⟩
  · exact (getElem?_goto hbefore .holding i).trans (if_pos rfl)
  · exact (getElem?_goto hbefore .holding j).trans (if_neg hj.symm)

/-- A drop frees a slot, wakes the task it prefers when that waits, and leaves the tasks at the mutex there. -/
theorem drop_wakes (hholding : gate.tasks[j]? = some .holding) (hne : i ≠ j) :
    (gate.step (.drop j i)).available ≠ 0 ∧
      (gate.tasks[i]? = some .parked → (gate.step (.drop j i)).tasks[i]? = some .woken) ∧
      (gate.tasks[i]? ≠ some .parked → (gate.step (.drop j i)).tasks[i]? = gate.tasks[i]?) := by
  rw [step, if_pos hholding]
  set freed : LlmGate := { gate.goto j .idle with available := gate.available + 1 } with hfreed
  have hsame : freed.tasks[i]? = gate.tasks[i]? := (getElem?_goto hholding .idle i).trans (if_neg hne.symm)
  have hnotified : (freed.notifyOne i).available = gate.available + 1 := by
    rw [notifyOne]
    cases freed.waiter i <;> rfl
  refine ⟨by omega, fun hparked => ?_, fun hparked => ?_⟩
  · have hwaiter : freed.waiter i = some i := by
      rw [waiter, if_pos (hsame.trans hparked)]
    rw [notifyOne, hwaiter]
    exact (getElem?_goto (hsame.trans hparked) .woken i).trans (if_pos rfl)
  · rw [notifyOne]
    cases hwaiter : freed.waiter i with
    | none => exact hsame
    | some k =>
        have hki : k ≠ i := by
          rintro rfl
          exact hparked (hsame.symm.trans (waiter_parked hwaiter))
        exact (getElem?_goto (waiter_parked hwaiter) .woken i).trans ((if_neg hki).trans hsame)

/-- Who holds a slot can hand it to a task in `acquire` in two steps. -/
theorem hand_on (hholding : gate.tasks[j]? = some .holding) (hat : gate.tasks[i]? = some task) (hwaits : Waits task) :
    ((gate.step (.drop j i)).step (.turn i)).tasks[i]? = some .holding := by
  have hne : i ≠ j := by
    rintro rfl
    rw [hat] at hholding
    rw [Option.some.inj hholding] at hwaits
    exact absurd hwaits (by simp [Waits])
  obtain ⟨hfree, hparked, hother⟩ := drop_wakes hholding hne
  refine (turn_holds hfree ?_).1
  rcases hwaits with rfl | rfl | rfl
  · exact Or.inl ((hother (by rw [hat]; nofun)).trans hat)
  · exact Or.inr (hparked hat)
  · exact Or.inr ((hother (by rw [hat]; nofun)).trans hat)

/-- A task in `acquire` is at most three steps away from a permit. -/
theorem Accounted.soon (h : gate.Accounted permits) (hat : gate.tasks[i]? = some task) (hwaits : Waits task) :
    ∃ more : List Act, more.length ≤ 3 ∧ (more.foldl LlmGate.step gate).tasks[i]? = some .holding := by
  by_cases hfree : gate.available = 0
  · have hslots := h.slots
    obtain ⟨j, hj⟩ := count_pos_iff.mp (show 0 < gate.count .holding by omega)
    exact ⟨[.drop j i, .turn i], by simp, hand_on hj hat hwaits⟩
  · rcases hwaits with rfl | rfl | rfl
    · exact ⟨[.turn i], by simp, (turn_holds hfree (Or.inl hat)).1⟩
    · -- the slot that is free was announced to someone else, who takes it and hands it on
      have hheard := h.heard (count_pos_iff.mpr ⟨i, hat⟩)
      obtain ⟨k, hk⟩ := count_pos_iff.mp (show 0 < gate.count .woken by omega)
      have hik : i ≠ k := by
        rintro rfl
        rw [hk] at hat
        cases hat
      obtain ⟨hheld, hother⟩ := turn_holds hfree (Or.inr hk)
      have hstill : (gate.step (.turn k)).tasks[i]? = some .parked := (hother i hik).trans hat
      exact ⟨[.turn k, .drop k i, .turn i], by simp, hand_on hheld hstill (Or.inr (Or.inl rfl))⟩
    · exact ⟨[.turn i], by simp, (turn_holds hfree (Or.inr hat)).1⟩

/-- In every run the permits that are out and the free slots make up the gate's size, a free slot never goes unnoticed
by the tasks that wait for one, and from every state each task in `acquire` can have its permit in three steps. -/
theorem permits_handed_on (permits : Nat) (acts : List Act) :
    ((machine permits).run acts).available + ((machine permits).run acts).count .holding = max permits 1 ∧
      (0 < ((machine permits).run acts).count .parked →
        ((machine permits).run acts).available ≤ ((machine permits).run acts).count .woken) ∧
      ∀ (i : Nat) (task : GateTask), ((machine permits).run acts).tasks[i]? = some task → Waits task →
        ∃ more : List Act, more.length ≤ 3 ∧
          ((machine permits).run (acts ++ more)).tasks[i]? = some .holding := by
  have haccounted := accounted_run permits acts
  refine ⟨haccounted.slots, haccounted.heard, fun i task hat hwaits => ?_⟩
  obtain ⟨more, hlength, hheld⟩ := haccounted.soon hat hwaits
  refine ⟨more, hlength, ?_⟩
  rw [Machine.run, List.foldl_append]
  exact hheld

/-- A task that barges in at the mutex sends the one that was woken back to wait. -/
example : (((machine 1).run [.spawn, .spawn, .spawn, .tryAcquire 0, .acquire 1, .turn 1, .drop 0 1, .tryAcquire 2,
    .turn 1]).tasks, ((machine 1).run [.spawn]).available) = ([.idle, .parked, .holding], 1) := by
  decide

end LlmGate
end TinyCortex.Queue
