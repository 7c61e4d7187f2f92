import TinyCortex.Sync.Orchestrator

/-! Page sizes (`sync/composio/page_size.rs`, the retry loop of `run_pages`): a page that the provider refuses for its
size is asked for again with half the size. -/

namespace TinyCortex.Sync

/-! ### The request budget -/

structure DailyBudget where
  date : String
  requestsUsed : Nat
  limit : Nat
  deriving DecidableEq

namespace DailyBudget

def remaining (budget : DailyBudget) (today : String) : Nat :=
  if budget.date ≠ today then budget.limit else budget.limit - budget.requestsUsed

def isExhausted (budget : DailyBudget) (today : String) : Bool := budget.remaining today = 0

def recordRequests (budget : DailyBudget) (today : String) (count : Nat) : DailyBudget :=
  let used := if budget.date ≠ today then 0 else budget.requestsUsed
  { budget with date := today, requestsUsed := min (used + count) (2 ^ 32 - 1) }

end DailyBudget

/-- The requests of the day and those of the run. -/
structure Spending where
  daily : DailyBudget
  runRequests : Nat
  deriving DecidableEq

def Spending.recordRequests (spending : Spending) (today : String) (count : Nat) : Spending :=
  ⟨spending.daily.recordRequests today count, min (spending.runRequests + count) (2 ^ 32 - 1)⟩

/-! ### Arguments -/

/-- An argument: a natural number, or another JSON value. -/
inductive Argument (β : Type)
  | natural (n : Nat)
  | other (value : β)
  deriving DecidableEq

/-- The arguments of a request: an object by its keys, or another JSON value. -/
inductive Arguments (β : Type)
  | object (fields : OrderedMap String (Argument β))
  | other (value : β)
  deriving DecidableEq

section Arguments

variable {β : Type}

def Arguments.get (arguments : Arguments β) (key : String) : Option (Argument β) :=
  match arguments with
  | .object fields => OrderedMap.get fields key
  | .other _ => none

def Arguments.set (arguments : Arguments β) (key : String) (n : Nat) : Arguments β :=
  match arguments with
  | .object fields => .object (fields.insert key (.natural n))
  | .other value => .other value

def minPageSize : Nat := 1

/-- The page size of a request, `as_u64` of the argument under the key. -/
def pageSize (key : Option String) (arguments : Arguments β) : Option Nat :=
  match key.bind arguments.get with
  | some (.natural n) => some n
  | _ => none

/-- Pin the page size, if the arguments have one. -/
def applyPageSize (arguments : Arguments β) (key : Option String) (size : Option Nat) : Arguments β :=
  match key, size with
  | some key, some size => if (arguments.get key).isSome then arguments.set key size else arguments
  | _, _ => arguments

/-- Halve the page size; `none` at the floor and without a page size. -/
def shrinkPageSize (arguments : Arguments β) (key : Option String) : Option (Arguments β × Nat) :=
  match key, pageSize key arguments with
  | some key, some current =>
      if current ≤ minPageSize then none
      else
        let reduced := max (current / 2) minPageSize
        some (arguments.set key reduced, reduced)
  | _, _ => none

/-! ### Refusals for size -/

def toAsciiLowercase (text : String) : List Char := text.toList.map Char.toLower

def contains (text : List Char) (part : String) : Bool := decide (part.toList <:+: text)

/-- The number 413 stands somewhere without a digit beside it. -/
def mentionsStatus413 (lower : List Char) : Bool :=
  (List.range lower.length).any fun pos =>
    "413".toList.isPrefixOf (lower.drop pos) &&
      !((lower.take pos).getLast?.any Char.isDigit) && !((lower.drop (pos + 3)).head?.any Char.isDigit)

def isPayloadTooLarge (error : Option String) : Bool :=
  error.any fun error =>
    let lower := toAsciiLowercase error
    contains lower "payloadtoolarge" || contains lower "payload_too_large" || mentionsStatus413 lower ||
      (contains lower "too large" && (contains lower "payload" || contains lower "response"))

/-! ### The retry loop -/

/-- What an execution of the action comes to: a response, or a failure with the attempts that it names. -/
inductive Answer
  | response (successful : Bool) (error : Option String) (attempts : Nat)
  | failure (attempts : Option Nat)
  deriving DecidableEq

/-- An answer, with the days on which it is recorded and on which the budget is then looked at. -/
structure Received where
  answer : Answer
  recordedOn : String
  checkedOn : String
  deriving DecidableEq

/-- The requests that are recorded for an answer. -/
def Answer.requests : Answer → Nat
  | .response _ _ attempts => max attempts 1
  | .failure attempts => attempts.getD 0

/-- What is recorded for an answer. -/
def Spending.received (spending : Spending) (received : Received) : Spending :=
  match received.answer with
  | .response _ _ attempts => spending.recordRequests received.recordedOn (max attempts 1)
  | .failure (some attempts) => spending.recordRequests received.recordedOn attempts
  | .failure none => spending

/-- How the retry loop is left. -/
inductive Exit
  | accepted
  | scopeFailed
  | failed
  | exhausted
  deriving DecidableEq

/-- The requests of a page with their answers, in order, how it ended, the size that a shrink has tried last, and the
spending after it. -/
structure Fetch (β : Type) where
  requests : List (Arguments β)
  answers : List Received
  exit : Exit
  attemptedPageSize : Option Nat
  spending : Spending

theorem pageSize_set {arguments : Arguments β} {key : String} (h : (arguments.get key).isSome) (n : Nat) :
    pageSize (some key) (arguments.set key n) = some n := by
  cases arguments with
  | object fields => simp [pageSize, Arguments.set, Arguments.get, OrderedMap.get_insert]
  | other value => cases h

theorem isSome_of_pageSize {arguments : Arguments β} {key : String} {n : Nat}
    (h : pageSize (some key) arguments = some n) : (arguments.get key).isSome := by
  unfold pageSize at h
  rw [Option.bind_some] at h
  cases hget : arguments.get key with
  | none =>
      rw [hget] at h
      cases h
  | some argument => rfl

/-- A shrink asks for less, and for one item at least. -/
theorem shrinkPageSize_spec {arguments smaller : Arguments β} {key : Option String} {reduced : Nat}
    (h : shrinkPageSize arguments key = some (smaller, reduced)) :
    ∃ current, pageSize key arguments = some current ∧ pageSize key smaller = some reduced ∧ minPageSize ≤ reduced ∧
      reduced < current := by
  unfold shrinkPageSize at h
  split at h
  · rename_i key current hsize
    split_ifs at h with hfloor
    obtain ⟨rfl, rfl⟩ := Prod.mk.inj (Option.some.inj h)
    unfold minPageSize at hfloor ⊢
    refine ⟨current, hsize, pageSize_set (isSome_of_pageSize hsize) _, le_max_right _ _, ?_⟩
    omega
  · cases h

variable (key : Option String) (tolerateScopeErrors : Bool)

/-- Ask for a page until the provider accepts it, fails otherwise, or cannot be asked for less. -/
def fetchPage (answers : Nat → Received) (arguments : Arguments β) (attempted : Option Nat) (spending : Spending) :
    Fetch β :=
  let received := answers 0
  let spending := spending.received received
  let leave (exit : Exit) : Fetch β := ⟨[arguments], [received], exit, attempted, spending⟩
  let failed : Fetch β := leave (if tolerateScopeErrors then .scopeFailed else .failed)
  match received.answer with
  | .failure _ => failed
  | .response successful error _ =>
      if successful then leave .accepted
      else if isPayloadTooLarge error then
        if spending.daily.isExhausted received.checkedOn then leave .exhausted
        else
          match h : shrinkPageSize arguments key with
          | some (smaller, reduced) =>
              let rest := fetchPage (fun n => answers (n + 1)) smaller (some reduced) spending
              { rest with requests := arguments :: rest.requests, answers := received :: rest.answers }
          | none => failed
      else failed
termination_by (pageSize key arguments).getD 0
decreasing_by
  obtain ⟨current, hcurrent, hreduced, -, hlt⟩ := shrinkPageSize_spec h
  rw [hcurrent, hreduced]
  exact hlt

/-- What the loop does with one answer: it is left, or goes on with a smaller page. -/
theorem fetchPage_cases (answers : Nat → Received) (arguments : Arguments β) (attempted : Option Nat)
    (spending : Spending) :
    (∃ exit, fetchPage key tolerateScopeErrors answers arguments attempted spending =
        ⟨[arguments], [answers 0], exit, attempted, spending.received (answers 0)⟩ ∧
      (exit = .accepted ↔ ∃ error attempts, (answers 0).answer = .response true error attempts)) ∨
    ∃ smaller reduced rest, shrinkPageSize arguments key = some (smaller, reduced) ∧
      (∃ error attempts, (answers 0).answer = .response false error attempts) ∧
      rest = fetchPage key tolerateScopeErrors (fun n => answers (n + 1)) smaller (some reduced)
        (spending.received (answers 0)) ∧
      fetchPage key tolerateScopeErrors answers arguments attempted spending =
        { rest with requests := arguments :: rest.requests, answers := answers 0 :: rest.answers } := by
  have hnot : (if tolerateScopeErrors = true then Exit.scopeFailed else .failed) ≠ .accepted := by
    split_ifs <;> exact nofun
  rw [fetchPage]
  cases hanswer : (answers 0).answer with
  | failure attempts =>
      left
      exact ⟨_, Eq.refl _, iff_of_false hnot nofun⟩
  | response successful error attempts =>
      cases successful with
      | true =>
          left
          exact ⟨_, Eq.refl _, iff_of_true (Eq.refl _) ⟨error, attempts, Eq.refl _⟩⟩
      | false =>
          have hrefused : ¬∃ error' attempts', Answer.response false error attempts = .response true error' attempts' :=
            nofun
          dsimp only
          rw [if_neg Bool.false_ne_true]
          by_cases hlarge : isPayloadTooLarge error = true
          · rw [if_pos hlarge]
            by_cases hexhausted :
                (spending.received (answers 0)).daily.isExhausted (answers 0).checkedOn = true
            · rw [if_pos hexhausted]
              left
              exact ⟨_, Eq.refl _, iff_of_false nofun hrefused⟩
            · rw [if_neg hexhausted]
              split
              · rename_i smaller reduced hshrink
                right
                exact ⟨smaller, reduced, _, hshrink, ⟨error, attempts, Eq.refl _⟩, Eq.refl _, Eq.refl _⟩
              · left
                exact ⟨_, Eq.refl _, iff_of_false hnot hrefused⟩
          · rw [if_neg hlarge]
            left
            exact ⟨_, Eq.refl _, iff_of_false hnot hrefused⟩

variable {key tolerateScopeErrors}

/-- The second request is for a smaller page, of one item at least. -/
def Smaller (key : Option String) (request next : Arguments β) : Prop :=
  ∃ current reduced, pageSize key request = some current ∧ pageSize key next = some reduced ∧ minPageSize ≤ reduced ∧
    reduced < current

/-- What is known of the requests of a page, of their answers and of the spending. -/
structure Fetched (key : Option String) (answers : Nat → Received) (arguments : Arguments β) (attempted : Option Nat)
    (spending : Spending) (fetch : Fetch β) : Prop where
  first : ∃ rest, fetch.requests = arguments :: rest
  smaller : fetch.requests.IsChain (Smaller key)
  answered : fetch.answers = (List.range fetch.requests.length).map answers
  recorded : fetch.spending = fetch.answers.foldl Spending.received spending
  attempted : fetch.requests = [arguments] ∧ fetch.attemptedPageSize = attempted ∨
    ∃ init last size, fetch.requests = init ++ [last] ∧ init ≠ [] ∧ pageSize key last = some size ∧
      fetch.attemptedPageSize = some size

theorem fetched_fetchPage (answers : Nat → Received) (arguments : Arguments β) (attempted : Option Nat)
    (spending : Spending) :
    Fetched key answers arguments attempted spending
      (fetchPage key tolerateScopeErrors answers arguments attempted spending) := by
  induction hsize : (pageSize key arguments).getD 0 using Nat.strong_induction_on
    generalizing answers arguments attempted spending with
  | h size ih =>
      rcases fetchPage_cases key tolerateScopeErrors answers arguments attempted spending with
        ⟨exit, heq, -⟩ | ⟨smaller, reduced, rest, hshrink, -, hrest, heq⟩
      · rw [heq]
        exact ⟨⟨[], Eq.refl _⟩, .singleton _, Eq.refl _, Eq.refl _, Or.inl ⟨Eq.refl _, Eq.refl _⟩⟩
      · obtain ⟨current, hcurrent, hreduced, hfloor, hlt⟩ := shrinkPageSize_spec hshrink
        rw [hcurrent, Option.getD_some] at hsize
        have h := ih reduced (hsize ▸ hlt) (fun n => answers (n + 1)) smaller (some reduced)
          (spending.received (answers 0)) (by rw [hreduced, Option.getD_some])
        rw [← hrest] at h
        rw [heq]
        obtain ⟨more, hmore⟩ := h.first
        refine ⟨⟨rest.requests, Eq.refl _⟩, ?_, ?_, ?_, Or.inr ?_⟩
        · have hchain := h.smaller
          rw [hmore] at hchain ⊢
          exact .cons_cons ⟨current, reduced, hcurrent, hreduced, hfloor, hlt⟩ hchain
        · dsimp only
          rw [h.answered, List.length_cons, List.range_succ_eq_map, List.map_cons, List.map_map]
          exact Eq.refl _
        · dsimp only
          rw [h.recorded, List.foldl_cons]
        · dsimp only
          rcases h.attempted with ⟨hone, htried⟩ | ⟨init, last, size, hrequests, hne, hlast, htried⟩
          · exact ⟨[arguments], smaller, reduced, by rw [hone]; rfl, List.cons_ne_nil _ _, hreduced, htried⟩
          · exact ⟨arguments :: init, last, size, by rw [hrequests]; rfl, List.cons_ne_nil _ _, hlast, htried⟩

end Arguments

end TinyCortex.Sync
