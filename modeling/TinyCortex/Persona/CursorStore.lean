import TinyCortex.Lib.FrontMatter
import TinyCortex.Lib.JsonString
import TinyCortex.Lib.Machine
import TinyCortex.Lib.OrderedMap

/-! The cursors of the persona pipeline in one JSON file (`persona/state.rs`). A call of `set` changes the map under the
lock, but writes its snapshot after it has let go of the lock, so that the snapshots of calls that overlap may reach the
file in any order. -/

namespace TinyCortex.Persona.CursorStore

variable {Value : Type}

abbrev CursorMap (Value : Type) := OrderedMap String Value

/-- The JSON text of a map, which is read back. -/
structure JsonMap (Value : Type) where
  toVecPretty : CursorMap Value → List Char
  fromSlice : List Char → Option (CursorMap Value)
  fromSlice_toVecPretty : ∀ map, fromSlice (toVecPretty map) = some map

def composite (namespaceId key : String) : String := namespaceId ++ ":" ++ key

/-- A call of `set` that has changed the map: what it has set, its snapshot, and whether it returned `Ok`, once it has
returned. -/
structure Call (Value : Type) where
  key : String
  value : Value
  snapshot : CursorMap Value
  returned : Option Bool
  deriving DecidableEq

/-- The file, the map of the open store, and the calls of `set` in the order in which they had the lock. -/
structure Store (Value : Type) where
  file : Option (List Char)
  data : CursorMap Value
  calls : List (Call Value)

/-- A call takes the lock, the one at a position writes its snapshot or fails to and returns, or the store is opened
again. -/
inductive Label (Value : Type)
  | update (namespaceId key : String) (value : Value)
  | persist (i : Nat) (ok : Bool)
  | reopen

variable (json : JsonMap Value)

def load (file : Option (List Char)) : CursorMap Value := (file.bind json.fromSlice).getD []

/-- No set is in progress. -/
def Settled (store : Store Value) : Prop := ∀ call ∈ store.calls, call.returned ≠ none

instance (store : Store Value) : Decidable (Settled store) := inferInstanceAs (Decidable (∀ _ ∈ _, _))

def update (key : String) (value : Value) (store : Store Value) : Store Value :=
  let data := store.data.insert key value
  { store with data := data, calls := store.calls ++ [⟨key, value, data, none⟩] }

/-- The file is replaced as a whole, or stays as it is. -/
def persist (i : Nat) (ok : Bool) (store : Store Value) : Store Value :=
  match store.calls[i]? with
  | none => store
  | some call =>
      if call.returned = none then
        { store with
          file := if ok then some (json.toVecPretty call.snapshot) else store.file
          calls := store.calls.set i { call with returned := some ok } }
      else store

def step (store : Store Value) : Label Value → Store Value
  | .update namespaceId key value => update (composite namespaceId key) value store
  | .persist i ok => persist json i ok store
  | .reopen => if Settled store then { store with data := load json store.file } else store

def machine (file : Option (List Char)) : Machine (Store Value) (Label Value) := ⟨⟨file, load json file, []⟩, step json⟩

/-! ### The last calls -/

/-- The call at a position is the last one of its key up to another position. -/
def LastUpTo (calls : List (Call Value)) (i j : Nat) (call : Call Value) : Prop :=
  i ≤ j ∧ calls[i]? = some call ∧ ∀ n other, i < n → n ≤ j → calls[n]? = some other → other.key ≠ call.key

/-- Once no set is in progress, the store that is opened from the file has each key whose last set returned `Ok`. -/
def NothingLost (store : Store Value) : Prop :=
  Settled store → ∀ i call, LastUpTo store.calls i store.calls.length call → call.returned = some true →
    (load json store.file).get call.key = some call.value

/-- A snapshot is written only while none of a later call has been. -/
def InOrder (store : Store Value) : Label Value → Prop
  | .persist i true => ∀ j call, i < j → store.calls[j]? = some call → call.returned ≠ some true
  | _ => True

/-- What the calls have left behind: a snapshot has the last value of each key up to its call, unless the call that set it
has failed; the map has it too; and the file is the last snapshot that was written. -/
structure Consistent (store : Store Value) : Prop where
  snapshots : ∀ j later, store.calls[j]? = some later → ∀ i call, LastUpTo store.calls i j call →
    call.returned ≠ some false → later.snapshot.get call.key = some call.value
  data : ∀ i call, LastUpTo store.calls i store.calls.length call → call.returned ≠ some false →
    store.data.get call.key = some call.value
  file : ∀ (j : Nat) (later : Call Value), store.calls[j]? = some later → later.returned = some true →
    (∀ (n : Nat) (other : Call Value), j < n → store.calls[n]? = some other → other.returned ≠ some true) →
    load json store.file = later.snapshot

variable {json} {store : Store Value}

theorem load_toVecPretty (map : CursorMap Value) : load json (some (json.toVecPretty map)) = map := by
  rw [load, Option.bind_some, json.fromSlice_toVecPretty, Option.getD_some]

/-- The file holds what the last call of a key has set, if that call returned `Ok`. -/
theorem Consistent.get_load (h : Consistent json store) {i : Nat} {call : Call Value}
    (hlast : LastUpTo store.calls i store.calls.length call) (hok : call.returned = some true) :
    (load json store.file).get call.key = some call.value := by
  classical
  obtain ⟨hle, hcall, hothers⟩ := hlast
  -- The last snapshot that was written is not older than this call.
  let written (n : Nat) : Prop := ∃ other : Call Value, store.calls[n]? = some other ∧ other.returned = some true
  have hwritten : written i := ⟨call, hcall, hok⟩
  obtain ⟨later, hlater, hreturned⟩ := Nat.findGreatest_spec (P := written) hle hwritten
  have hbound := Nat.findGreatest_le (P := written) store.calls.length
  have hnewest : ∀ (n : Nat) (other : Call Value), Nat.findGreatest written store.calls.length < n →
      store.calls[n]? = some other → other.returned ≠ some true := by
    intro n other hn hother htrue
    have hlength : n ≤ store.calls.length := (List.getElem?_eq_some_iff.mp hother).1.le
    exact Nat.findGreatest_is_greatest hn hlength ⟨other, hother, htrue⟩
  rw [h.file _ later hlater hreturned hnewest]
  refine h.snapshots _ later hlater i call ⟨Nat.le_findGreatest hle hwritten, hcall, ?_⟩ (by simp [hok])
  exact fun n other hn hnle => hothers n other hn (hnle.trans hbound)

theorem Consistent.nothingLost (h : Consistent json store) : NothingLost json store :=
  fun _ _ _ hlast hok => h.get_load hlast hok

theorem consistent_start (file : Option (List Char)) : Consistent json (machine json file).start := by
  refine ⟨fun j later hlater => ?_, fun i call hlast => ?_, fun j later hlater => ?_⟩
  · cases hlater
  · cases hlast.2.1
  · cases hlater

/-! ### One step -/

theorem getElem?_concat_cases {calls : List (Call Value)} {new call : Call Value} {n : Nat}
    (h : (calls ++ [new])[n]? = some call) : calls[n]? = some call ∧ n < calls.length ∨ n = calls.length ∧ call = new := by
  have hlength := (List.getElem?_eq_some_iff.mp h).1
  rw [List.length_append, List.length_singleton] at hlength
  by_cases hn : n < calls.length
  · rw [List.getElem?_append_left hn] at h
    exact Or.inl ⟨h, hn⟩
  · have heq : n = calls.length := by omega
    subst heq
    rw [List.getElem?_concat_length, Option.some.injEq] at h
    exact Or.inr ⟨Eq.refl _, h.symm⟩

theorem consistent_update (h : Consistent json store) (key : String) (value : Value) :
    Consistent json (update key value store) := by
  let new : Call Value := ⟨key, value, store.data.insert key value, none⟩
  -- The new map has the value of the new call and, of every other key, the value of its last call.
  have hdata : ∀ (j i : Nat) (call : Call Value), store.calls.length ≤ j → LastUpTo (store.calls ++ [new]) i j call →
      call.returned ≠ some false → (store.data.insert key value).get call.key = some call.value := by
    intro j i call hj hlast hreturned
    obtain ⟨-, hcall, hothers⟩ := hlast
    rcases getElem?_concat_cases hcall with ⟨hold, hi⟩ | ⟨-, rfl⟩
    · have hkey : key ≠ call.key := hothers store.calls.length new hi hj List.getElem?_concat_length
      rw [OrderedMap.get_insert, if_neg hkey]
      refine h.data i call ⟨hi.le, hold, fun n other hn hnle hother => ?_⟩ hreturned
      have hlength := (List.getElem?_eq_some_iff.mp hother).1
      exact hothers n other hn (hnle.trans hj) (by rw [List.getElem?_append_left hlength, hother])
    · rw [OrderedMap.get_insert, if_pos (Eq.refl _)]
  refine ⟨fun j later hlater i call hlast hreturned => ?_, fun i call hlast hreturned => ?_,
    fun j later hlater hok hothers => ?_⟩
  · rcases getElem?_concat_cases hlater with ⟨hold, hj⟩ | ⟨rfl, rfl⟩
    · obtain ⟨hle, hcall, hothers⟩ := hlast
      have hcall' : store.calls[i]? = some call := by
        rwa [update, List.getElem?_append_left (hle.trans_lt hj)] at hcall
      refine h.snapshots j later hold i call ⟨hle, hcall', fun n other hn hnle hother => ?_⟩ hreturned
      have hlength := (List.getElem?_eq_some_iff.mp hother).1
      exact hothers n other hn hnle (by rw [update, List.getElem?_append_left hlength, hother])
    · exact hdata _ i call le_rfl hlast hreturned
  · refine hdata _ i call ?_ hlast hreturned
    rw [update, List.length_append]
    omega
  · rcases getElem?_concat_cases hlater with ⟨hold, -⟩ | ⟨-, rfl⟩
    · refine h.file j later hold hok fun n other hn hother => ?_
      have hlength := (List.getElem?_eq_some_iff.mp hother).1
      exact hothers n other hn (by rw [update, List.getElem?_append_left hlength, hother])
    · cases hok

/-- Calls with the same keys, values and snapshots, none of which has taken back a failure. -/
def Returned (calls calls' : List (Call Value)) : Prop :=
  calls'.length = calls.length ∧ ∀ (n : Nat) (call' : Call Value), calls'[n]? = some call' →
    ∃ call : Call Value, calls[n]? = some call ∧ call.key = call'.key ∧ call.value = call'.value ∧
      call.snapshot = call'.snapshot ∧ (call'.returned ≠ some false → call.returned ≠ some false)

theorem returned_set {calls : List (Call Value)} {i : Nat} {call : Call Value} (hcall : calls[i]? = some call)
    (hrunning : call.returned = none) (ok : Bool) : Returned calls (calls.set i { call with returned := some ok }) := by
  refine ⟨List.length_set, fun n call' hcall' => ?_⟩
  by_cases hn : i = n
  · subst hn
    rw [List.getElem?_set_self (List.getElem?_eq_some_iff.mp hcall).1, Option.some.injEq] at hcall'
    subst hcall'
    exact ⟨call, hcall, Eq.refl _, Eq.refl _, Eq.refl _, fun _ => by simp [hrunning]⟩
  · rw [List.getElem?_set_ne hn] at hcall'
    exact ⟨call', hcall', Eq.refl _, Eq.refl _, Eq.refl _, id⟩

/-- A last call was one before it returned. -/
theorem Returned.lastUpTo {calls calls' : List (Call Value)} (h : Returned calls calls') {i j : Nat} {call' : Call Value}
    (hlast : LastUpTo calls' i j call') (hreturned : call'.returned ≠ some false) :
    ∃ call : Call Value, LastUpTo calls i j call ∧ call.returned ≠ some false ∧ call.key = call'.key ∧
      call.value = call'.value := by
  obtain ⟨hle, hcall', hothers⟩ := hlast
  obtain ⟨call, hcall, hkey, hvalue, -, hback⟩ := h.2 i call' hcall'
  refine ⟨call, ⟨hle, hcall, fun n other hn hnle hother => ?_⟩, hback hreturned, hkey, hvalue⟩
  have hlength : n < calls'.length := h.1 ▸ (List.getElem?_eq_some_iff.mp hother).1
  have hother' := List.getElem?_eq_getElem hlength
  obtain ⟨before, hbefore, hbeforeKey, -⟩ := h.2 n _ hother'
  rw [hother, Option.some.injEq] at hbefore
  rw [hbefore, hkey, hbeforeKey]
  exact hothers n _ hn hnle hother'

theorem consistent_persist (h : Consistent json store) {i : Nat} {ok : Bool}
    (horder : InOrder store (.persist i ok)) : Consistent json (persist json i ok store) := by
  unfold persist
  cases hcall : store.calls[i]? with
  | none => exact h
  | some call =>
      dsimp only
      by_cases hrunning : call.returned = none
      · rw [if_pos hrunning]
        have hback := returned_set hcall hrunning ok
        have hself : (store.calls.set i { call with returned := some ok })[i]? =
            some { call with returned := some ok } :=
          List.getElem?_set_self (List.getElem?_eq_some_iff.mp hcall).1
        refine ⟨fun j later' hlater' n call' hlast hreturned => ?_, fun n call' hlast hreturned => ?_,
          fun j later' hlater' hok hothers => ?_⟩
        · obtain ⟨later, hlater, -, -, hsnapshot, -⟩ := hback.2 j later' hlater'
          obtain ⟨before, hbefore, hbeforeReturned, hkey, hvalue⟩ := hback.lastUpTo hlast hreturned
          rw [← hsnapshot, ← hkey, ← hvalue]
          exact h.snapshots j later hlater n before hbefore hbeforeReturned
        · obtain ⟨before, hbefore, hbeforeReturned, hkey, hvalue⟩ := hback.lastUpTo hlast hreturned
          rw [← hkey, ← hvalue]
          rw [hback.1] at hbefore
          exact h.data n before hbefore hbeforeReturned
        · by_cases hj : i = j
          · -- The snapshot that is written now.
            subst hj
            rw [hself, Option.some.injEq] at hlater'
            subst hlater'
            obtain rfl : ok = true := Option.some.inj hok
            exact load_toVecPretty call.snapshot
          · have hlater := hlater'
            rw [List.getElem?_set_ne hj] at hlater
            cases ok with
            | true =>
                -- It is the last one that is written.
                rcases Nat.lt_or_gt_of_ne hj with hlt | hgt
                · exact absurd hok (horder j later' hlt hlater)
                · exact absurd (Eq.refl _) (hothers i _ hgt hself)
            | false =>
                refine h.file j later' hlater hok fun n other hn hother => ?_
                by_cases hni : i = n
                · subst hni
                  rw [hcall, Option.some.injEq] at hother
                  rw [← hother, hrunning]
                  exact (Option.some_ne_none true).symm
                · exact hothers n other hn (by rwa [List.getElem?_set_ne hni])
      · rw [if_neg hrunning]
        exact h

theorem consistent_step (h : Consistent json store) {label : Label Value} (horder : InOrder store label) :
    Consistent json (step json store label) := by
  cases label with
  | update namespaceId key value => exact consistent_update h _ value
  | persist i ok => exact consistent_persist h horder
  | reopen =>
      unfold step
      by_cases hsettled : Settled store
      · rw [if_pos hsettled]
        refine ⟨h.snapshots, fun i call hlast hreturned => ?_, h.file⟩
        have hok : call.returned = some true := by
          have hdone := hsettled call (List.mem_of_getElem? hlast.2.1)
          cases hcase : call.returned with
          | none => exact absurd hcase hdone
          | some ok =>
              cases ok with
              | true => rfl
              | false => exact absurd hcase hreturned
        exact h.get_load hlast hok
      · rw [if_neg hsettled]
        exact h

/-- In a run that replaces the file in the order of the calls, no set that returned `Ok` is lost. -/
theorem nothingLost_run (json : JsonMap Value) (file : Option (List Char)) (labels : List (Label Value))
    (horder : (machine json file).AllSteps InOrder labels) : (machine json file).Throughout (NothingLost json) labels :=
  (machine json file).throughout_of_steps (consistent_start file) (fun _ _ h hlabel => consistent_step h hlabel)
    (fun _ h => h.nothingLost) horder

/-! ### Maps of flags -/

def flagText (value : Bool) : List Char := if value then ": true".toList else ": false".toList

def entryLine (entry : String × Bool) : List Char := "  ".toList ++ (JsonString.encode entry.1.toList ++ flagText entry.2)

/-- All lines but the last end in a comma. -/
def entryLines : CursorMap Bool → List (List Char)
  | [] => []
  | [entry] => [entryLine entry]
  | entry :: rest => (entryLine entry ++ [',']) :: entryLines rest

def flagLines (map : CursorMap Bool) : List (List Char) :=
  if map = [] then ["\x7b\x7d".toList] else "\x7b".toList :: entryLines map ++ ["\x7d".toList]

def parseEntry (line : List Char) : Option (String × Bool) :=
  let body := (line.dropSuffix? [',']).getD line
  (body.dropPrefix? "  ".toList).bind fun rest =>
    match rest.dropSuffix? (flagText true) with
    | some key => (JsonString.decode key).map fun key => (String.ofList key, true)
    | none => (rest.dropSuffix? (flagText false)).bind fun key =>
        (JsonString.decode key).map fun key => (String.ofList key, false)

theorem parseEntry_entryLine (entry : String × Bool) :
    parseEntry (entryLine entry) = some entry ∧ parseEntry (entryLine entry ++ [',']) = some entry := by
  obtain ⟨key, value⟩ := entry
  have hbare : (entryLine (key, value)).dropSuffix? [','] = none := by
    cases hdrop : (entryLine (key, value)).dropSuffix? [','] with
    | none => rfl
    | some front =>
        obtain ⟨comma, htext, hcomma⟩ := List.dropSuffix?_eq_some_iff.mp hdrop
        rw [eq_of_beq hcomma] at htext
        have hword : ∀ value, flagText value ≠ [] ∧ (flagText value).getLast? = some 'e' := by decide
        have hlast := congrArg List.getLast? htext
        rw [entryLine, ← List.append_assoc, List.getLast?_append_of_ne_nil _ (hword value).1, (hword value).2,
          List.getLast?_concat] at hlast
        exact absurd hlast (by decide)
  have hrest : ("  ".toList ++ (JsonString.encode key.toList ++ flagText value)).dropPrefix? "  ".toList =
      some (JsonString.encode key.toList ++ flagText value) := FrontMatter.dropPrefix?_append _ _
  have hvalue : (match (JsonString.encode key.toList ++ flagText value).dropSuffix? (flagText true) with
      | some text => (JsonString.decode text).map fun key => (String.ofList key, true)
      | none => ((JsonString.encode key.toList ++ flagText value).dropSuffix? (flagText false)).bind fun text =>
          (JsonString.decode text).map fun key => (String.ofList key, false)) = some (key, value) := by
    cases value with
    | true =>
        rw [FrontMatter.dropSuffix?_append]
        dsimp only
        rw [JsonString.decode_encode, Option.map_some, String.ofList_toList]
    | false =>
        have hnone : (JsonString.encode key.toList ++ flagText false).dropSuffix? (flagText true) = none := by
          cases hdrop : (JsonString.encode key.toList ++ flagText false).dropSuffix? (flagText true) with
          | none => rfl
          | some front =>
              obtain ⟨word, htext, hword⟩ := List.dropSuffix?_eq_some_iff.mp hdrop
              rw [eq_of_beq hword, show flagText false = ": fal".toList ++ "se".toList by decide,
                show flagText true = ": tr".toList ++ "ue".toList by decide, ← List.append_assoc,
                ← List.append_assoc] at htext
              exact absurd (List.append_inj' htext (by decide)).2 (by decide)
        rw [hnone]
        dsimp only
        rw [FrontMatter.dropSuffix?_append, Option.bind_some, JsonString.decode_encode, Option.map_some,
          String.ofList_toList]
  refine ⟨?_, ?_⟩
  · rw [parseEntry, hbare, Option.getD_none, entryLine, hrest, Option.bind_some]
    exact hvalue
  · rw [parseEntry, FrontMatter.dropSuffix?_append, Option.getD_some, entryLine, hrest, Option.bind_some]
    exact hvalue

theorem parse_entryLines (map : CursorMap Bool) : (entryLines map).mapM parseEntry = some map := by
  induction map with
  | nil => rfl
  | cons entry rest ih =>
      obtain ⟨hlast, hcomma⟩ := parseEntry_entryLine entry
      cases rest with
      | nil => simp [entryLines, hlast]
      | cons next rest => simp [entryLines, hcomma, ih]

theorem newline_not_mem_flagLines (map : CursorMap Bool) : ∀ line ∈ flagLines map, '\n' ∉ line := by
  have hentry : ∀ entry : String × Bool, '\n' ∉ entryLine entry := by
    intro entry hmem
    rcases List.mem_append.mp hmem with hblank | hrest
    · exact absurd hblank (by decide)
    · rcases List.mem_append.mp hrest with hkey | hvalue
      · exact absurd (JsonString.encode_printable _ _ hkey) (by decide)
      · revert hvalue
        cases entry.2 <;> decide
  have hentries : ∀ map : CursorMap Bool, ∀ line ∈ entryLines map, '\n' ∉ line := by
    intro map
    induction map with
    | nil => exact fun _ hmem => absurd hmem List.not_mem_nil
    | cons entry rest ih =>
        cases rest with
        | nil => exact List.forall_mem_singleton.mpr (hentry entry)
        | cons next rest =>
            refine List.forall_mem_cons.mpr ⟨?_, ih⟩
            rw [List.mem_append, not_or]
            exact ⟨hentry entry, by decide⟩
  unfold flagLines
  split_ifs
  · exact List.forall_mem_singleton.mpr (by decide)
  · rw [List.cons_append, List.forall_mem_cons, List.forall_mem_append, List.forall_mem_singleton]
    exact ⟨by decide, hentries map, by decide⟩

/-- JSON objects of flags, one entry a line. -/
def flagJson : JsonMap Bool where
  toVecPretty map := List.intercalate ['\n'] (flagLines map)
  fromSlice text := (text.splitOn '\n').tail.dropLast.mapM parseEntry
  fromSlice_toVecPretty map := by
    have hne : flagLines map ≠ [] := by
      unfold flagLines
      split_ifs <;> exact List.cons_ne_nil _ _
    rw [List.splitOn_intercalate _ (newline_not_mem_flagLines map) hne, flagLines]
    split_ifs with hnil
    · rw [hnil]
      rfl
    · rw [List.cons_append, List.tail_cons, List.dropLast_concat]
      exact parse_entryLines map

/-- Two sets one after the other. -/
theorem nothingLost_turns : (machine flagJson none).Throughout (NothingLost flagJson)
    [.update "persona" "a" true, .persist 0 true, .update "persona" "b" false, .persist 1 true, .reopen] :=
  nothingLost_run flagJson none _ ((machine flagJson none).allSteps_iff_stepsFrom.mpr (by
    simp only [Machine.StepsFrom, InOrder, machine, step, update, persist, and_true, true_and]
    refine ⟨fun j call hj hcall => ?_, fun j call hj hcall => ?_⟩
    · exact absurd (List.getElem?_eq_some_iff.mp hcall).1 (Nat.not_lt.mpr hj)
    · exact absurd (List.getElem?_eq_some_iff.mp hcall).1 (Nat.not_lt.mpr hj)))

/-- Of two sets that overlap, the first one writes its snapshot over that of the second. -/
theorem nothingLost_overlap_broken : ¬(machine flagJson none).Throughout (NothingLost flagJson)
    [.update "persona" "a" true, .update "persona" "b" false, .persist 1 true, .persist 0 true] := by
  intro h
  have hlost := h _ List.prefix_rfl
  have hb := hlost (by decide) 1 ⟨"persona:b", false, [("persona:a", true), ("persona:b", false)], some true⟩
    ⟨by decide, by decide, fun n other hn _ hother => by
      have hlength := (List.getElem?_eq_some_iff.mp hother).1
      exact absurd hlength (by
        change ¬n < 2
        omega)⟩ (Eq.refl _)
  revert hb
  decide +kernel

end TinyCortex.Persona.CursorStore
