import TinyCortex.Lib.Text

/-! The key-value store (`store/kv.rs`): JSON values under global keys and under keys of a namespace.
Writing redacts the key and the namespace; reading and deleting do not. -/

namespace TinyCortex.Kv

/-- What the store takes from other crates: the detectors, the redactors, JSON, and the name of the
bucket of a blank namespace. -/
structure KvEnv (Value : Type*) where
  hasLikelySecret : String → Bool
  hasLikelyPii : String → Bool
  redactPii : String → String
  sanitizeJson : Value → Value
  toString : Value → String
  fromStr : String → Except String Value
  globalNamespace : String

/-- The tables `kv_global` and `kv_namespace`, each by its primary key. -/
structure KvStore where
  kvGlobal : String → Option String
  kvNamespace : String × String → Option String

def KvStore.empty : KvStore := ⟨fun _ => none, fun _ => none⟩

/-- Where a caller wants a value. -/
inductive Address
  | global (key : String)
  | namespaced (ns key : String)
  deriving DecidableEq

/-- The primary key of a row. -/
inductive Location
  | global (key : String)
  | bucket (ns key : String)
  deriving DecidableEq

namespace KvStore

def row (store : KvStore) : Location → Option String
  | .global key => store.kvGlobal key
  | .bucket ns key => store.kvNamespace (ns, key)

/-- The store with another row, or none, at a location. -/
def put (store : KvStore) (valueJson : Option String) : Location → KvStore
  | .global key => { store with kvGlobal := Function.update store.kvGlobal key valueJson }
  | .bucket ns key =>
      { store with kvNamespace := Function.update store.kvNamespace (ns, key) valueJson }

theorem row_put (store : KvStore) (valueJson : Option String) (location other : Location) :
    (store.put valueJson location).row other =
      if other = location then valueJson else store.row other := by
  cases location <;> cases other <;> simp [put, row, Function.update_apply]

end KvStore

variable {Value : Type*} (env : KvEnv Value)

/-- Letters, digits, `-`, `_` and `/` stay; all else becomes `_`. -/
def sanitizeNamespace (ns : String) : String :=
  if Text.trim ns = "" then env.globalNamespace
  else String.ofList ((Text.trim ns).toList.map fun c =>
    if c.isAlphanum ∨ c = '-' ∨ c = '_' ∨ c = '/' then c else '_')

def redacted (text : String) : String :=
  if env.hasLikelyPii text then env.redactPii text else text

/-- A row as the value it holds. -/
def readRow (context : String) (valueJson : Option String) : Except String (Option Value) :=
  match valueJson with
  | none => .ok none
  | some raw =>
      match env.fromStr raw with
      | .ok value => .ok (some value)
      | .error error => .error (context ++ " JSON: " ++ error)

def setGlobal (store : KvStore) (key : String) (value : Value) : KvStore × Except String Unit :=
  if env.hasLikelySecret key then (store, .error "kv key cannot contain secrets")
  else
    (store.put (some (env.toString (env.sanitizeJson value))) (.global (redacted env key)), .ok ())

def getGlobal (store : KvStore) (key : String) : Except String (Option Value) :=
  readRow env "get_global" (store.row (.global key))

def deleteGlobal (store : KvStore) (key : String) : KvStore × Bool :=
  (store.put none (.global key), (store.row (.global key)).isSome)

def setNamespace (store : KvStore) (ns key : String) (value : Value) :
    KvStore × Except String Unit :=
  if env.hasLikelySecret ns ∨ env.hasLikelySecret key then
    (store, .error "kv namespace/key cannot contain secrets")
  else
    (store.put (some (env.toString (env.sanitizeJson value)))
      (.bucket (sanitizeNamespace env (redacted env ns)) (redacted env key)), .ok ())

def getNamespace (store : KvStore) (ns key : String) : Except String (Option Value) :=
  readRow env "get_namespace" (store.row (.bucket (sanitizeNamespace env ns) key))

def deleteNamespace (store : KvStore) (ns key : String) : KvStore × Bool :=
  (store.put none (.bucket (sanitizeNamespace env ns) key),
    (store.row (.bucket (sanitizeNamespace env ns) key)).isSome)

inductive KvOp (Value : Type*)
  | set (address : Address) (value : Value)
  | get (address : Address)
  | delete (address : Address)

inductive KvOutput (Value : Type*)
  | set (result : Except String Unit)
  | get (result : Except String (Option Value))
  | deleted (removed : Bool)
  deriving DecidableEq

/-- An operation and what it returns. -/
def KvStore.step (store : KvStore) : KvOp Value → KvStore × KvOutput Value
  | .set (.global key) value =>
      ((setGlobal env store key value).1, .set (setGlobal env store key value).2)
  | .set (.namespaced ns key) value =>
      ((setNamespace env store ns key value).1, .set (setNamespace env store ns key value).2)
  | .get (.global key) => (store, .get (getGlobal env store key))
  | .get (.namespaced ns key) => (store, .get (getNamespace env store ns key))
  | .delete (.global key) => ((deleteGlobal store key).1, .deleted (deleteGlobal store key).2)
  | .delete (.namespaced ns key) =>
      ((deleteNamespace env store ns key).1, .deleted (deleteNamespace env store ns key).2)

/-- What the operations return, one after the other. -/
def KvStore.outputs (store : KvStore) : List (KvOp Value) → List (KvOutput Value)
  | [] => []
  | op :: ops => (store.step env op).2 :: KvStore.outputs (store.step env op).1 ops

end TinyCortex.Kv

/-! What the key-value store is for: a map from locations to values, namespaces up to their buckets. The
store answers as the map does exactly for the values that come back from their JSON and the addresses
that redaction leaves where a reader looks. -/

namespace TinyCortex.Kv

section Map

variable {Value : Type*} (env : KvEnv Value)

/-- Where a reader looks for an address. -/
def readLocation : Address → Location
  | .global key => .global key
  | .namespaced ns key => .bucket (sanitizeNamespace env ns) key

/-- Where a writer puts the value of an address. -/
def writeLocation : Address → Location
  | .global key => .global (redacted env key)
  | .namespaced ns key => .bucket (sanitizeNamespace env (redacted env ns)) (redacted env key)

/-- Why a writer refuses an address. -/
def rejection : Address → Option String
  | .global key =>
      if env.hasLikelySecret key then some "kv key cannot contain secrets" else none
  | .namespaced ns key =>
      if env.hasLikelySecret ns ∨ env.hasLikelySecret key then
        some "kv namespace/key cannot contain secrets"
      else none

abbrev KvMap (Value : Type*) := Location → Option Value

def KvMap.step (map : KvMap Value) : KvOp Value → KvMap Value × KvOutput Value
  | .set address value =>
      match rejection env address with
      | some error => (map, .set (.error error))
      | none =>
          (Function.update map (readLocation env address) (some (env.sanitizeJson value)),
            .set (.ok ()))
  | .get address => (map, .get (.ok (map (readLocation env address))))
  | .delete address =>
      (Function.update map (readLocation env address) none,
        .deleted (map (readLocation env address)).isSome)

def KvMap.outputs (map : KvMap Value) : List (KvOp Value) → List (KvOutput Value)
  | [] => []
  | op :: ops => (KvMap.step env map op).2 :: KvMap.outputs (KvMap.step env map op).1 ops

/-- A writer puts the value where a reader looks, and a reader gets it back. -/
def Kept (address : Address) (value : Value) : Prop :=
  writeLocation env address = readLocation env address ∧
    env.fromStr (env.toString (env.sanitizeJson value)) = .ok (env.sanitizeJson value)

/-- Every row is the JSON of the map's value, which comes back from it. -/
def Represents (store : KvStore) (map : KvMap Value) : Prop :=
  ∀ location, store.row location = (map location).map env.toString ∧
    ∀ value ∈ map location, env.fromStr (env.toString value) = .ok value

end Map

variable {Value : Type*} {env : KvEnv Value} {store : KvStore} {map : KvMap Value}

theorem step_set (address : Address) (value : Value) :
    store.step env (.set address value) =
      match rejection env address with
      | some error => (store, .set (.error error))
      | none =>
          (store.put (some (env.toString (env.sanitizeJson value))) (writeLocation env address),
            .set (.ok ())) := by
  cases address with
  | global key =>
      rw [KvStore.step, setGlobal, rejection]
      by_cases hsecret : env.hasLikelySecret key
      · rw [if_pos hsecret, if_pos hsecret]
      · rw [if_neg hsecret, if_neg hsecret]
        rfl
  | namespaced ns key =>
      rw [KvStore.step, setNamespace, rejection]
      by_cases hsecret : env.hasLikelySecret ns ∨ env.hasLikelySecret key
      · rw [if_pos hsecret, if_pos hsecret]
      · rw [if_neg hsecret, if_neg hsecret]
        rfl

theorem step_get (env : KvEnv Value) (store : KvStore) (address : Address) :
    ∃ context, store.step env (.get address) =
      (store, .get (readRow env context (store.row (readLocation env address)))) := by
  cases address with
  | global key => exact ⟨"get_global", rfl⟩
  | namespaced ns key => exact ⟨"get_namespace", rfl⟩

theorem step_delete (address : Address) :
    store.step env (.delete address) =
      (store.put none (readLocation env address),
        .deleted (store.row (readLocation env address)).isSome) := by
  cases address <;> rfl

theorem readRow_toString {value : Value} {context : String}
    (h : env.fromStr (env.toString value) = .ok value) :
    readRow env context (some (env.toString value)) = .ok (some value) := by
  rw [readRow, h]

theorem Represents.put (h : Represents env store map) (value : Option Value) {location : Location}
    (hvalue : ∀ v ∈ value, env.fromStr (env.toString v) = .ok v) :
    Represents env (store.put (value.map env.toString) location)
      (Function.update map location value) := by
  intro other
  rw [KvStore.row_put]
  by_cases hother : other = location
  · rw [if_pos hother, hother, Function.update_self]
    exact ⟨rfl, hvalue⟩
  · rw [if_neg hother, Function.update_of_ne hother]
    exact h other

/-- One operation: the store and its map return the same and represent each other again. -/
theorem Represents.step (h : Represents env store map) (op : KvOp Value)
    (hop : ∀ address value, op = .set address value → rejection env address = none →
      Kept env address value) :
    (store.step env op).2 = (KvMap.step env map op).2 ∧
      Represents env (store.step env op).1 (KvMap.step env map op).1 := by
  cases op with
  | set address value =>
      rw [step_set, KvMap.step]
      cases hreject : rejection env address with
      | some error => exact ⟨rfl, h⟩
      | none =>
          obtain ⟨hlocation, hvalue⟩ := hop address value rfl hreject
          rw [hlocation]
          refine ⟨rfl, h.put (some (env.sanitizeJson value)) fun v hv => ?_⟩
          rw [← Option.some.inj hv]
          exact hvalue
  | get address =>
      obtain ⟨context, hget⟩ := step_get env store address
      rw [hget, KvMap.step]
      refine ⟨?_, h⟩
      obtain ⟨hrow, hback⟩ := h (readLocation env address)
      dsimp only
      rw [hrow]
      cases hvalue : map (readLocation env address) with
      | none => rfl
      | some value => rw [Option.map_some, readRow_toString (hback value hvalue)]
  | delete address =>
      rw [step_delete, KvMap.step]
      refine ⟨?_, h.put none fun v hv => nomatch hv⟩
      dsimp only
      rw [(h _).1, Option.isSome_map]

theorem outputs_eq (h : Represents env store map) {ops : List (KvOp Value)}
    (hops : ∀ address value, KvOp.set address value ∈ ops → rejection env address = none →
      Kept env address value) :
    store.outputs env ops = KvMap.outputs env map ops := by
  induction ops generalizing store map with
  | nil => rfl
  | cons op ops ih =>
      obtain ⟨hout, hnext⟩ := h.step op fun address value heq =>
        hops address value (heq ▸ List.mem_cons_self)
      rw [KvStore.outputs, KvMap.outputs, hout, ih hnext fun address value hmem =>
        hops address value (List.mem_cons_of_mem _ hmem)]

/-- A value that is not kept does not come back from the first read. -/
theorem kept_of_outputs_eq {address : Address} {value : Value}
    (haccepted : rejection env address = none)
    (h : KvStore.empty.outputs env [.set address value, .get address] =
      KvMap.outputs env (fun _ => none) [.set address value, .get address]) :
    Kept env address value := by
  obtain ⟨context, hget⟩ := step_get env (KvStore.empty.put
    (some (env.toString (env.sanitizeJson value))) (writeLocation env address)) address
  simp only [KvStore.outputs, KvMap.outputs, step_set, KvMap.step, haccepted, hget,
    Function.update_self, List.cons.injEq, KvOutput.get.injEq, and_true, true_and,
    KvStore.row_put] at h
  by_cases hlocation : readLocation env address = writeLocation env address
  · rw [if_pos hlocation, readRow] at h
    refine ⟨hlocation.symm, ?_⟩
    cases hback : env.fromStr (env.toString (env.sanitizeJson value)) with
    | error error =>
        rw [hback] at h
        cases h
    | ok found =>
        rw [hback] at h
        rw [Option.some.inj (Except.ok.inj h)]
  · rw [if_neg hlocation] at h
    cases hlocation' : readLocation env address <;> rw [hlocation'] at h <;> cases h

/-- With the calls that may write given, every sequence of operations returns what the map returns
exactly if every one of them that is accepted is kept. -/
theorem outputs_eq_iff (env : KvEnv Value) (Allowed : Address → Value → Prop) :
    (∀ ops, (∀ address value, KvOp.set address value ∈ ops → Allowed address value) →
      KvStore.empty.outputs env ops = KvMap.outputs env (fun _ => none) ops) ↔
    ∀ address value, Allowed address value → rejection env address = none →
      Kept env address value := by
  constructor
  · intro h address value hallowed haccepted
    refine kept_of_outputs_eq haccepted (h _ fun other found hmem => ?_)
    simp only [List.mem_cons, KvOp.set.injEq, reduceCtorEq, List.not_mem_nil, or_false] at hmem
    rw [hmem.1, hmem.2]
    exact hallowed
  · intro h ops hops
    have hempty : Represents env KvStore.empty fun _ => none := by
      intro location
      refine ⟨?_, fun value hvalue => nomatch hvalue⟩
      cases location <;> rfl
    exact outputs_eq hempty fun address value hmem => h address value (hops address value hmem)

section Sample

/-- One key holds a social security number. -/
def ssnEnv : KvEnv Bool where
  hasLikelySecret _ := false
  hasLikelyPii text := text = "ssn-123-45-6789"
  redactPii text := if text = "ssn-123-45-6789" then "ssn-[REDACTED]" else text
  sanitizeJson value := value
  toString value := if value then "true" else "false"
  fromStr text :=
    if text = "true" then .ok true else if text = "false" then .ok false
    else .error "expected value at line 1 column 1"
  globalNamespace := "global"

/-- The value is stored under the redacted key, where no reader of the key looks. -/
theorem ssn_key_lost :
    KvStore.empty.outputs ssnEnv
        [.set (.global "ssn-123-45-6789") true, .get (.global "ssn-123-45-6789")] ≠
      KvMap.outputs ssnEnv (fun _ => none)
        [.set (.global "ssn-123-45-6789") true, .get (.global "ssn-123-45-6789")] := by
  decide +kernel

end Sample

end TinyCortex.Kv
