import TinyCortex.Lib.Machine
import TinyCortex.Lib.Table
import TinyCortex.Lib.Text

/-! People and their handles (`people/types.rs`, `people/store.rs`, `people/resolver.rs`): one row per person, one row
per canonical handle, and the resolver that mints, links and seeds. Foreign keys are enforced, as SQLite does when it
is bundled; identifiers are minted by the environment. -/

namespace TinyCortex.People

open Table

abbrev PersonId := Nat

inductive Handle
  | iMessage (value : String)
  | email (value : String)
  | displayName (value : String)
  deriving DecidableEq, Repr

structure Person where
  id : PersonId
  displayName : Option String
  primaryEmail : Option String
  primaryPhone : Option String
  createdAt : Int
  updatedAt : Int
  deriving DecidableEq, Repr

/-- One row in `handle_aliases`. -/
structure AliasRow where
  kind : String
  value : String
  personId : PersonId
  createdAt : Int
  deriving DecidableEq, Repr

/-- The primary key of an alias. -/
def AliasRow.key (row : AliasRow) : String × String := (row.kind, row.value)

structure PeopleStore where
  people : List Person
  aliases : List AliasRow
  deriving DecidableEq, Repr

inductive StoreError
  /-- `UNIQUE constraint failed: people.id` -/
  | personExists
  /-- `FOREIGN KEY constraint failed` -/
  | noPerson
  deriving DecidableEq, Repr

/-- `str::split_whitespace` and `join(" ")`. -/
def collapse (s : String) : String :=
  String.ofList (List.intercalate [' '] ((s.toList.splitOnP Text.isWhitespace).filter (· ≠ [])))

def Handle.asKey : Handle → String × String
  | .iMessage s => ("imessage", s)
  | .email s => ("email", s)
  | .displayName s => ("display_name", s)

/-- The address book's row of a contact. -/
structure AddressBookContact where
  displayName : Option String
  emails : List String
  phones : List String
  deriving DecidableEq, Repr

/-- The handles of a contact: trimmed, emails first, then phones, then the name. -/
def AddressBookContact.handles (contact : AddressBookContact) : List Handle :=
  ((contact.emails.map Text.trim).filter (· ≠ "")).map Handle.email ++
    ((contact.phones.map Text.trim).filter (· ≠ "")).map Handle.iMessage ++
    ((contact.displayName.toList.map Text.trim).filter (· ≠ "")).map Handle.displayName

section Resolver

variable (toLowercase : String → String)

def Handle.canonicalize : Handle → Handle
  | .iMessage s => .iMessage (toLowercase (Text.trim s))
  | .email s => .email (toLowercase (Text.trim s))
  | .displayName s => .displayName (collapse s)

/-! ### The store -/

/-- `INSERT INTO people`. -/
def insertPersonRow (person : Person) (store : PeopleStore) : Except StoreError PeopleStore :=
  if person.id ∈ store.people.map Person.id then .error .personExists
  else .ok { store with people := store.people ++ [person] }

def insertPerson (person : Person) (handles : List Handle) (now : Int) (store : PeopleStore) :
    Except StoreError PeopleStore :=
  (insertPersonRow person store).map fun store =>
    let keys := handles.map fun h => (h.canonicalize toLowercase).asKey
    let insert := fun aliases (key : String × String) =>
      insertOrIgnore AliasRow.key ⟨key.1, key.2, person.id, now⟩ aliases
    { store with aliases := keys.foldl insert store.aliases }

/-- The person of the handle's row, or a new person with a new row, and whether it is new. -/
def resolveOrInsertPerson (person : Person) (handle : Handle) (now : Int) (store : PeopleStore) :
    Except StoreError (PeopleStore × PersonId × Bool) :=
  let key := (handle.canonicalize toLowercase).asKey
  match lookup AliasRow.key key store.aliases with
  | some row => .ok (store, row.personId, false)
  | none => (insertPersonRow person store).map fun store =>
      ({ store with aliases := store.aliases ++ [⟨key.1, key.2, person.id, now⟩] }, person.id, true)

-- The key of an alias is looked for among pairs.
local instance pairLawful : LawfulBEq (String × String) := inferInstance

/-- `INSERT OR IGNORE` of an alias: the person is looked up only when the row goes in. -/
def addAlias (personId : PersonId) (handle : Handle) (now : Int) (store : PeopleStore) :
    Except StoreError PeopleStore :=
  let key := (handle.canonicalize toLowercase).asKey
  if key ∈ store.aliases.map AliasRow.key then .ok store
  else if personId ∈ store.people.map Person.id then
    .ok { store with aliases := insertOrIgnore AliasRow.key ⟨key.1, key.2, personId, now⟩ store.aliases }
  else .error .noPerson

def PeopleStore.lookupHandle (store : PeopleStore) (handle : Handle) : Option PersonId :=
  (lookup AliasRow.key (handle.canonicalize toLowercase).asKey store.aliases).map AliasRow.personId

/-! ### The resolver -/

def resolve (handle : Handle) (store : PeopleStore) : Option PersonId :=
  store.lookupHandle toLowercase (handle.canonicalize toLowercase)

/-- The person that a new handle gets. -/
def skeleton (id : PersonId) (canonical : Handle) (now : Int) : Person :=
  match canonical with
  | .displayName s => ⟨id, some s, none, none, now, now⟩
  | .email s => ⟨id, none, some s, none, now, now⟩
  | .iMessage s => if '@' ∈ s.toList then ⟨id, none, some s, none, now, now⟩ else ⟨id, none, none, some s, now, now⟩

def resolveOrCreate (handle : Handle) (id : PersonId) (now : Int) (store : PeopleStore) :
    Except StoreError (PeopleStore × PersonId) :=
  let canonical := handle.canonicalize toLowercase
  (resolveOrInsertPerson toLowercase (skeleton id canonical now) canonical now store).map fun r => (r.1, r.2.1)

/-- Attach `other` to the person `primary` resolves to; the store that is left, also after an error. -/
def link (primary other : Handle) (id : PersonId) (now : Int) (store : PeopleStore) :
    PeopleStore × Except StoreError PersonId :=
  match resolveOrCreate toLowercase primary id now store with
  | .error e => (store, .error e)
  | .ok (created, pid) =>
      match addAlias toLowercase pid (other.canonicalize toLowercase) now created with
      | .error e => (created, .error e)
      | .ok linked => (linked, .ok pid)

/-- Aliases one after the other; a failure is logged and passed over. -/
def addAliases (pid : PersonId) (now : Int) : List Handle → PeopleStore → PeopleStore
  | [], store => store
  | h :: rest, store =>
      addAliases pid now rest
        (match addAlias toLowercase pid (h.canonicalize toLowercase) now store with
        | .ok next => next
        | .error _ => store)

/-- The loop over the contacts, each with an identifier for its person if one is minted, and the counts of seeded and
skipped contacts. -/
def seedFromAddressBook (now : Int) : List AddressBookContact → (Nat → PersonId) → PeopleStore × Nat × Nat →
    PeopleStore × Nat × Nat
  | [], _, seeding => seeding
  | contact :: contacts, mint, (store, seeded, skipped) =>
      seedFromAddressBook now contacts (fun n => mint (n + 1))
        (match contact.handles with
        | [] => (store, seeded, skipped + 1)
        | primary :: others =>
            match resolveOrCreate toLowercase primary (mint 0) now store with
            | .error _ => (store, seeded, skipped + 1)
            | .ok (created, pid) => (addAliases toLowercase pid now others created, seeded + 1, skipped))

/-- One call on the store or the resolver, with the identifiers it would mint and the clock. -/
inductive Call
  | insertPerson (person : Person) (handles : List Handle) (now : Int)
  | addAlias (personId : PersonId) (handle : Handle) (now : Int)
  | resolveOrCreate (handle : Handle) (id : PersonId) (now : Int)
  | link (primary other : Handle) (id : PersonId) (now : Int)
  | seed (contacts : List AddressBookContact) (mint : Nat → PersonId) (now : Int)

def seeded (contacts : List AddressBookContact) (mint : Nat → PersonId) (now : Int) (store : PeopleStore) :
    PeopleStore := (seedFromAddressBook toLowercase now contacts mint (store, 0, 0)).1

def PeopleStore.call (store : PeopleStore) : Call → PeopleStore
  | .insertPerson person handles now => ((insertPerson toLowercase person handles now store).toOption).getD store
  | .addAlias personId handle now => ((addAlias toLowercase personId handle now store).toOption).getD store
  | .resolveOrCreate handle id now =>
      (((resolveOrCreate toLowercase handle id now store).toOption).map Prod.fst).getD store
  | .link primary other id now => (link toLowercase primary other id now store).1
  | .seed contacts mint now => seeded toLowercase contacts mint now store

def calls : Machine PeopleStore Call := ⟨⟨[], []⟩, PeopleStore.call toLowercase⟩

end Resolver

end TinyCortex.People
