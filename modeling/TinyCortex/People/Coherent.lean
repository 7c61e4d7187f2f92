import TinyCortex.People.Resolver

/-! What handles resolve to over runs of calls: a resolved handle stays with its person, and seeding twice is seeding
once, in every run; a link joins its two handles exactly when the second one has no other person yet. -/

namespace TinyCortex.People

open Table

variable (toLowercase : String → String)

/-! ### Growing stores -/

/-- Aliases are only added, and each belongs to a person of the store. -/
structure Extends (store next : PeopleStore) : Prop where
  aliases : ∃ more, next.aliases = store.aliases ++ more
  people : store.people.map Person.id ⊆ next.people.map Person.id

/-- Every alias belongs to a person of the store. -/
def Owned (store : PeopleStore) : Prop := ∀ row ∈ store.aliases, row.personId ∈ store.people.map Person.id

theorem Extends.refl (store : PeopleStore) : Extends store store :=
  ⟨⟨[], (List.append_nil _).symm⟩, List.Subset.refl _⟩

theorem Extends.trans {a b c : PeopleStore} (h : Extends a b) (h' : Extends b c) : Extends a c := by
  obtain ⟨more, hmore⟩ := h.aliases
  obtain ⟨more', hmore'⟩ := h'.aliases
  exact ⟨⟨more ++ more', by rw [hmore', hmore, List.append_assoc]⟩, List.Subset.trans h.people h'.people⟩

variable {toLowercase}

/-- A handle that is resolved stays with its person. -/
theorem Extends.resolve {store next : PeopleStore} (h : Extends store next) {handle : Handle} {pid : PersonId}
    (hres : resolve toLowercase handle store = some pid) : resolve toLowercase handle next = some pid := by
  obtain ⟨more, hmore⟩ := h.aliases
  obtain ⟨row, hrow, hid⟩ := Option.map_eq_some_iff.mp hres
  rw [People.resolve, PeopleStore.lookupHandle, hmore, lookup_append_of_some hrow, Option.map_some, hid]

theorem extends_insertOrIgnore (row : AliasRow) (rows : List AliasRow) :
    ∃ more, insertOrIgnore AliasRow.key row rows = rows ++ more := by
  unfold insertOrIgnore
  split_ifs
  · exact ⟨[], (List.append_nil _).symm⟩
  · exact ⟨[row], rfl⟩

theorem lookup_singleton (key : String × String) (pid : PersonId) (now : Int) :
    lookup AliasRow.key key [⟨key.1, key.2, pid, now⟩] = some ⟨key.1, key.2, pid, now⟩ := if_pos rfl

theorem extends_insertPersonRow {person : Person} {store next : PeopleStore}
    (h : insertPersonRow person store = .ok next) : person.id ∉ store.people.map Person.id ∧
      next = { store with people := store.people ++ [person] } := by
  unfold insertPersonRow at h
  split_ifs at h with hold
  exact ⟨hold, (Except.ok.inj h).symm⟩

/-- What `add_alias` does when it succeeds: the key is there afterwards, with the person it had or the one given. -/
theorem addAlias_ok {pid : PersonId} {handle : Handle} {now : Int} {store next : PeopleStore} (hown : Owned store)
    (h : addAlias toLowercase pid handle now store = .ok next) : Extends store next ∧ Owned next ∧
      lookup AliasRow.key (handle.canonicalize toLowercase).asKey next.aliases =
        some ((lookup AliasRow.key (handle.canonicalize toLowercase).asKey store.aliases).getD
          ⟨(handle.canonicalize toLowercase).asKey.1, (handle.canonicalize toLowercase).asKey.2, pid, now⟩) := by
  unfold addAlias at h
  dsimp only at h
  split_ifs at h with hkey hperson
  · obtain rfl := Except.ok.inj h
    refine ⟨Extends.refl _, hown, ?_⟩
    cases hrow : lookup AliasRow.key (handle.canonicalize toLowercase).asKey store.aliases with
    | none => exact absurd hkey (lookup_eq_none_iff.mp hrow)
    | some row => rfl
  · obtain rfl := Except.ok.inj h
    refine ⟨⟨extends_insertOrIgnore _ _, List.Subset.refl _⟩, fun row hrow => ?_, ?_⟩
    · rcases mem_insertOrIgnore hrow with hold | rfl
      · exact hown row hold
      · exact hperson
    · dsimp only
      rw [insertOrIgnore_of_fresh hkey, lookup_append, lookup_eq_none_iff.mpr hkey, Option.none_or,
        lookup_singleton]
      rfl

/-- A person of the store can be given any alias. -/
theorem addAlias_exists {pid : PersonId} {store : PeopleStore} (hpid : pid ∈ store.people.map Person.id)
    (handle : Handle) (now : Int) : ∃ next, addAlias toLowercase pid handle now store = .ok next := by
  unfold addAlias
  dsimp only
  split_ifs
  · exact ⟨_, rfl⟩
  · exact ⟨_, rfl⟩

theorem skeleton_id (id : PersonId) (canonical : Handle) (now : Int) : (skeleton id canonical now).id = id := by
  unfold skeleton
  split
  · rfl
  · rfl
  · split_ifs
    · rfl
    · rfl

/-- What the resolver does when it succeeds: the handle has the person that is returned, which is the one it had, or
else the new one. -/
theorem resolveOrCreate_ok {handle : Handle} {id pid : PersonId} {now : Int} {store next : PeopleStore}
    (hown : Owned store) (h : resolveOrCreate toLowercase handle id now store = .ok (next, pid)) :
    Extends store next ∧ Owned next ∧ resolve toLowercase handle next = some pid ∧
      pid ∈ next.people.map Person.id ∧
      (resolve toLowercase handle store = some pid ∧ next = store ∨
        resolve toLowercase handle store = none ∧ pid = id ∧ id ∉ store.people.map Person.id ∧
          next.people.map Person.id = store.people.map Person.id ++ [id] ∧
          ∃ row, row.personId = id ∧ next.aliases = store.aliases ++ [row]) := by
  unfold resolveOrCreate resolveOrInsertPerson at h
  dsimp only at h
  cases hrow : lookup AliasRow.key ((handle.canonicalize toLowercase).canonicalize toLowercase).asKey
      store.aliases with
  | some row =>
      rw [hrow] at h
      obtain ⟨rfl, rfl⟩ := Prod.mk.inj (Except.ok.inj h)
      have hres : resolve toLowercase handle store = some row.personId := by
        rw [resolve, PeopleStore.lookupHandle, hrow]
        rfl
      exact ⟨Extends.refl _, hown, hres, hown row (lookup_mem hrow).1, Or.inl ⟨hres, rfl⟩⟩
  | none =>
      rw [hrow] at h
      dsimp only at h
      cases hins : insertPersonRow (skeleton id (handle.canonicalize toLowercase) now) store with
      | error e =>
          rw [hins] at h
          cases h
      | ok created =>
          rw [hins] at h
          obtain ⟨hnew, rfl⟩ := extends_insertPersonRow hins
          have hid : (skeleton id (handle.canonicalize toLowercase) now).id = id := skeleton_id _ _ _
          rw [hid] at hnew
          obtain ⟨rfl, rfl⟩ := Prod.mk.inj (Except.ok.inj h)
          have hmem : id ∈ (store.people ++ [skeleton id (handle.canonicalize toLowercase) now]).map Person.id :=
            List.mem_map.mpr ⟨_, List.mem_append_right _ (List.mem_singleton_self _), hid⟩
          refine ⟨⟨⟨_, rfl⟩, ?_⟩, ?_, ?_, ?_, Or.inr ⟨?_, hid, hnew, ?_, _, hid, rfl⟩⟩
          · rw [List.map_append]
            exact List.subset_append_left _ _
          · intro row hrow'
            rcases List.mem_append.mp hrow' with hold | hlast
            · rw [List.map_append]
              exact List.mem_append_left _ (hown row hold)
            · rw [List.mem_singleton.mp hlast]
              dsimp only
              rw [hid]
              exact hmem
          · rw [resolve, PeopleStore.lookupHandle]
            dsimp only
            rw [lookup_append, hrow, Option.none_or, lookup_singleton]
            rfl
          · rw [hid]
            exact hmem
          · rw [resolve, PeopleStore.lookupHandle, hrow]
            rfl
          · rw [List.map_append, List.map_singleton, hid]

theorem resolveOrCreate_of_resolved {handle : Handle} {pid : PersonId} {store : PeopleStore}
    (h : resolve toLowercase handle store = some pid) (id : PersonId) (now : Int) :
    resolveOrCreate toLowercase handle id now store = .ok (store, pid) := by
  obtain ⟨row, hrow, rfl⟩ := Option.map_eq_some_iff.mp h
  unfold resolveOrCreate resolveOrInsertPerson
  dsimp only
  rw [hrow]
  rfl

/-- With a new identifier at hand the resolver succeeds. -/
theorem resolveOrCreate_exists {id : PersonId} {store : PeopleStore} (hnew : id ∉ store.people.map Person.id)
    (handle : Handle) (now : Int) : ∃ next pid, resolveOrCreate toLowercase handle id now store = .ok (next, pid) := by
  cases hres : resolve toLowercase handle store with
  | some pid => exact ⟨store, pid, resolveOrCreate_of_resolved hres id now⟩
  | none =>
      have hrow : lookup AliasRow.key ((handle.canonicalize toLowercase).canonicalize toLowercase).asKey
          store.aliases = none := Option.map_eq_none_iff.mp hres
      have hid : (skeleton id (handle.canonicalize toLowercase) now).id = id := skeleton_id _ _ _
      unfold resolveOrCreate resolveOrInsertPerson insertPersonRow
      dsimp only
      rw [hrow, hid, if_neg hnew]
      exact ⟨_, _, rfl⟩

/-! ### Seeding -/

theorem addAliases_extends {pid : PersonId} {now : Int} {handles : List Handle} {store : PeopleStore}
    (hown : Owned store) : Extends store (addAliases toLowercase pid now handles store) ∧
      Owned (addAliases toLowercase pid now handles store) := by
  induction handles generalizing store with
  | nil => exact ⟨Extends.refl _, hown⟩
  | cons h rest ih =>
      rw [addAliases]
      cases hadd : addAlias toLowercase pid (h.canonicalize toLowercase) now store with
      | error e => exact ih hown
      | ok next =>
          obtain ⟨hext, hown', -⟩ := addAlias_ok hown hadd
          obtain ⟨hrest, hlast⟩ := ih hown'
          exact ⟨hext.trans hrest, hlast⟩

/-- All handles in a list resolve. -/
def AllResolve (toLowercase : String → String) (handles : List Handle) (store : PeopleStore) : Prop :=
  ∀ h ∈ handles, (resolve toLowercase h store).isSome

theorem AllResolve.mono {handles : List Handle} {store next : PeopleStore}
    (h : AllResolve toLowercase handles store) (hext : Extends store next) : AllResolve toLowercase handles next := by
  intro handle hmem
  obtain ⟨pid, hpid⟩ := Option.isSome_iff_exists.mp (h handle hmem)
  rw [hext.resolve hpid]
  rfl

/-- A person of the store gets all aliases, so that every handle resolves. -/
theorem addAliases_resolve {pid : PersonId} {now : Int} {handles : List Handle} {store : PeopleStore}
    (hown : Owned store) (hpid : pid ∈ store.people.map Person.id) :
    AllResolve toLowercase handles (addAliases toLowercase pid now handles store) := by
  induction handles generalizing store with
  | nil => exact fun _ hmem => absurd hmem List.not_mem_nil
  | cons h rest ih =>
      rw [addAliases]
      obtain ⟨next, hadd⟩ := addAlias_exists hpid (h.canonicalize toLowercase) now
      rw [hadd]
      dsimp only
      obtain ⟨hext, hown', hlook⟩ := addAlias_ok hown hadd
      refine List.forall_mem_cons.mpr ⟨?_, ih hown' (hext.people hpid)⟩
      have hres : (resolve toLowercase h next).isSome := by
        rw [resolve, PeopleStore.lookupHandle, hlook]
        rfl
      obtain ⟨q, hq⟩ := Option.isSome_iff_exists.mp hres
      rw [(addAliases_extends hown').1.resolve hq]
      rfl

/-- Aliases that resolve already leave the store as it is. -/
theorem addAliases_eq_self {pid : PersonId} {now : Int} {handles : List Handle} {store : PeopleStore}
    (h : AllResolve toLowercase handles store) : addAliases toLowercase pid now handles store = store := by
  induction handles with
  | nil => rfl
  | cons handle rest ih =>
      obtain ⟨hhead, hrest⟩ := List.forall_mem_cons.mp h
      have hkey : ((handle.canonicalize toLowercase).canonicalize toLowercase).asKey ∈
          store.aliases.map AliasRow.key := by
        by_contra hnone
        rw [resolve, PeopleStore.lookupHandle, lookup_eq_none_iff.mpr hnone] at hhead
        cases hhead
      have hadd : addAlias toLowercase pid (handle.canonicalize toLowercase) now store = .ok store := if_pos hkey
      rw [addAliases, hadd]
      exact ih hrest

/-- The mints of a seeding are new, and differ from one another. -/
def MintsNew (mint : Nat → PersonId) (store : PeopleStore) : Prop :=
  (∀ n, mint n ∉ store.people.map Person.id) ∧ mint.Injective

theorem addAlias_people {pid : PersonId} {handle : Handle} {now : Int} {store next : PeopleStore}
    (h : addAlias toLowercase pid handle now store = .ok next) : next.people = store.people := by
  unfold addAlias at h
  dsimp only at h
  split_ifs at h
  · rw [Except.ok.inj h]
  · rw [← Except.ok.inj h]

theorem addAliases_people (pid : PersonId) (now : Int) (handles : List Handle) (store : PeopleStore) :
    (addAliases toLowercase pid now handles store).people = store.people := by
  induction handles generalizing store with
  | nil => rfl
  | cons h rest ih =>
      rw [addAliases]
      cases hadd : addAlias toLowercase pid (h.canonicalize toLowercase) now store with
      | error e => exact ih store
      | ok next => exact (ih next).trans (addAlias_people hadd)

/-- After a seeding every handle of its contacts resolves. -/
theorem seed_resolves {contacts : List AddressBookContact} {mint : Nat → PersonId} {store : PeopleStore}
    (hown : Owned store) (hmint : MintsNew mint store) (now : Int) (counts : Nat × Nat) :
    Extends store (seedFromAddressBook toLowercase now contacts mint (store, counts)).1 ∧
      Owned (seedFromAddressBook toLowercase now contacts mint (store, counts)).1 ∧
      ∀ contact ∈ contacts, AllResolve toLowercase contact.handles
        (seedFromAddressBook toLowercase now contacts mint (store, counts)).1 := by
  induction contacts generalizing mint store counts with
  | nil => exact ⟨Extends.refl _, hown, fun _ hmem => absurd hmem List.not_mem_nil⟩
  | cons contact contacts ih =>
      obtain ⟨hnew, hinj⟩ := hmint
      have hstep : ∀ {next : PeopleStore}, (∀ pid ∈ next.people.map Person.id,
          pid ∈ store.people.map Person.id ∨ pid = mint 0) → MintsNew (fun n => mint (n + 1)) next := by
        intro next hadds
        refine ⟨fun n hn => ?_, fun a b hab => Nat.succ_injective (hinj hab)⟩
        rcases hadds _ hn with hold | hzero
        · exact hnew _ hold
        · exact Nat.succ_ne_zero n (hinj hzero)
      rw [seedFromAddressBook]
      cases hhandles : contact.handles with
      | nil =>
          obtain ⟨hext, hown', hrest⟩ := ih hown (hstep fun pid hpid => Or.inl hpid) (counts.1, counts.2 + 1)
          refine ⟨hext, hown', List.forall_mem_cons.mpr ⟨?_, hrest⟩⟩
          rw [hhandles]
          exact fun _ hmem => absurd hmem List.not_mem_nil
      | cons primary others =>
          have hexists : ∃ next pid, resolveOrCreate toLowercase primary (mint 0) now store = .ok (next, pid) :=
            resolveOrCreate_exists (hnew 0) primary now
          obtain ⟨created, pid, hcreate⟩ := hexists
          obtain ⟨hext, hown', hres, hpid, hcase⟩ := resolveOrCreate_ok hown hcreate
          have hothers : Extends created (addAliases toLowercase pid now others created) ∧
              Owned (addAliases toLowercase pid now others created) := addAliases_extends hown'
          obtain ⟨hext', hown''⟩ := hothers
          have hadds : ∀ p ∈ (addAliases toLowercase pid now others created).people.map Person.id,
              p ∈ store.people.map Person.id ∨ p = mint 0 := by
            intro p hp
            rw [addAliases_people] at hp
            rcases hcase with ⟨-, rfl⟩ | ⟨-, -, -, hpeople, -⟩
            · exact Or.inl hp
            · rw [hpeople] at hp
              exact (List.mem_append.mp hp).imp id List.mem_singleton.mp
          obtain ⟨hlast, hown3, hrest⟩ := ih hown'' (hstep hadds) (counts.1 + 1, counts.2)
          dsimp only
          rw [hcreate]
          refine ⟨(hext.trans hext').trans hlast, hown3, List.forall_mem_cons.mpr ⟨?_, hrest⟩⟩
          rw [hhandles]
          refine AllResolve.mono (List.forall_mem_cons.mpr ⟨?_, addAliases_resolve hown' hpid⟩) hlast
          rw [hext'.resolve hres]
          rfl

/-- A seeding over handles that all resolve adds nothing. -/
theorem seed_eq_self {contacts : List AddressBookContact} {store : PeopleStore}
    (h : ∀ contact ∈ contacts, AllResolve toLowercase contact.handles store) (now : Int) (mint : Nat → PersonId)
    (counts : Nat × Nat) : (seedFromAddressBook toLowercase now contacts mint (store, counts)).1 = store := by
  induction contacts generalizing mint counts with
  | nil => rfl
  | cons contact contacts ih =>
      obtain ⟨hhead, hrest⟩ := List.forall_mem_cons.mp h
      rw [seedFromAddressBook]
      cases hhandles : contact.handles with
      | nil => exact ih hrest _ _
      | cons primary others =>
          rw [hhandles] at hhead
          obtain ⟨hprimary, hothers⟩ := List.forall_mem_cons.mp hhead
          obtain ⟨pid, hpid⟩ := Option.isSome_iff_exists.mp hprimary
          dsimp only
          rw [resolveOrCreate_of_resolved hpid]
          dsimp only
          rw [addAliases_eq_self hothers]
          exact ih hrest _ _

/-! ### Every call -/

theorem insertPerson_ok {person : Person} {handles : List Handle} {now : Int} {store next : PeopleStore}
    (hown : Owned store) (h : insertPerson toLowercase person handles now store = .ok next) :
    Extends store next ∧ Owned next := by
  unfold insertPerson at h
  cases hins : insertPersonRow person store with
  | error e =>
      rw [hins] at h
      cases h
  | ok created =>
      rw [hins] at h
      obtain ⟨-, rfl⟩ := extends_insertPersonRow hins
      obtain rfl := Except.ok.inj h
      have hfold : ∀ (keys : List (String × String)) (aliases : List AliasRow), ∃ more,
          keys.foldl (fun aliases key => insertOrIgnore AliasRow.key ⟨key.1, key.2, person.id, now⟩ aliases) aliases =
            aliases ++ more ∧ ∀ row ∈ more, row.personId = person.id := by
        intro keys
        induction keys with
        | nil => exact fun aliases => ⟨[], (List.append_nil _).symm, fun _ hmem => absurd hmem List.not_mem_nil⟩
        | cons key keys ih =>
            intro aliases
            rw [List.foldl_cons, insertOrIgnore]
            split_ifs
            · exact ih aliases
            · obtain ⟨more, hmore, hall⟩ := ih (aliases ++ [⟨key.1, key.2, person.id, now⟩])
              refine ⟨⟨key.1, key.2, person.id, now⟩ :: more, ?_, List.forall_mem_cons.mpr ⟨rfl, hall⟩⟩
              rw [hmore, List.append_assoc]
              rfl
      obtain ⟨more, hmore, hall⟩ := hfold (handles.map fun h => (h.canonicalize toLowercase).asKey) store.aliases
      have hsub : store.people.map Person.id ⊆ (store.people ++ [person]).map Person.id := by
        rw [List.map_append]
        exact List.subset_append_left _ _
      refine ⟨⟨⟨more, hmore⟩, hsub⟩, fun row hrow => ?_⟩
      dsimp only at hrow
      rw [hmore] at hrow
      rcases List.mem_append.mp hrow with hold | hnew
      · exact hsub (hown row hold)
      · rw [hall row hnew]
        exact List.mem_map_of_mem (List.mem_append_right _ (List.mem_singleton_self _))

/-- What a link does: nothing that was resolved changes, and after `Ok` the first handle has the person returned. -/
theorem link_spec {primary other : Handle} {id : PersonId} {now : Int} {store : PeopleStore} (hown : Owned store) :
    Extends store (link toLowercase primary other id now store).1 ∧
      Owned (link toLowercase primary other id now store).1 := by
  unfold link
  cases hcreate : resolveOrCreate toLowercase primary id now store with
  | error e => exact ⟨Extends.refl _, hown⟩
  | ok result =>
      obtain ⟨hext, hown', -⟩ := resolveOrCreate_ok hown hcreate
      dsimp only
      cases hadd : addAlias toLowercase result.2 (other.canonicalize toLowercase) now result.1 with
      | error e => exact ⟨hext, hown'⟩
      | ok linked =>
          obtain ⟨hext', hown'', -⟩ := addAlias_ok hown' hadd
          exact ⟨hext.trans hext', hown''⟩

/-- The identifiers that a call mints are new. -/
def MintsFresh (store : PeopleStore) : Call → Prop
  | .insertPerson _ _ _ | .addAlias _ _ _ => True
  | .resolveOrCreate _ id _ | .link _ _ id _ => id ∉ store.people.map Person.id
  | .seed _ mint _ => MintsNew mint store

theorem call_spec {store : PeopleStore} (hown : Owned store) {c : Call} (hfresh : MintsFresh store c) :
    Extends store (store.call toLowercase c) ∧ Owned (store.call toLowercase c) := by
  have hsame : Extends store store ∧ Owned store := ⟨Extends.refl _, hown⟩
  cases c with
  | insertPerson person handles now =>
      dsimp only [PeopleStore.call]
      cases h : insertPerson toLowercase person handles now store with
      | error e => exact hsame
      | ok next => exact insertPerson_ok hown h
  | addAlias pid handle now =>
      dsimp only [PeopleStore.call]
      cases h : addAlias toLowercase pid handle now store with
      | error e => exact hsame
      | ok next => exact ⟨(addAlias_ok hown h).1, (addAlias_ok hown h).2.1⟩
  | resolveOrCreate handle id now =>
      dsimp only [PeopleStore.call]
      cases h : resolveOrCreate toLowercase handle id now store with
      | error e => exact hsame
      | ok result => exact ⟨(resolveOrCreate_ok hown h).1, (resolveOrCreate_ok hown h).2.1⟩
  | link primary other id now => exact link_spec hown
  | seed contacts mint now =>
      obtain ⟨hext, hown', -⟩ := seed_resolves hown hfresh now (0, 0)
      exact ⟨hext, hown'⟩

variable (toLowercase)

/-- After a link that returns a person, both handles resolve to it. -/
def LinkHolds (store : PeopleStore) : Call → Prop
  | .link primary other id now => ∀ pid, (link toLowercase primary other id now store).2 = .ok pid →
      resolve toLowercase primary (link toLowercase primary other id now store).1 = some pid ∧
        resolve toLowercase other (link toLowercase primary other id now store).1 = some pid
  | _ => True

/-- A seeding that is run again, with whatever identifiers and at whatever time, changes no row. -/
def SeedSettles (store : PeopleStore) : Call → Prop
  | .seed contacts mint now => ∀ mint' now', seeded toLowercase contacts mint' now'
      (seeded toLowercase contacts mint now store) = seeded toLowercase contacts mint now store
  | _ => True

/-- The second handle of a link is still free, or has the person of the first one already. -/
def LinkFree (store : PeopleStore) : Call → Prop
  | .link primary other _ _ => ∀ pid, resolve toLowercase other store = some pid →
      resolve toLowercase primary store = some pid
  | _ => True

theorem linkHolds_iff {store : PeopleStore} (hown : Owned store) {c : Call} (hfresh : MintsFresh store c) :
    LinkHolds toLowercase store c ↔ LinkFree toLowercase store c := by
  cases c with
  | insertPerson | addAlias | resolveOrCreate | seed => exact Iff.rfl
  | link primary other id now =>
      have hexists : ∃ next pid, resolveOrCreate toLowercase primary id now store = .ok (next, pid) :=
        resolveOrCreate_exists hfresh primary now
      obtain ⟨created, pid, hcreate⟩ := hexists
      obtain ⟨hext, hown', hres, hpid, hcase⟩ := resolveOrCreate_ok hown hcreate
      obtain ⟨linked, hadd⟩ := addAlias_exists hpid (other.canonicalize toLowercase) now
      obtain ⟨hext', -, hlook⟩ := addAlias_ok hown' hadd
      have hlink : link toLowercase primary other id now store = (linked, .ok pid) := by
        rw [link, hcreate]
        dsimp only
        rw [hadd]
      -- The person of the second handle: the one it had after the first step, or the one of the link.
      have hother : resolve toLowercase other linked = some ((resolve toLowercase other created).getD pid) := by
        rw [resolve, PeopleStore.lookupHandle, hlook, resolve, PeopleStore.lookupHandle]
        cases lookup AliasRow.key ((other.canonicalize toLowercase).canonicalize toLowercase).asKey
          created.aliases with
        | none => rfl
        | some row => rfl
      simp only [LinkHolds, LinkFree, hlink, hother, hext'.resolve hres]
      constructor
      · intro h q hq
        have hqpid : q = pid := by
          have hboth := (h pid rfl).2
          rw [hext.resolve hq] at hboth
          exact Option.some.inj hboth
        subst hqpid
        rcases hcase with ⟨hold, -⟩ | ⟨-, rfl, hnew, -⟩
        · exact hold
        · obtain ⟨row, hrow, rfl⟩ := Option.map_eq_some_iff.mp hq
          exact absurd (hown row (lookup_mem hrow).1) hnew
      · intro h p hp
        obtain rfl := Except.ok.inj hp
        refine ⟨rfl, ?_⟩
        cases hafter : resolve toLowercase other created with
        | none => rfl
        | some q =>
            rw [Option.getD_some]
            cases hbefore : resolve toLowercase other store with
            | some q' =>
                have hq' := hext.resolve hbefore
                rw [hafter] at hq'
                obtain rfl := Option.some.inj hq'
                have hprimary := hext.resolve (h q hbefore)
                rw [hres] at hprimary
                exact hprimary.symm
            | none =>
                rcases hcase with ⟨-, rfl⟩ | ⟨-, rfl, -, -, row, hrow, haliases⟩
                · rw [hbefore] at hafter
                  cases hafter
                · obtain ⟨found, hfound, rfl⟩ := Option.map_eq_some_iff.mp hafter
                  rw [haliases, lookup_append, Option.map_eq_none_iff.mp hbefore, Option.none_or] at hfound
                  rw [List.mem_singleton.mp (lookup_mem hfound).1, hrow]

theorem seedSettles {store : PeopleStore} (hown : Owned store) {c : Call} (hfresh : MintsFresh store c) :
    SeedSettles toLowercase store c := by
  cases c with
  | insertPerson | addAlias | resolveOrCreate | link => exact trivial
  | seed contacts mint now =>
      intro mint' now'
      exact seed_eq_self (seed_resolves hown hfresh now (0, 0)).2.2 now' mint' (0, 0)

/-! ### Every run -/

/-- Handle resolution is coherent along a run. -/
structure Coherent (history : List Call) : Prop where
  stable : ∀ done rest, history = done ++ rest → ∀ handle pid,
    resolve toLowercase handle ((calls toLowercase).run done) = some pid →
      resolve toLowercase handle ((calls toLowercase).run history) = some pid
  links : (calls toLowercase).AllSteps (LinkHolds toLowercase) history
  seeds : (calls toLowercase).AllSteps (SeedSettles toLowercase) history

theorem owned_run {history : List Call} (hfresh : (calls toLowercase).AllSteps MintsFresh history) :
    Owned ((calls toLowercase).run history) := by
  have hstart : Owned (calls toLowercase).start := fun _ hmem => absurd hmem List.not_mem_nil
  exact (calls toLowercase).invariant_of_steps hstart (fun store c hown hc => (call_spec hown hc).2) hfresh

theorem extends_run {done rest : List Call} (hfresh : (calls toLowercase).AllSteps MintsFresh (done ++ rest)) :
    Extends ((calls toLowercase).run done) ((calls toLowercase).run (done ++ rest)) := by
  induction rest using List.reverseRecOn with
  | nil =>
      rw [List.append_nil]
      exact Extends.refl _
  | append_singleton rest c ih =>
      rw [← List.append_assoc] at hfresh ⊢
      obtain ⟨hinit, hlast⟩ := (calls toLowercase).allSteps_concat.mp hfresh
      rw [Machine.run_concat]
      exact (ih hinit).trans (call_spec (owned_run toLowercase hinit) hlast).1

/-- Runs that mint new identifiers are coherent exactly when every link finds its second handle free, or with the
person of the first one. -/
theorem coherent_iff (history : List Call) (hfresh : (calls toLowercase).AllSteps MintsFresh history) :
    Coherent toLowercase history ↔ (calls toLowercase).AllSteps (LinkFree toLowercase) history := by
  have hown : ∀ done c rest, history = done ++ c :: rest → Owned ((calls toLowercase).run done) := by
    intro done c rest heq
    exact owned_run toLowercase (Machine.AllSteps.of_prefix _ hfresh ⟨c :: rest, heq.symm⟩)
  constructor
  · intro h done c rest heq
    exact (linkHolds_iff toLowercase (hown done c rest heq) (hfresh done c rest heq)).mp (h.links done c rest heq)
  · intro h
    refine ⟨?_, ?_, ?_⟩
    · rintro done rest rfl handle pid hres
      exact (extends_run toLowercase hfresh).resolve hres
    · intro done c rest heq
      exact (linkHolds_iff toLowercase (hown done c rest heq) (hfresh done c rest heq)).mpr (h done c rest heq)
    · exact fun done c rest heq => seedSettles toLowercase (hown done c rest heq) (hfresh done c rest heq)

/-- Lowercase as far as ASCII goes. -/
def asciiLowercase (s : String) : String := s.map Char.toLower

/-- A phone number is linked to a new mail address, and the contact that has both is seeded. -/
theorem coherent_contact : Coherent asciiLowercase
    [.link (.email "Ada@x.org") (.iMessage "+1 555") 1 0, .seed [⟨none, ["ada@x.org "], ["+1 555"]⟩] (· + 2) 0] := by
  refine (coherent_iff asciiLowercase _ ?_).mpr ?_
  · rw [Machine.allSteps_iff_stepsFrom]
    refine ⟨List.not_mem_nil, ⟨fun n hn => ?_, fun a b hab => Nat.add_right_cancel hab⟩, trivial⟩
    have hone : ((calls asciiLowercase).step (calls asciiLowercase).start
        (.link (.email "Ada@x.org") (.iMessage "+1 555") 1 0)).people.map Person.id = [1] := by decide +kernel
    rw [hone, List.mem_singleton] at hn
    cases hn
  · rw [Machine.allSteps_iff_stepsFrom]
    refine ⟨fun pid hpid => ?_, trivial, trivial⟩
    have hnone : resolve asciiLowercase (.iMessage "+1 555") (calls asciiLowercase).start = none := by decide +kernel
    rw [hnone] at hpid
    cases hpid

/-- Both handles have a person: the link returns the first one's, and the second handle keeps its own. -/
theorem link_taken : ¬Coherent asciiLowercase
    [.resolveOrCreate (.iMessage "+1 555") 1 0, .link (.email "ada@x.org") (.iMessage "+1 555") 2 0] := by
  intro h
  have hlast := h.links [.resolveOrCreate (.iMessage "+1 555") 1 0] _ [] rfl 2 (by decide +kernel)
  revert hlast
  decide +kernel

end TinyCortex.People
