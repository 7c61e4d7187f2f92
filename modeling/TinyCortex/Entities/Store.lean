import TinyCortex.Entities.Storable
import TinyCortex.Lib.Machine

/-! The entity registry (`entities/store.rs`, `slugify_id` of `entities/canonical.rs`): one file per kind and slug of
the id, on a file system that tells all names apart. It is a map from kinds and ids to entities exactly as far as the
entities come back from their files and no two ids in use share a slug. -/

namespace TinyCortex.Entities

open FrontMatter

/-- Characters that are not safe in file names become underscores. -/
def slugifyId (id : String) : List Char :=
  id.toList.map fun c =>
    if ['/', '\\', ':', '*', '?', '"', '<', '>', '|'].contains c || Text.isControl c then '_' else c

abbrev Files := EntityKind → List Char → Option (List Char)

section Registry

variable {τ : Type} (chrono : Chrono τ)

/-- The notes of the file that is there; a file that is not recognised is an error. -/
def existingNotes (files : Files) (kind : EntityKind) (id : String) : Option (List Char) :=
  match files kind (slugifyId id) with
  | none => some []
  | some text => if text = [] then some [] else notesBody text

/-- Write the header again over the notes; `none` is the refusal to overwrite. -/
def putEntity (now : τ) (entity : Entity τ) (files : Files) : Option (Entity τ × Files) :=
  (existingNotes files entity.kind entity.id).map fun notes =>
    let stored := { entity with updatedAt := now }
    (stored, Function.update files entity.kind
      (Function.update (files entity.kind) (slugifyId entity.id) (some (compose chrono stored notes))))

def getEntity (now : τ) (kind : EntityKind) (id : String) (files : Files) : Option (Entity τ) :=
  (files kind (slugifyId id)).bind (parse chrono now)

/-- A call of `put_entity` and the clock that it reads. -/
structure Put (τ : Type) where
  entity : Entity τ
  now : τ

/-- The files, and what was last put under every kind and id. -/
structure World (τ : Type) where
  files : Files
  map : EntityKind → String → Option (Entity τ)

def World.put (w : World τ) (p : Put τ) : World τ :=
  match putEntity chrono p.now p.entity w.files with
  | none => w
  | some (stored, files) =>
      ⟨files, Function.update w.map p.entity.kind
        (Function.update (w.map p.entity.kind) p.entity.id (some stored))⟩

def registry : Machine (World τ) (Put τ) := ⟨⟨fun _ _ => none, fun _ _ => none⟩, World.put chrono⟩

variable (used : EntityKind → String → Prop)

/-- Every id in use gives what was last put under it. -/
def MapLaw (w : World τ) : Prop :=
  ∀ now kind id, used kind id → getEntity chrono now kind id w.files = w.map kind id

/-- The entity that is stored comes back from its file, and no other id in use has its slug. -/
structure Faithful (p : Put τ) : Prop where
  storable : Storable chrono { p.entity with updatedAt := p.now }
  alone : ∀ id, used p.entity.kind id → slugifyId id = slugifyId p.entity.id → id = p.entity.id

/-- Each file holds the last entity of an id that nothing in use shares its slug with, and each entity has its file. -/
structure Mirrors (w : World τ) : Prop where
  owned : ∀ kind slug text, w.files kind slug = some text → ∃ e notes, text = compose chrono e notes ∧ e.kind = kind ∧
    slugifyId e.id = slug ∧ Storable chrono e ∧ w.map kind e.id = some e ∧
      ∀ id, used kind id → slugifyId id = slug → id = e.id
  filed : ∀ kind id e, w.map kind id = some e → ∃ text, w.files kind (slugifyId id) = some text

variable {used}

theorem mapLaw_of_mirrors {w : World τ} (h : Mirrors chrono used w) : MapLaw chrono used w := by
  intro now kind id hid
  cases hfile : w.files kind (slugifyId id) with
  | none =>
      cases hmap : w.map kind id with
      | none => rw [getEntity, hfile, Option.bind_none]
      | some e =>
          obtain ⟨text, htext⟩ := h.filed kind id e hmap
          rw [hfile] at htext
          cases htext
  | some text =>
      obtain ⟨e, notes, rfl, -, -, hstore, hmap, halone⟩ := h.owned kind _ text hfile
      rw [halone id hid rfl] at hfile ⊢
      rw [getEntity, hfile, hmap]
      exact hstore.parse_compose chrono now notes

/-- With the files of storable entities in place, a put is never refused. -/
theorem put_eq {w : World τ} (h : Mirrors chrono used w) (p : Put τ) : ∃ notes, w.put chrono p =
    ⟨Function.update w.files p.entity.kind (Function.update (w.files p.entity.kind) (slugifyId p.entity.id)
        (some (compose chrono { p.entity with updatedAt := p.now } notes))),
      Function.update w.map p.entity.kind (Function.update (w.map p.entity.kind) p.entity.id
        (some { p.entity with updatedAt := p.now }))⟩ := by
  have hnotes : ∃ notes, existingNotes w.files p.entity.kind p.entity.id = some notes := by
    unfold existingNotes
    cases hfile : w.files p.entity.kind (slugifyId p.entity.id) with
    | none => exact ⟨[], rfl⟩
    | some text =>
        obtain ⟨e, notes, rfl, -, -, hstore, -⟩ := h.owned _ _ text hfile
        dsimp only
        split_ifs
        · exact ⟨[], rfl⟩
        · exact ⟨_, notesBody_compose chrono (newline_not_mem_headerLines chrono hstore.id_line hstore.texts_line) notes⟩
  obtain ⟨notes, hnotes⟩ := hnotes
  refine ⟨notes, ?_⟩
  rw [World.put, putEntity, hnotes]
  rfl

theorem get_put {w : World τ} (h : Mirrors chrono used w) (p : Put τ) {id : String}
    (hslug : slugifyId id = slugifyId p.entity.id) (now : τ) : ∃ notes,
      getEntity chrono now p.entity.kind id (w.put chrono p).files =
        parse chrono now (compose chrono { p.entity with updatedAt := p.now } notes) := by
  obtain ⟨notes, hput⟩ := put_eq chrono h p
  refine ⟨notes, ?_⟩
  rw [hput, getEntity, hslug]
  simp only [Function.update_self]
  rfl

/-- A faithful put keeps the files in step with the map. -/
theorem mirrors_put {w : World τ} (h : Mirrors chrono used w) {p : Put τ} (hp : Faithful chrono used p) : Mirrors chrono used (w.put chrono p) := by
  obtain ⟨notes, hput⟩ := put_eq chrono h p
  rw [hput]
  constructor
  · intro kind slug text hfile
    by_cases hkind : kind = p.entity.kind
    · subst hkind
      dsimp only at hfile ⊢
      rw [Function.update_self] at hfile
      rw [Function.update_self]
      by_cases hslug : slug = slugifyId p.entity.id
      · subst hslug
        rw [Function.update_self] at hfile
        refine ⟨{ p.entity with updatedAt := p.now }, notes, (Option.some.inj hfile).symm, rfl, rfl,
          hp.storable, Function.update_self _ _ _, hp.alone⟩
      · rw [Function.update_of_ne hslug] at hfile
        obtain ⟨e, old, htext, hk, hs, hstore, hmap, halone⟩ := h.owned _ slug text hfile
        have hne : e.id ≠ p.entity.id := fun heq => hslug (by rw [← hs, heq])
        exact ⟨e, old, htext, hk, hs, hstore, (Function.update_of_ne hne _ _).trans hmap, halone⟩
    · dsimp only at hfile ⊢
      rw [Function.update_of_ne hkind] at hfile
      rw [Function.update_of_ne hkind]
      exact h.owned kind slug text hfile
  · intro kind id e hmap
    by_cases hkind : kind = p.entity.kind
    · subst hkind
      dsimp only at hmap ⊢
      rw [Function.update_self] at hmap
      rw [Function.update_self]
      by_cases hslug : slugifyId id = slugifyId p.entity.id
      · rw [hslug]
        exact ⟨_, Function.update_self _ _ _⟩
      · have hne : id ≠ p.entity.id := fun heq => hslug (by rw [heq])
        rw [Function.update_of_ne hne] at hmap
        rw [Function.update_of_ne hslug]
        exact h.filed _ id e hmap
    · dsimp only at hmap ⊢
      rw [Function.update_of_ne hkind] at hmap
      rw [Function.update_of_ne hkind]
      exact h.filed kind id e hmap

/-- A put that is not faithful breaks the law at once, for its own id or for one with the same slug. -/
theorem faithful_of_mapLaw_put {w : World τ} (h : Mirrors chrono used w) {p : Put τ}
    (hused : used p.entity.kind p.entity.id) (hlaw : MapLaw chrono used (w.put chrono p)) : Faithful chrono used p := by
  have hmap : ∀ id, (w.put chrono p).map p.entity.kind id =
      if id = p.entity.id then some { p.entity with updatedAt := p.now } else w.map p.entity.kind id := by
    intro id
    obtain ⟨notes, hput⟩ := put_eq chrono h p
    rw [hput]
    dsimp only
    rw [Function.update_self, Function.update_apply]
  have hstore : Storable chrono { p.entity with updatedAt := p.now } := by
    obtain ⟨notes, hget⟩ := get_put chrono h p rfl chrono.unixEpoch
    have hown := hlaw chrono.unixEpoch p.entity.kind p.entity.id hused
    rw [hget, hmap, if_pos rfl] at hown
    exact storable_of_parse_compose chrono chrono.epoch_year hown
  refine ⟨hstore, fun id hid hslug => ?_⟩
  by_contra hne
  obtain ⟨notes, hget⟩ := get_put chrono h p hslug p.now
  have hother := hlaw p.now p.entity.kind id hid
  rw [hget, hmap, if_neg hne,
    hstore.parse_compose chrono p.now notes] at hother
  obtain ⟨text, htext⟩ := h.filed _ id _ hother.symm
  obtain ⟨e, old, -, -, -, -, hemap, halone⟩ := h.owned _ _ text htext
  have heid := halone id hid rfl
  rw [← heid, ← hother] at hemap
  exact hne (heid.trans (congrArg Entity.id (Option.some.inj hemap)).symm)

variable (used)

/-- The registry answers as a map does, for the ids in use and after every put of them, exactly when every put is
faithful. -/
theorem mapLaw_run_iff (puts : List (Put τ)) (hused : ∀ p ∈ puts, used p.entity.kind p.entity.id) :
    (registry chrono).Throughout (MapLaw chrono used) puts ↔ ∀ p ∈ puts, Faithful chrono used p := by
  have hempty : Mirrors chrono used (registry chrono).start := by
    constructor
    · exact fun _ _ _ hfile => absurd hfile (Option.some_ne_none _).symm
    · exact fun _ _ _ hmap => absurd hmap (Option.some_ne_none _).symm
  have hguard := (registry chrono).allSteps_iff_forall_mem.mpr hused
  rw [(registry chrono).throughout_iff_allSteps, and_iff_right (mapLaw_of_mirrors chrono hempty),
    ← (registry chrono).allSteps_iff_forall_mem]
  refine (registry chrono).allSteps_iff_of_guard (Mirrors chrono used) hempty ?_ ?_ hguard
  · intro w p h _ hp
    have hnext := mirrors_put chrono h hp
    exact ⟨hnext, mapLaw_of_mirrors chrono hnext⟩
  · exact fun w p h hid hp hlaw => hp (faithful_of_mapLaw_put chrono h hid hlaw)

end Registry

/-! ### Puts of the first ten seconds -/

/-- A canonical id, alone in use, is put and read back. -/
theorem mapLaw_person : (registry firstSeconds).Throughout
    (MapLaw firstSeconds fun kind id => kind = .person ∧ id = "person:ada") [⟨freshEntity "person:ada" .person, 7⟩] := by
  refine (mapLaw_run_iff firstSeconds _ _ ?_).mpr ?_
  · exact List.forall_mem_singleton.mpr ⟨rfl, rfl⟩
  · refine List.forall_mem_singleton.mpr ⟨⟨by decide +kernel, by decide +kernel, ?_, ?_, rfl, rfl⟩, fun id hid _ => hid.2⟩
    · exact fun s hs => absurd hs (by simp [Entity.texts, freshEntity])
    · exact fun s hs => absurd hs (by simp [Entity.texts, freshEntity])

/-- Two URLs that differ in a query mark share a file: what was put under the first one is gone. -/
theorem mapLaw_urls_broken : ¬(registry firstSeconds).Throughout
    (MapLaw firstSeconds fun kind id => kind = .url ∧ (id = "url:https://x.com/p?q" ∨ id = "url:https://x.com/p/q"))
    [⟨freshEntity "url:https://x.com/p?q" .url, 7⟩, ⟨freshEntity "url:https://x.com/p/q" .url, 8⟩] := by
  intro h
  have hlaw := h _ List.prefix_rfl 9 .url "url:https://x.com/p?q" ⟨rfl, Or.inl rfl⟩
  revert hlaw
  decide +kernel

end TinyCortex.Entities
