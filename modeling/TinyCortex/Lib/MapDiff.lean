import Mathlib

/-! Differences of maps: a list of changes that has each key on which two maps differ once, with what they
hold there. -/

namespace TinyCortex.MapDiff

variable {κ ι ν μ : Type*}

/-- What one map has at a key and what the other one does. -/
structure Change (κ ν : Type*) where
  key : κ
  old : Option ν
  new : Option ν

/-- The changes are the differences of two maps, and no difference within some keys is missing. -/
structure ExactOn (within : κ → Prop) (older newer : κ → Option ν) (changes : List (Change κ ν)) : Prop where
  nodup : (changes.map (·.key)).Nodup
  old_eq : ∀ c ∈ changes, c.old = older c.key
  new_eq : ∀ c ∈ changes, c.new = newer c.key
  differs : ∀ c ∈ changes, older c.key ≠ newer c.key
  complete : ∀ key, within key → older key ≠ newer key → key ∈ changes.map (·.key)

abbrev Exact (older newer : κ → Option ν) (changes : List (Change κ ν)) : Prop :=
  ExactOn (fun _ => True) older newer changes

variable {older newer : κ → Option ν} {changes : List (Change κ ν)} {within : κ → Prop}

/-- The changes of keys that are read as names, under these names. -/
def renamed (read : κ → Option ι) (changes : List (Change κ ν)) : List (Change ι ν) :=
  changes.filterMap fun c => (read c.key).map fun name => ⟨name, c.old, c.new⟩

theorem mem_renamed {read : κ → Option ι} {c' : Change ι ν} (h : c' ∈ renamed read changes) :
    ∃ c ∈ changes, read c.key = some c'.key ∧ c.old = c'.old ∧ c.new = c'.new := by
  obtain ⟨c, hc, hread⟩ := List.mem_filterMap.mp h
  obtain ⟨name, hname, rfl⟩ := Option.map_eq_some_iff.mp hread
  exact ⟨c, hc, hname, Eq.refl _, Eq.refl _⟩

/-- The differences under names that the keys of the changes are read as. -/
theorem ExactOn.renamed (h : ExactOn within older newer changes) {key : ι → κ} {read : κ → Option ι}
    (hread : ∀ name, read (key name) = some name) (hwithin : ∀ name, within (key name))
    (hkey : ∀ c ∈ changes, ∀ name, read c.key = some name → c.key = key name) :
    Exact (fun name => older (key name)) (fun name => newer (key name)) (renamed read changes) := by
  have hof : ∀ c' ∈ MapDiff.renamed read changes,
      ∃ c ∈ changes, c.key = key c'.key ∧ c.old = c'.old ∧ c.new = c'.new := by
    intro c' hc'
    obtain ⟨c, hc, hname, hold, hnew⟩ := mem_renamed hc'
    exact ⟨c, hc, hkey c hc _ hname, hold, hnew⟩
  refine ⟨?_, fun c' hc' => ?_, fun c' hc' => ?_, fun c' hc' => ?_, fun name _ hne => ?_⟩
  · have hkeys : (MapDiff.renamed read changes).map (·.key) = (changes.map (·.key)).filterMap read := by
      rw [MapDiff.renamed, List.map_filterMap, List.filterMap_map]
      apply List.filterMap_congr
      intro c _
      rw [Option.map_map]
      exact Option.map_id_apply
    rw [hkeys]
    -- Two keys of the changes that are read as one name are the key of that name.
    apply List.pairwise_filterMap.mpr
    refine h.nodup.imp_of_mem fun hk hk' hne name hname name' hname' heq => ?_
    obtain ⟨c, hc, rfl⟩ := List.mem_map.mp hk
    obtain ⟨c', hc', rfl⟩ := List.mem_map.mp hk'
    subst heq
    exact hne ((hkey c hc _ hname).trans (hkey c' hc' _ hname').symm)
  · obtain ⟨c, hc, hck, hold, -⟩ := hof c' hc'
    rw [← hold, h.old_eq c hc, hck]
  · obtain ⟨c, hc, hck, -, hnew⟩ := hof c' hc'
    rw [← hnew, h.new_eq c hc, hck]
  · obtain ⟨c, hc, hck, -, -⟩ := hof c' hc'
    rw [← hck]
    exact h.differs c hc
  · obtain ⟨c, hc, hck⟩ := List.mem_map.mp (h.complete (key name) (hwithin name) hne)
    refine List.mem_map.mpr ⟨⟨name, c.old, c.new⟩, List.mem_filterMap.mpr ⟨c, hc, ?_⟩, Eq.refl _⟩
    rw [hck, hread, Option.map_some]

/-- No more changes leave something than there are keys in the newer map. -/
theorem ExactOn.length_le (h : ExactOn within older newer changes) {keys : List κ}
    (hkeys : ∀ key, newer key ≠ none → key ∈ keys) : (changes.filter (·.new.isSome)).length ≤ keys.length := by
  have hnodup : ((changes.filter (·.new.isSome)).map (·.key)).Nodup :=
    h.nodup.sublist (List.filter_sublist.map _)
  rw [← List.length_map (·.key)]
  apply (List.subperm_of_subset hnodup _).length_le
  intro key hkey
  obtain ⟨c, hc, rfl⟩ := List.mem_map.mp hkey
  obtain ⟨hmem, hsome⟩ := List.mem_filter.mp hc
  apply hkeys
  rw [← h.new_eq c hmem]
  exact Option.isSome_iff_ne_none.mp hsome

variable [DecidableEq κ]

/-- The differences among some keys. -/
def between [DecidableEq ν] (keys : List κ) (older newer : κ → Option ν) : List (Change κ ν) :=
  (keys.dedup.filter fun key => older key ≠ newer key).map fun key => ⟨key, older key, newer key⟩

theorem exactOn_between [DecidableEq ν] {keys : List κ}
    (hkeys : ∀ key, within key → older key ≠ newer key → key ∈ keys) :
    ExactOn within older newer (between keys older newer) := by
  have hmap : (between keys older newer).map (·.key) = keys.dedup.filter fun key => older key ≠ newer key := by
    rw [between, List.map_map]
    exact List.map_id _
  have hmem : ∀ c ∈ between keys older newer, c = ⟨c.key, older c.key, newer c.key⟩ ∧ older c.key ≠ newer c.key := by
    intro c hc
    obtain ⟨key, hkey, rfl⟩ := List.mem_map.mp hc
    exact ⟨Eq.refl _, of_decide_eq_true (List.mem_filter.mp hkey).2⟩
  refine ⟨?_, fun c hc => congrArg Change.old (hmem c hc).1, fun c hc => congrArg Change.new (hmem c hc).1,
    fun c hc => (hmem c hc).2, fun key hwithin hne => ?_⟩
  · rw [hmap]
    exact (List.nodup_dedup keys).filter _
  · rw [hmap]
    exact List.mem_filter.mpr ⟨List.mem_dedup.mpr (hkeys key hwithin hne), decide_eq_true hne⟩

/-! ### Applying changes -/

def apply (changes : List (Change κ ν)) (m : κ → Option ν) : κ → Option ν :=
  changes.foldl (fun m c => Function.update m c.key c.new) m

theorem apply_of_not_mem {key : κ} (h : key ∉ changes.map (·.key)) (m : κ → Option ν) :
    apply changes m key = m key := by
  induction changes generalizing m with
  | nil => rfl
  | cons c changes ih =>
      obtain ⟨hhead, htail⟩ := not_or.mp (mt List.mem_cons.mpr h)
      change apply changes (Function.update m c.key c.new) key = m key
      rw [ih htail, Function.update_of_ne hhead]

theorem apply_of_mem (hnodup : (changes.map (·.key)).Nodup) {c : Change κ ν} (h : c ∈ changes) (m : κ → Option ν) :
    apply changes m c.key = c.new := by
  induction changes generalizing m with
  | nil => exact absurd h List.not_mem_nil
  | cons first changes ih =>
      obtain ⟨hfirst, hrest⟩ := List.nodup_cons.mp hnodup
      change apply changes (Function.update m first.key first.new) c.key = c.new
      rcases List.mem_cons.mp h with rfl | hmem
      · rw [apply_of_not_mem hfirst, Function.update_self]
      · exact ih hrest hmem _

/-- The differences applied to the one map give the other, also when only a part `f` of each value is kept. -/
theorem ExactOn.apply_map (h : Exact older newer changes) (f : ν → μ) :
    apply (changes.map fun c => ⟨c.key, c.old.map f, c.new.map f⟩) (fun key => (older key).map f) =
      fun key => (newer key).map f := by
  have hkeys : (changes.map fun c => (⟨c.key, c.old.map f, c.new.map f⟩ : Change κ μ)).map (·.key) =
      changes.map (·.key) := List.map_map
  funext key
  by_cases hkey : key ∈ changes.map (·.key)
  · obtain ⟨c, hc, rfl⟩ := List.mem_map.mp hkey
    have hmem := List.mem_map_of_mem (f := fun c : Change κ ν => (⟨c.key, c.old.map f, c.new.map f⟩ : Change κ μ)) hc
    rw [← h.new_eq c hc]
    exact apply_of_mem (hkeys ▸ h.nodup) hmem _
  · rw [apply_of_not_mem (hkeys ▸ hkey)]
    by_contra hne
    exact hkey (h.complete key trivial fun heq => hne (congrArg (Option.map f) heq))

end TinyCortex.MapDiff
