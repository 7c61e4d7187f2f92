import Mathlib

/-! Maps as association lists in the order of their keys. -/

namespace TinyCortex

abbrev OrderedMap (κ ν : Type*) := List (κ × ν)

namespace OrderedMap

variable {κ ν : Type*} [LinearOrder κ]

def get (m : OrderedMap κ ν) (key : κ) : Option ν := (m.find? fun row => row.1 = key).map (·.2)

def insert (m : OrderedMap κ ν) (key : κ) (value : ν) : OrderedMap κ ν :=
  match m with
  | [] => [(key, value)]
  | (k, v) :: rest =>
      if key < k then (key, value) :: (k, v) :: rest
      else if key = k then (key, value) :: rest
      else (k, v) :: insert rest key value

def erase (m : OrderedMap κ ν) (key : κ) : OrderedMap κ ν := m.filter fun row => row.1 ≠ key

/-- The keys ascend, so no key occurs twice. -/
def Ordered (m : OrderedMap κ ν) : Prop := m.Pairwise fun a b => a.1 < b.1

variable {m : OrderedMap κ ν} {key other : κ} {value : ν}

@[simp] theorem get_nil : get ([] : OrderedMap κ ν) key = none := rfl

theorem get_cons (k : κ) (v : ν) (rest : OrderedMap κ ν) :
    get ((k, v) :: rest) key = if k = key then some v else get rest key := by
  rw [get, List.find?_cons]
  by_cases h : k = key
  · rw [if_pos h, decide_eq_true h]
    rfl
  · rw [if_neg h, decide_eq_false h]
    rfl

theorem get_insert :
    get (insert m key value) other = if key = other then some value else get m other := by
  induction m with
  | nil => rw [insert, get_cons]
  | cons row rest ih =>
      obtain ⟨k, v⟩ := row
      rw [insert]
      by_cases hlt : key < k
      · rw [if_pos hlt, get_cons]
      · rw [if_neg hlt]
        by_cases heq : key = k
        · subst heq
          rw [if_pos rfl, get_cons, get_cons]
          split_ifs <;> rfl
        · rw [if_neg heq, get_cons, get_cons, ih]
          by_cases hother : key = other
          · rw [if_pos hother, if_pos hother, if_neg fun h => heq (hother.trans h.symm)]
          · rw [if_neg hother, if_neg hother]

/-- A map of inserted rows holds the values of these rows. -/
theorem get_foldl_insert {rows : List (κ × ν)}
    (h : get (rows.foldl (fun m row => insert m row.1 row.2) m) key = some value) :
    get m key = some value ∨ ∃ row ∈ rows, row.2 = value := by
  induction rows generalizing m with
  | nil => exact Or.inl h
  | cons row rows ih =>
      rcases ih h with hm | ⟨other, hother, hvalue⟩
      · rw [get_insert] at hm
        split_ifs at hm with hkey
        · exact Or.inr ⟨row, List.mem_cons_self, Option.some.inj hm⟩
        · exact Or.inl hm
      · exact Or.inr ⟨other, List.mem_cons_of_mem _ hother, hvalue⟩

theorem get_erase : get (erase m key) other = if key = other then none else get m other := by
  induction m with
  | nil => split_ifs <;> rfl
  | cons row rest ih =>
      obtain ⟨k, v⟩ := row
      rw [erase] at ih ⊢
      rw [List.filter_cons, get_cons]
      by_cases hk : k = key
      · subst hk
        rw [if_neg (by simp), ih]
        split_ifs <;> rfl
      · rw [if_pos (decide_eq_true hk), get_cons, ih]
        by_cases hother : key = other
        · rw [if_pos hother, if_pos hother, if_neg fun h => hk (h.trans hother.symm)]
        · rw [if_neg hother, if_neg hother]

theorem mem_keys_iff : key ∈ m.map (·.1) ↔ (get m key).isSome := by
  induction m with
  | nil => simp
  | cons row rest ih =>
      obtain ⟨k, v⟩ := row
      rw [List.map_cons, List.mem_cons, get_cons, ih]
      by_cases hk : k = key
      · rw [if_pos hk]
        exact iff_of_true (Or.inl hk.symm) rfl
      · rw [if_neg hk]
        exact or_iff_right fun h => hk h.symm

theorem ordered_nil : Ordered ([] : OrderedMap κ ν) := List.Pairwise.nil

theorem mem_insert {row : κ × ν} (h : row ∈ insert m key value) : row = (key, value) ∨ row ∈ m := by
  induction m with
  | nil => exact Or.inl (List.mem_singleton.mp h)
  | cons first rest ih =>
      obtain ⟨k, v⟩ := first
      rw [insert] at h
      split_ifs at h with hlt heq
      · exact List.mem_cons.mp h
      · rcases List.mem_cons.mp h with hrow | hrow
        · exact Or.inl hrow
        · exact Or.inr (List.mem_cons_of_mem _ hrow)
      · rcases List.mem_cons.mp h with rfl | hrow
        · exact Or.inr List.mem_cons_self
        · rcases ih hrow with hnew | hold
          · exact Or.inl hnew
          · exact Or.inr (List.mem_cons_of_mem _ hold)

theorem Ordered.insert (h : Ordered m) : Ordered (insert m key value) := by
  induction m with
  | nil => exact List.pairwise_singleton _ _
  | cons first rest ih =>
      obtain ⟨k, v⟩ := first
      obtain ⟨hfirst, hrest⟩ := List.pairwise_cons.mp h
      rw [OrderedMap.insert]
      split_ifs with hlt heq
      · refine List.pairwise_cons.mpr ⟨fun row hrow => ?_, h⟩
        rcases List.mem_cons.mp hrow with rfl | hrow
        · exact hlt
        · exact hlt.trans (hfirst row hrow)
      · subst heq
        exact List.pairwise_cons.mpr ⟨hfirst, hrest⟩
      · refine List.pairwise_cons.mpr ⟨fun row hrow => ?_, ih hrest⟩
        rcases mem_insert hrow with rfl | hrow
        · exact lt_of_le_of_ne (not_lt.mp hlt) (Ne.symm heq)
        · exact hfirst row hrow

theorem Ordered.erase (h : Ordered m) : Ordered (erase m key) := h.filter _

theorem Ordered.mem_iff (h : Ordered m) : (key, value) ∈ m ↔ get m key = some value := by
  induction m with
  | nil => simp
  | cons first rest ih =>
      obtain ⟨k, v⟩ := first
      obtain ⟨hfirst, hrest⟩ := List.pairwise_cons.mp h
      rw [get_cons, List.mem_cons]
      split_ifs with hk
      · subst hk
        rw [Option.some.injEq]
        constructor
        · rintro (heq | hmem)
          · exact (Prod.mk.inj heq).2.symm
          · exact absurd (hfirst _ hmem) (lt_irrefl k)
        · rintro rfl
          exact Or.inl rfl
      · rw [← ih hrest]
        constructor
        · rintro (heq | hmem)
          · exact absurd (Prod.mk.inj heq).1.symm hk
          · exact hmem
        · exact Or.inr

theorem Ordered.get_filter (h : Ordered m) {p : κ × ν → Bool} :
    get (m.filter p) key = some value ↔ get m key = some value ∧ p (key, value) := by
  have hfiltered : Ordered (m.filter p) := List.Pairwise.filter p h
  rw [← hfiltered.mem_iff, ← h.mem_iff, List.mem_filter]

end OrderedMap
end TinyCortex
