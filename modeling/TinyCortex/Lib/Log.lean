import Mathlib

/-! Entries of a log, addressed by position: what an appended and what an amended log hold where. -/

namespace TinyCortex.Log

variable {α : Type*} {entries : List α} {entry found : α} {i j : Nat}

theorem getElem?_concat_cases (h : (entries ++ [entry])[i]? = some found) :
    entries[i]? = some found ∨ (i = entries.length ∧ found = entry) := by
  have hlt := (List.getElem?_eq_some_iff.mp h).1
  rw [List.length_append, List.length_singleton] at hlt
  by_cases hi : i < entries.length
  · rw [List.getElem?_append_left hi] at h
    exact Or.inl h
  · obtain rfl : i = entries.length := by omega
    rw [List.getElem?_concat_length] at h
    exact Or.inr ⟨rfl, (Option.some.inj h).symm⟩

theorem getElem?_concat_of_some (h : entries[i]? = some found) :
    (entries ++ [entry])[i]? = some found :=
  (List.getElem?_append_left (List.getElem?_eq_some_iff.mp h).1).trans h

theorem getElem?_set_cases (h : (entries.set i entry)[j]? = some found) :
    (j = i ∧ found = entry) ∨ (j ≠ i ∧ entries[j]? = some found) := by
  rw [List.getElem?_set] at h
  split_ifs at h with hij hlt
  · exact Or.inl ⟨hij.symm, (Option.some.inj h).symm⟩
  · exact Or.inr ⟨fun heq => hij heq.symm, h⟩

theorem getElem?_set_self_of_some (h : entries[i]? = some found) :
    (entries.set i entry)[i]? = some entry :=
  List.getElem?_set_self (List.getElem?_eq_some_iff.mp h).1

theorem getElem?_set_of_ne (hne : j ≠ i) : (entries.set i entry)[j]? = entries[j]? :=
  List.getElem?_set_ne fun h => hne h.symm

end TinyCortex.Log
