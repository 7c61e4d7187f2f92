import Mathlib

/-! Parts of a list that are packed up to a bound: none is longer, and two that stand next to each other are longer
together. So few parts hold a long list. -/

namespace TinyCortex.Packing

variable {α : Type*} {bound : Nat} {parts : List (List α)} {part : List α}

structure Packed (bound : Nat) (parts : List (List α)) : Prop where
  short : ∀ part ∈ parts, part.length ≤ bound
  filled : parts.IsChain fun before part => bound < before.length + part.length

theorem Packed.nil : Packed bound ([] : List (List α)) := ⟨nofun, .nil⟩

/-- A part is put behind the last one when it does not fit into that one. -/
theorem Packed.concat (h : Packed bound parts) (hpart : part.length ≤ bound)
    (hlast : ∀ before ∈ parts.getLast?, bound < before.length + part.length) : Packed bound (parts ++ [part]) where
  short other hother := by
    rcases List.mem_append.mp hother with hold | hnew
    · exact h.short other hold
    · rwa [List.mem_singleton.mp hnew]
  filled := by
    refine h.filled.append (.singleton part) ?_
    intro before hbefore next hnext
    rw [List.head?_cons, Option.mem_some_iff] at hnext
    rw [← hnext]
    exact hlast before hbefore

theorem Packed.dropLast (h : Packed bound (parts ++ [part])) : Packed bound parts where
  short other hother := h.short other (List.mem_append_left _ hother)
  filled := (List.isChain_append.mp h.filled).1

/-- The last part may get longer up to the bound. -/
theorem Packed.grow (h : Packed bound (parts ++ [part])) {longer : List α} (hle : part.length ≤ longer.length)
    (hlonger : longer.length ≤ bound) : Packed bound (parts ++ [longer]) := by
  refine h.dropLast.concat hlonger fun before hbefore => ?_
  have hfilled : bound < before.length + part.length :=
    (List.isChain_append.mp h.filled).2.2 before hbefore part rfl
  omega

/-- Each two parts hold more than the bound. -/
theorem Packed.bound_mul_le (h : Packed bound parts) : (bound + 1) * (parts.length / 2) ≤ parts.flatten.length := by
  obtain ⟨n, hn⟩ : ∃ n, parts.length ≤ n := ⟨_, le_rfl⟩
  induction n using Nat.strong_induction_on generalizing parts with
  | _ n ih =>
      match parts, h, hn with
      | [], _, _ => simp
      | [_], _, _ => simp
      | first :: second :: rest, h, hn =>
          have hpair : bound < first.length + second.length := (List.isChain_cons_cons.mp h.filled).1
          have hrest : Packed bound rest := by
            refine ⟨fun part hpart => h.short part (List.mem_cons_of_mem _ (List.mem_cons_of_mem _ hpart)), ?_⟩
            exact (List.isChain_cons_cons.mp h.filled).2.tail
          simp only [List.length_cons] at hn
          have hle := ih (n - 2) (by omega) hrest (by omega)
          have hhalf : (rest.length + 1 + 1) / 2 = rest.length / 2 + 1 := by omega
          rw [List.length_cons, List.length_cons, hhalf, Nat.mul_add, List.flatten_cons, List.flatten_cons,
            List.length_append, List.length_append]
          omega

/-- A list is packed into at most three parts of half its length. -/
theorem Packed.length_le_three (h : Packed bound parts) (hlong : parts.flatten.length ≤ 2 * bound + 1) :
    parts.length ≤ 3 := by
  by_contra hmany
  have hle := h.bound_mul_le
  have htwo : 2 ≤ parts.length / 2 := by omega
  have hmul : (bound + 1) * 2 ≤ (bound + 1) * (parts.length / 2) := Nat.mul_le_mul_left _ htwo
  omega

end TinyCortex.Packing
