import Mathlib

/-! Balls and spheres of a graph, grown by one step: what a breadth-first search goes through. -/

namespace TinyCortex.Spheres

variable {V : Type*} {G : SimpleGraph V} {u v w : V} {k : ℕ}

theorem edist_le_of_adj (h : G.edist u w ≤ k) (hadj : G.Adj w v) : G.edist u v ≤ (k + 1 : ℕ) := by
  have htriangle : G.edist u v ≤ G.edist u w + G.edist w v := SimpleGraph.edist_triangle
  refine htriangle.trans ?_
  rw [SimpleGraph.edist_eq_one_iff_adj.mpr hadj, Nat.cast_add, Nat.cast_one]
  exact add_le_add h le_rfl

/-- Behind the last step of a shortest walk the distance is one less. -/
theorem edist_le_succ_iff : G.edist u v ≤ (k + 1 : ℕ) ↔ G.edist u v ≤ k ∨ ∃ w, G.edist u w ≤ k ∧ G.Adj w v := by
  constructor
  · intro h
    rw [SimpleGraph.edist_comm] at h
    obtain ⟨p, hp⟩ := SimpleGraph.exists_walk_of_edist_ne_top (ne_top_of_le_ne_top (ENat.natCast_ne_top _) h)
    rw [← hp, Nat.cast_le] at h
    cases p with
    | nil =>
        left
        rw [SimpleGraph.edist_self]
        exact zero_le
    | cons hadj q =>
        right
        rw [SimpleGraph.Walk.length_cons, Nat.add_le_add_iff_right] at h
        refine ⟨_, ?_, hadj.symm⟩
        rw [SimpleGraph.edist_comm]
        exact (SimpleGraph.edist_le q).trans (Nat.cast_le.mpr h)
  · intro h
    rcases h with h | ⟨w, hw, hadj⟩
    · exact h.trans (Nat.cast_le.mpr (Nat.le_succ k))
    · exact edist_le_of_adj hw hadj

theorem edist_eq_succ_iff : G.edist u v = (k + 1 : ℕ) ↔ ¬G.edist u v ≤ k ∧ G.edist u v ≤ (k + 1 : ℕ) := by
  constructor
  · intro h
    rw [h, Nat.cast_le, Nat.cast_le]
    omega
  · intro h
    refine le_antisymm h.2 ?_
    rw [Nat.cast_add, Nat.cast_one]
    exact Order.add_one_le_of_lt (not_le.mp h.1)

/-- The next sphere: the neighbours of the sphere that are outside the ball. -/
theorem edist_eq_succ_iff_adj :
    G.edist u v = (k + 1 : ℕ) ↔ ¬G.edist u v ≤ k ∧ ∃ w, G.edist u w = k ∧ G.Adj w v := by
  rw [edist_eq_succ_iff, edist_le_succ_iff]
  refine and_congr_right fun hout => ?_
  rw [or_iff_right hout]
  constructor
  · intro h
    obtain ⟨w, hw, hadj⟩ := h
    refine ⟨w, le_antisymm hw ?_, hadj⟩
    cases k with
    | zero => exact zero_le
    | succ k =>
        by_contra hlt
        have hnear : G.edist u w ≤ k := by
          rw [not_le, Nat.cast_add, Nat.cast_one] at hlt
          exact Order.le_of_lt_add_one hlt
        exact hout (edist_le_of_adj hnear hadj)
  · intro h
    obtain ⟨w, hw, hadj⟩ := h
    exact ⟨w, hw.le, hadj⟩

end TinyCortex.Spheres
