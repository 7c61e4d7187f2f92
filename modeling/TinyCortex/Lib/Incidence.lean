import Mathlib

/-! Incidences of elements and the sets they are placed in: how many places two elements share, and by how much
that number changes when a place takes in further elements or lets some go. -/

namespace TinyCortex.Incidence

variable {ε ν : Type*} [DecidableEq ν]

/-- The number of places that two elements share. -/
def shared (places : ε → Finset ν) (a b : ε) : Nat := (places a ∩ places b).card

theorem shared_comm (places : ε → Finset ν) (a b : ε) : shared places a b = shared places b a := by
  rw [shared, Finset.inter_comm, shared]

/-- No pair that shares a place loses it. -/
theorem shared_eq_iff_of_le {places fewer : ε → Finset ν} (hle : ∀ a, fewer a ⊆ places a) :
    (∀ a b, a ≠ b → shared fewer a b = shared places a b) ↔
      ∀ a b n, a ≠ b → n ∈ places a → n ∈ places b → n ∈ fewer a := by
  have hsub : ∀ a b, fewer a ∩ fewer b ⊆ places a ∩ places b :=
    fun a b => Finset.inter_subset_inter (hle a) (hle b)
  constructor
  · intro h a b n hab ha hb
    have heq := Finset.eq_of_subset_of_card_le (hsub a b) (h a b hab).ge
    have hn : n ∈ fewer a ∩ fewer b := heq ▸ Finset.mem_inter.mpr ⟨ha, hb⟩
    exact (Finset.mem_inter.mp hn).1
  · intro h a b hab
    have heq : fewer a ∩ fewer b = places a ∩ places b := by
      apply (hsub a b).antisymm
      intro n hn
      obtain ⟨ha, hb⟩ := Finset.mem_inter.mp hn
      exact Finset.mem_inter.mpr ⟨h a b n hab ha hb, h b a n hab.symm hb ha⟩
    rw [shared, heq, shared]

variable [DecidableEq ε]

/-- The place takes in the elements. -/
def place (places : ε → Finset ν) (ids : List ε) (n : ν) (a : ε) : Finset ν :=
  if a ∈ ids then insert n (places a) else places a

theorem mem_place {places : ε → Finset ν} {ids : List ε} {n m : ν} {a : ε} :
    m ∈ place places ids n a ↔ (m = n ∧ a ∈ ids) ∨ m ∈ places a := by
  unfold place
  split_ifs with ha
  · simp [ha]
  · simp [ha]

/-- The pair shares the place once it has taken in the elements, and did not before. -/
def Joins (places : ε → Finset ν) (ids : List ε) (n : ν) (a b : ε) : Prop :=
  (a ∈ ids ∨ n ∈ places a) ∧ (b ∈ ids ∨ n ∈ places b) ∧ ¬(n ∈ places a ∧ n ∈ places b)

instance (places : ε → Finset ν) (ids : List ε) (n : ν) (a b : ε) : Decidable (Joins places ids n a b) :=
  inferInstanceAs (Decidable (_ ∧ _))

theorem shared_place (places : ε → Finset ν) (ids : List ε) (n : ν) (a b : ε) :
    shared (place places ids n) a b = shared places a b + if Joins places ids n a b then 1 else 0 := by
  have hmem : ∀ m, m ∈ place places ids n a ∩ place places ids n b ↔
      m ∈ places a ∩ places b ∨ (m = n ∧ Joins places ids n a b) := by
    intro m
    simp only [Finset.mem_inter, mem_place, Joins]
    by_cases hm : m = n
    · subst hm
      tauto
    · tauto
  by_cases hjoins : Joins places ids n a b
  · have hins : place places ids n a ∩ place places ids n b = insert n (places a ∩ places b) := by
      ext m
      rw [hmem, Finset.mem_insert]
      tauto
    have hnew : n ∉ places a ∩ places b := fun hn => hjoins.2.2 (Finset.mem_inter.mp hn)
    rw [shared, hins, Finset.card_insert_of_notMem hnew, if_pos hjoins, shared]
  · have hsame : place places ids n a ∩ place places ids n b = places a ∩ places b := by
      ext m
      rw [hmem]
      tauto
    rw [shared, hsame, if_neg hjoins, shared, Nat.add_zero]

/-- The place holds at most one element, which is taken in again, or one element that it holds is taken in. -/
def PlacedWhole (places : ε → Finset ν) (ids : List ε) (n : ν) : Prop :=
  ((∀ a, n ∈ places a → a ∈ ids) ∧ ∀ a b, n ∈ places a → n ∈ places b → a = b) ∨
    ((∀ a ∈ ids, n ∈ places a) ∧ ∀ a ∈ ids, ∀ b ∈ ids, a = b)

/-- Taking in elements joins exactly the pairs of these elements when they are placed whole. -/
theorem joins_iff_placedWhole {places : ε → Finset ν} {ids : List ε} {n : ν} :
    (∀ a b, a ≠ b → (Joins places ids n a b ↔ a ∈ ids ∧ b ∈ ids)) ↔ PlacedWhole places ids n := by
  constructor
  · intro h
    by_cases hold : ∀ a, n ∈ places a → a ∈ ids
    · refine Or.inl ⟨hold, fun a b ha hb => ?_⟩
      by_contra hab
      exact ((h a b hab).mpr ⟨hold a ha, hold b hb⟩).2.2 ⟨ha, hb⟩
    · push Not at hold
      obtain ⟨c, hc, hcids⟩ := hold
      have hin : ∀ a ∈ ids, n ∈ places a := by
        intro a ha
        by_contra hna
        have hne : a ≠ c := fun heq => hcids (heq ▸ ha)
        exact hcids ((h a c hne).mp ⟨Or.inl ha, Or.inr hc, fun hboth => hna hboth.1⟩).2
      refine Or.inr ⟨hin, fun a ha b hb => ?_⟩
      by_contra hab
      exact ((h a b hab).mpr ⟨ha, hb⟩).2.2 ⟨hin a ha, hin b hb⟩
  · rintro (⟨hold, hone⟩ | ⟨hin, hone⟩) a b hab
    · refine ⟨fun hj => ⟨hj.1.elim id (hold a), hj.2.1.elim id (hold b)⟩, fun hids => ?_⟩
      exact ⟨Or.inl hids.1, Or.inl hids.2, fun hboth => hab (hone a b hboth.1 hboth.2)⟩
    · constructor
      · intro hj
        exact absurd ⟨hj.1.elim (hin a) id, hj.2.1.elim (hin b) id⟩ hj.2.2
      · intro hids
        exact absurd (hone a hids.1 b hids.2) hab

/-- The numbers grow by one for exactly the pairs of the elements taken in when these are placed whole. -/
theorem shared_place_eq_iff {places : ε → Finset ν} {ids : List ε} {n : ν} :
    (∀ a b, a ≠ b → shared (place places ids n) a b =
      shared places a b + if a ∈ ids ∧ b ∈ ids then 1 else 0) ↔ PlacedWhole places ids n := by
  rw [← joins_iff_placedWhole]
  refine forall_congr' fun a => forall_congr' fun b => imp_congr_right fun _ => ?_
  rw [shared_place, Nat.add_left_cancel_iff]
  by_cases hj : Joins places ids n a b
  · by_cases hids : a ∈ ids ∧ b ∈ ids
    · simp [hj, hids]
    · simp [hj, hids]
  · by_cases hids : a ∈ ids ∧ b ∈ ids
    · simp [hj, hids]
    · simp [hj, hids]

end TinyCortex.Incidence
