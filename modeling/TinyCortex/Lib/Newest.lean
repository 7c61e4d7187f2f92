import Mathlib

/-! Running maxima by key: a fold over items, some of which carry a key and a value, that keeps the
greatest value of each key. -/

namespace TinyCortex

section Newest

variable {α κ ν : Type*} [LinearOrder ν]

/-- Keep the greater of the value kept under a key and a new one. -/
def raiseTo [DecidableEq κ] (best : κ → Option ν) (key : κ) (value : ν) : κ → Option ν :=
  Function.update best key (some (match best key with
    | some current => if current < value then value else current
    | none => value))

/-- What a fold keeps: no kept value gets lost, every item is bounded, and every value comes from an
item or was there before. -/
structure Newest (entry : α → Option (κ × ν)) (before : κ → Option ν) (items : List α)
    (after : κ → Option ν) : Prop where
  mono : ∀ key value, before key = some value → ∃ kept, after key = some kept ∧ value ≤ kept
  bound : ∀ item ∈ items, ∀ key value, entry item = some (key, value) →
    ∃ kept, after key = some kept ∧ value ≤ kept
  origin : ∀ key kept, after key = some kept →
    before key = some kept ∨ ∃ item ∈ items, entry item = some (key, kept)

namespace Newest

variable {entry : α → Option (κ × ν)} {before mid after : κ → Option ν} {items : List α} {item : α}

theorem nil (entry : α → Option (κ × ν)) (before : κ → Option ν) : Newest entry before [] before where
  mono := fun _ value h => ⟨value, h, le_rfl⟩
  bound := fun _ h => absurd h List.not_mem_nil
  origin := fun _ _ h => Or.inl h

theorem skip (h : entry item = none) : Newest entry before [item] before where
  mono := fun _ value h => ⟨value, h, le_rfl⟩
  bound := by
    intro other hother key value hentry
    rw [List.mem_singleton.mp hother, h] at hentry
    cases hentry
  origin := fun _ _ h => Or.inl h

theorem trans (h : Newest entry before [item] mid) (h' : Newest entry mid items after) :
    Newest entry before (item :: items) after where
  mono := by
    intro key value hbefore
    obtain ⟨kept, hmid, hle⟩ := h.mono key value hbefore
    obtain ⟨kept', hafter, hle'⟩ := h'.mono key kept hmid
    exact ⟨kept', hafter, hle.trans hle'⟩
  bound := by
    intro other hother key value hentry
    rcases List.mem_cons.mp hother with rfl | hrest
    · obtain ⟨kept, hmid, hle⟩ := h.bound other List.mem_cons_self key value hentry
      obtain ⟨kept', hafter, hle'⟩ := h'.mono key kept hmid
      exact ⟨kept', hafter, hle.trans hle'⟩
    · exact h'.bound other hrest key value hentry
  origin := by
    intro key kept hafter
    rcases h'.origin key kept hafter with hmid | ⟨other, hother, hentry⟩
    · refine (h.origin key kept hmid).imp_right ?_
      rintro ⟨other, hother, hentry⟩
      exact ⟨other, List.mem_singleton.mp hother ▸ List.mem_cons_self, hentry⟩
    · exact Or.inr ⟨other, List.mem_cons_of_mem _ hother, hentry⟩

theorem raise [DecidableEq κ] {key : κ} {value : ν} (h : entry item = some (key, value)) :
    Newest entry before [item] (raiseTo before key value) := by
  have hkept : ∃ kept, raiseTo before key value key = some kept ∧ value ≤ kept ∧
      (∀ old, before key = some old → old ≤ kept) ∧ (kept = value ∨ before key = some kept) := by
    refine ⟨_, Function.update_self _ _ _, ?_⟩
    cases before key with
    | none => exact ⟨le_rfl, by simp, Or.inl rfl⟩
    | some current =>
        dsimp only
        split_ifs with hlt
        · refine ⟨le_rfl, fun old hold => ?_, Or.inl rfl⟩
          rw [← Option.some.inj hold]
          exact hlt.le
        · exact ⟨not_lt.mp hlt, fun old hold => (Option.some.inj hold).ge, Or.inr rfl⟩
  have hother : ∀ other, other ≠ key → raiseTo before key value other = before other :=
    fun other hne => Function.update_of_ne hne _ _
  obtain ⟨kept, hself, hvalue, hold, hfrom⟩ := hkept
  refine ⟨fun other old hbefore => ?_, fun found hfound other old hentry => ?_,
    fun other new hafter => ?_⟩
  · by_cases hsame : other = key
    · subst hsame
      exact ⟨kept, hself, hold old hbefore⟩
    · exact ⟨old, (hother other hsame).trans hbefore, le_rfl⟩
  · rw [List.mem_singleton.mp hfound, h] at hentry
    obtain ⟨rfl, rfl⟩ := Prod.mk.inj (Option.some.inj hentry)
    exact ⟨kept, hself, hvalue⟩
  · by_cases hsame : other = key
    · subst hsame
      obtain rfl := Option.some.inj (hself.symm.trans hafter)
      rcases hfrom with rfl | hbefore
      · exact Or.inr ⟨item, List.mem_cons_self, h⟩
      · exact Or.inl hbefore
    · exact Or.inl ((hother other hsame).symm.trans hafter)

/-- A fold whose step handles one item is right when the step is. -/
theorem foldl {step : (κ → Option ν) → α → κ → Option ν}
    (hstep : ∀ before item, Newest entry before [item] (step before item)) (items : List α)
    (before : κ → Option ν) : Newest entry before items (items.foldl step before) := by
  induction items generalizing before with
  | nil => exact nil entry before
  | cons item items ih => exact (hstep before item).trans (ih _)

end Newest
end Newest

end TinyCortex
