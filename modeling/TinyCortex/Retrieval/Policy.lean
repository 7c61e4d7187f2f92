import TinyCortex.Retrieval.Cover

/-! The limits of retrieval and their validation (`config/policy.rs`). A float is its value, if it is finite. -/

namespace TinyCortex.Retrieval

structure RetrievalPolicy where
  defaultLimit : Nat
  searchDefaultLimit : Nat
  coverDefaultLimit : Nat
  maxLimit : Nat
  occurrenceLookupLimit : Nat
  maxGraphHops : Nat
  defaultGraphHops : Nat
  topicLookupLimit : Nat
  windowChunkPageSize : Nat
  fetchBatchLimit : Nat
  freshnessHalfLifeDays : Option ℚ
  deriving DecidableEq

open Fallible (ensure ensure_eq_ok)

namespace RetrievalPolicy

def default : RetrievalPolicy where
  defaultLimit := 10
  searchDefaultLimit := 5
  coverDefaultLimit := 200
  maxLimit := 100
  occurrenceLookupLimit := 500
  maxGraphHops := 4
  defaultGraphHops := 2
  topicLookupLimit := 200
  windowChunkPageSize := 5000
  fetchBatchLimit := 20
  freshnessHalfLifeDays := some 7

variable (policy : RetrievalPolicy)

def validate : Except String Unit := do
  ensure (0 < policy.defaultLimit ∧ 0 < policy.searchDefaultLimit ∧ 0 < policy.coverDefaultLimit)
    "retrieval default limits must be positive"
  ensure (policy.defaultLimit ≤ policy.maxLimit) "retrieval.limits.max_limit must cover the default"
  ensure (0 < policy.occurrenceLookupLimit ∧ 0 < policy.topicLookupLimit ∧ 0 < policy.windowChunkPageSize ∧
    0 < policy.fetchBatchLimit) "retrieval candidate and page limits must be positive"
  ensure (0 < policy.defaultGraphHops ∧ policy.defaultGraphHops ≤ policy.maxGraphHops)
    "retrieval graph hop bounds are invalid"
  ensure (∃ days ∈ policy.freshnessHalfLifeDays, 0 < days) "retrieval freshness half-life must be positive"

/-- The part of the policy that a cover reads. -/
def limits : RetrievalLimits := ⟨policy.coverDefaultLimit, policy.windowChunkPageSize⟩

variable {policy}

theorem validate_ok_iff : policy.validate = .ok () ↔
    (0 < policy.defaultLimit ∧ 0 < policy.searchDefaultLimit ∧ 0 < policy.coverDefaultLimit) ∧
    policy.defaultLimit ≤ policy.maxLimit ∧
    (0 < policy.occurrenceLookupLimit ∧ 0 < policy.topicLookupLimit ∧ 0 < policy.windowChunkPageSize ∧
      0 < policy.fetchBatchLimit) ∧
    (0 < policy.defaultGraphHops ∧ policy.defaultGraphHops ≤ policy.maxGraphHops) ∧
    ∃ days ∈ policy.freshnessHalfLifeDays, 0 < days := by
  rw [validate]
  simp only [Fallible.bind_ok_iff, ensure_eq_ok]
  simp

theorem limits_valid (h : policy.validate = .ok ()) : policy.limits.Valid := by
  obtain ⟨hdefaults, -, hpages, -⟩ := validate_ok_iff.mp h
  exact ⟨hdefaults.2.2, hpages.2.2.1⟩

/-- The default limits pass their own check. -/
theorem validate_default : default.validate = .ok () := by
  rw [validate_ok_iff]
  decide

end RetrievalPolicy
end TinyCortex.Retrieval
