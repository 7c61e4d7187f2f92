import TinyCortex.Lib.Text

/-! RFC 3339 text of timestamps. -/

namespace TinyCortex

/-- Timestamps. Their RFC 3339 text is read back if the year has four digits, as that format wants it, and
is refused for the years before and behind. -/
structure Chrono (τ : Type) where
  toRfc3339 : τ → List Char
  parseFromRfc3339 : List Char → Option τ
  unixEpoch : τ
  fourDigitYear : τ → Bool
  parse_format : ∀ t, parseFromRfc3339 (toRfc3339 t) = if fourDigitYear t then some t else none
  epoch_year : fourDigitYear unixEpoch = true
  plain : ∀ t, toRfc3339 t ≠ [] ∧ ∀ c ∈ toRfc3339 t, Text.isWhitespace c = false ∧ c ≠ '"'

namespace Chrono

variable {τ : Type} (chrono : Chrono τ)

/-- What is read, or a default if it is refused, is the time itself exactly for a year of four digits. -/
theorem getD_parse_iff {t default : τ} (hdefault : chrono.fourDigitYear default = true) :
    (chrono.parseFromRfc3339 (chrono.toRfc3339 t)).getD default = t ↔ chrono.fourDigitYear t = true := by
  rw [chrono.parse_format]
  by_cases hyear : chrono.fourDigitYear t = true
  · rw [if_pos hyear]
    exact iff_of_true (Eq.refl _) hyear
  · rw [if_neg hyear]
    refine iff_of_false (fun heq => ?_) hyear
    rw [Option.getD_none] at heq
    exact hyear (heq ▸ hdefault)

end Chrono
end TinyCortex
