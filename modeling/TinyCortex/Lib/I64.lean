import Mathlib

/-! Saturating arithmetic of signed 64-bit integers, on integers. -/

namespace TinyCortex.I64

def minValue : Int := -9223372036854775808

def maxValue : Int := 9223372036854775807

def saturate (x : Int) : Int := max minValue (min x maxValue)

def saturatingAdd (x y : Int) : Int := saturate (x + y)

def saturatingSub (x y : Int) : Int := saturate (x - y)

def saturatingMul (x y : Int) : Int := saturate (x * y)

theorem saturate_eq {x : Int} (hlow : minValue ≤ x) (hhigh : x ≤ maxValue) : saturate x = x := by
  simp only [saturate]
  omega

theorem saturate_mono {x y : Int} (h : x ≤ y) : saturate x ≤ saturate y := by
  simp only [saturate]
  omega

end TinyCortex.I64
