import Mathlib

/-! Numbers as decimal texts. -/

namespace TinyCortex.Decimal

theorem not_mem_toDigits {c : Char} (h : c.isDigit = false) (n : Nat) : c ∉ Nat.toDigits 10 n := by
  intro hmem
  rw [Nat.isDigit_of_mem_toDigits (by decide) (by decide) hmem] at h
  cases h

theorem toDigits_inj {n m : Nat} (h : Nat.toDigits 10 n = Nat.toDigits 10 m) : n = m := by
  have hread := congrArg (Nat.ofDigitChars 10 · 0) h
  rwa [Nat.ofDigitChars_ten_toDigits, Nat.ofDigitChars_ten_toDigits] at hread

theorem toList_ofNat (n : Nat) : (toString (Int.ofNat n)).toList = Nat.toDigits 10 n := Nat.toList_repr

theorem toList_negSucc (n : Nat) : (toString (Int.negSucc n)).toList = '-' :: Nat.toDigits 10 (n + 1) := by
  rw [show toString (Int.negSucc n) = "-" ++ (n + 1).repr from rfl, String.toList_append, Nat.toList_repr]
  rfl

/-- The sign and the digits of a number determine it. -/
theorem toString_inj {a b : Int} (h : toString a = toString b) : a = b := by
  have hchars := congrArg String.toList h
  cases a with
  | ofNat n =>
      cases b with
      | ofNat m =>
          rw [toList_ofNat, toList_ofNat] at hchars
          rw [toDigits_inj hchars]
      | negSucc m =>
          rw [toList_ofNat, toList_negSucc] at hchars
          exact absurd (hchars ▸ List.mem_cons_self) (not_mem_toDigits (by decide) n)
  | negSucc n =>
      cases b with
      | ofNat m =>
          rw [toList_negSucc, toList_ofNat] at hchars
          exact absurd (hchars ▸ List.mem_cons_self) (not_mem_toDigits (by decide) m)
      | negSucc m =>
          rw [toList_negSucc, toList_negSucc] at hchars
          have hsucc := toDigits_inj (List.cons.inj hchars).2
          rw [Nat.succ.inj hsucc]

/-- A number is written with digits and a sign. -/
theorem isDigit_of_mem {a : Int} {c : Char} (h : c ∈ (toString a).toList) : c = '-' ∨ c.isDigit := by
  cases a with
  | ofNat n =>
      rw [toList_ofNat] at h
      exact Or.inr (Nat.isDigit_of_mem_toDigits (by decide) (by decide) h)
  | negSucc n =>
      rw [toList_negSucc] at h
      rcases List.mem_cons.mp h with hsign | hdigit
      · exact Or.inl hsign
      · exact Or.inr (Nat.isDigit_of_mem_toDigits (by decide) (by decide) hdigit)

/-! ### Reading numbers -/

/-- The digits of a number, at least one. -/
def parseDigits (digits : List Char) : Option Nat :=
  if digits ≠ [] ∧ digits.all Char.isDigit then some (Nat.ofDigitChars 10 digits 0) else none

/-- `str::parse` of an unsigned type with so many values; a plus sign is allowed. -/
def parseUnsigned (bound : Nat) (text : List Char) : Option Nat :=
  (match text with
    | '+' :: digits => parseDigits digits
    | digits => parseDigits digits).filter (· < bound)

/-- `str::parse` of a signed type with so many values on either side. -/
def parseSigned (bound : Nat) (text : List Char) : Option Int :=
  match text with
  | '-' :: digits => ((parseDigits digits).filter (· ≤ bound)).map fun n => -(n : Int)
  | text => (parseUnsigned bound text).map Int.ofNat

theorem parseDigits_padded (k n : Nat) : parseDigits (List.replicate k '0' ++ Nat.toDigits 10 n) = some n := by
  have hall : (List.replicate k '0' ++ Nat.toDigits 10 n).all Char.isDigit := by
    rw [List.all_eq_true]
    intro c hc
    rcases List.mem_append.mp hc with hzero | hdigit
    · rw [List.eq_of_mem_replicate hzero]
      rfl
    · exact Nat.isDigit_of_mem_toDigits (by decide) (by decide) hdigit
  have hne : List.replicate k '0' ++ Nat.toDigits 10 n ≠ [] :=
    List.append_ne_nil_of_right_ne_nil _ Nat.toDigits_ne_nil
  rw [parseDigits, if_pos ⟨hne, hall⟩]
  rw [Nat.ofDigitChars_append, Nat.ofDigitChars_replicate_zero, Nat.mul_zero, Nat.ofDigitChars_ten_toDigits]

theorem parseUnsigned_padded {bound n : Nat} (h : n < bound) (k : Nat) :
    parseUnsigned bound (List.replicate k '0' ++ Nat.toDigits 10 n) = some n := by
  have hdigits := parseDigits_padded k n
  unfold parseUnsigned
  split
  · rename_i digits heq
    exfalso
    have hmem : '+' ∈ List.replicate k '0' ++ Nat.toDigits 10 n := heq ▸ List.mem_cons_self
    rcases List.mem_append.mp hmem with hzero | hdigit
    · exact absurd (List.eq_of_mem_replicate hzero) (by decide)
    · exact not_mem_toDigits (by decide) n hdigit
  · rw [hdigits, Option.filter_some, if_pos (decide_eq_true h)]

theorem parseUnsigned_toDigits {bound n : Nat} (h : n < bound) : parseUnsigned bound (Nat.toDigits 10 n) = some n :=
  parseUnsigned_padded h 0

theorem parseSigned_toString {bound : Nat} {a : Int} (hlow : -(bound : Int) ≤ a) (hhigh : a < bound) :
    parseSigned bound (toString a).toList = some a := by
  cases a with
  | ofNat n =>
      have hn : n < bound := by
        have hcast : (n : Int) < bound := hhigh
        omega
      rw [toList_ofNat]
      unfold parseSigned
      split
      · rename_i digits heq
        exact absurd (heq ▸ List.mem_cons_self) (not_mem_toDigits (by decide) n)
      · rw [parseUnsigned_toDigits hn]
        rfl
  | negSucc n =>
      have hn : n + 1 ≤ bound := by omega
      have hdigits : parseDigits (Nat.toDigits 10 (n + 1)) = some (n + 1) := parseDigits_padded 0 (n + 1)
      rw [toList_negSucc, parseSigned, hdigits, Option.filter_some, if_pos (decide_eq_true hn)]
      rfl

end TinyCortex.Decimal
