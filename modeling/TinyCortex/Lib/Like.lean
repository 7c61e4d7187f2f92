import Mathlib

/-! `LIKE` patterns with an escape character, and characters that are compared up to a folding of their case. -/

namespace TinyCortex.Like

/-- One element of a pattern. -/
inductive Token
  | any
  | one
  | literal (c : Char)
  deriving DecidableEq, Repr

/-- The elements of a pattern; an escape character at its end leaves it without a meaning. -/
def tokens (escape : Char) : List Char → Option (List Token)
  | [] => some []
  | c :: pattern =>
      if c = escape then
        match pattern with
        | [] => none
        | d :: pattern => (tokens escape pattern).map (Token.literal d :: ·)
      else
        (tokens escape pattern).map
          ((if c = '%' then Token.any else if c = '_' then Token.one else Token.literal c) :: ·)

/-- The elements of a pattern against a whole text. -/
def accepts (fold : Char → Char) : List Token → List Char → Bool
  | [], text => text.isEmpty
  | .any :: rest, text => text.tails.any (accepts fold rest)
  | .one :: _, [] => false
  | .one :: rest, _ :: text => accepts fold rest text
  | .literal _ :: _, [] => false
  | .literal c :: rest, d :: text => decide (fold c = fold d) && accepts fold rest text

/-- `text LIKE pattern ESCAPE escape`. -/
def likes (fold : Char → Char) (escape : Char) (pattern text : List Char) : Bool :=
  (tokens escape pattern).any fun parsed => accepts fold parsed text

/-- A character that a pattern would not take for itself stands behind the escape character. -/
def escapeChar (escape c : Char) : List Char :=
  if c = escape ∨ c = '%' ∨ c = '_' then [escape, c] else [c]

variable {fold : Char → Char} {escape c : Char} {needle pattern text : List Char} {rest : List Token}

theorem tokens_plain (hc : c ≠ escape) : tokens escape (c :: pattern) = (tokens escape pattern).map
    ((if c = '%' then Token.any else if c = '_' then Token.one else Token.literal c) :: ·) := by
  rw [tokens.eq_def]
  simp only [if_neg hc]

theorem tokens_special :
    tokens escape (escape :: c :: pattern) = (tokens escape pattern).map (Token.literal c :: ·) := by
  rw [tokens.eq_def]
  simp only [if_pos]

theorem tokens_escaped : tokens escape (needle.flatMap (escapeChar escape) ++ pattern) =
    (tokens escape pattern).map (needle.map Token.literal ++ ·) := by
  induction needle with
  | nil => simp
  | cons c needle ih =>
      rw [List.flatMap_cons, List.append_assoc, escapeChar]
      by_cases hspecial : c = escape ∨ c = '%' ∨ c = '_'
      · rw [if_pos hspecial]
        simp [tokens_special, ih, Function.comp_def]
      · rw [if_neg hspecial]
        rw [not_or, not_or] at hspecial
        simp [tokens_plain hspecial.1, hspecial.2, ih, Function.comp_def]

theorem accepts_any : accepts fold (Token.any :: rest) text = true ↔
    ∃ skipped kept, text = skipped ++ kept ∧ accepts fold rest kept = true := by
  rw [accepts, List.any_eq_true]
  constructor
  · intro h
    obtain ⟨kept, hkept, haccepts⟩ := h
    obtain ⟨skipped, hsplit⟩ := (List.mem_tails kept text).mp hkept
    exact ⟨skipped, kept, hsplit.symm, haccepts⟩
  · intro h
    obtain ⟨skipped, kept, hsplit, haccepts⟩ := h
    exact ⟨kept, (List.mem_tails kept text).mpr ⟨skipped, hsplit.symm⟩, haccepts⟩

theorem accepts_literals : accepts fold (needle.map Token.literal ++ rest) text = true ↔
    ∃ start kept, text = start ++ kept ∧ start.map fold = needle.map fold ∧ accepts fold rest kept = true := by
  induction needle generalizing text with
  | nil =>
      rw [List.map_nil, List.nil_append]
      constructor
      · exact fun h => ⟨[], text, List.nil_append text, List.map_nil, h⟩
      · intro h
        obtain ⟨start, kept, hsplit, hfold, haccepts⟩ := h
        obtain rfl := List.map_eq_nil_iff.mp hfold
        rwa [hsplit]
  | cons c needle ih =>
      cases text with
      | nil =>
          refine iff_of_false (by simp [accepts]) fun h => ?_
          obtain ⟨start, kept, hsplit, hfold, -⟩ := h
          obtain ⟨rfl, -⟩ := List.append_eq_nil_iff.mp hsplit.symm
          cases hfold
      | cons d text =>
          rw [List.map_cons, List.cons_append, accepts, Bool.and_eq_true, decide_eq_true_eq, ih, List.map_cons]
          constructor
          · intro h
            obtain ⟨hc, start, kept, hsplit, hfold, haccepts⟩ := h
            exact ⟨d :: start, kept, by rw [hsplit, List.cons_append], by rw [List.map_cons, hfold, hc], haccepts⟩
          · intro h
            obtain ⟨start, kept, hsplit, hfold, haccepts⟩ := h
            cases start with
            | nil => cases hfold
            | cons e start =>
                rw [List.cons_append, List.cons.injEq] at hsplit
                rw [List.map_cons, List.cons.injEq, ← hsplit.1] at hfold
                exact ⟨hfold.1.symm, start, kept, hsplit.2, hfold.2, haccepts⟩

/-- An escaped text between two wildcards asks whether it stands somewhere in the other one, letter by letter. -/
theorem likes_escaped_iff (hany : escape ≠ '%') :
    likes fold escape ('%' :: (needle.flatMap (escapeChar escape) ++ ['%'])) text = true ↔
      needle.map fold <:+: text.map fold := by
  have hlast : tokens escape ['%'] = some [Token.any] := by
    rw [tokens_plain hany.symm]
    simp [tokens]
  have htokens : tokens escape ('%' :: (needle.flatMap (escapeChar escape) ++ ['%'])) =
      some (Token.any :: (needle.map Token.literal ++ [Token.any])) := by
    rw [tokens_plain hany.symm, tokens_escaped, hlast]
    simp
  have hends : ∀ kept : List Char, accepts fold [Token.any] kept = true := fun kept =>
    accepts_any.mpr ⟨kept, [], (List.append_nil kept).symm, by simp [accepts]⟩
  rw [likes, htokens, Option.any_some, accepts_any]
  constructor
  · intro h
    obtain ⟨skipped, kept, hsplit, haccepts⟩ := h
    obtain ⟨start, last, hkept, hfold, -⟩ := accepts_literals.mp haccepts
    refine ⟨skipped.map fold, last.map fold, ?_⟩
    rw [hsplit, hkept, List.map_append, List.map_append, hfold, List.append_assoc]
  · intro h
    obtain ⟨before, after, hsplit⟩ := h
    obtain ⟨front, last, htext, hfront, -⟩ := List.map_eq_append_iff.mp hsplit.symm
    obtain ⟨skipped, start, hskipped, -, hstart⟩ := List.map_eq_append_iff.mp hfront
    refine ⟨skipped, start ++ last, by rw [htext, hskipped, List.append_assoc], ?_⟩
    exact accepts_literals.mpr ⟨start, last, Eq.refl _, hstart, hends last⟩

/-- A folded letter is folded already. -/
theorem toLower_idem (c : Char) : c.toLower.toLower = c.toLower := by
  by_cases hupper : c.val ≥ 'A'.val ∧ c.val ≤ 'Z'.val
  · have hlower : ¬ (c.toLower.val ≥ 'A'.val ∧ c.toLower.val ≤ 'Z'.val) := by
      have hlow : 65 ≤ c.toNat := UInt32.le_iff_toNat_le.mp hupper.1
      have hhigh : c.toNat ≤ 90 := UInt32.le_iff_toNat_le.mp hupper.2
      rw [Char.toLower, dif_pos hupper]
      simp only [ge_iff_le, UInt32.le_iff_toNat_le, UInt32.toNat_add]
      simp
      omega
    rw [Char.toLower, dif_neg hlower]
  · have hsame : c.toLower = c := by rw [Char.toLower, dif_neg hupper]
    rw [hsame, hsame]

end TinyCortex.Like
