import TinyCortex.Lib.Lines

/-! The first place where a pattern stands in a text, and what is around it. -/

namespace TinyCortex.FirstMatch

open Lines (joined joined_cons)

variable {α : Type*} [DecidableEq α] {sep : α} {more pat : List α}

/-- What stands before the first occurrence of a pattern, and what stands behind it. -/
def splitOnce (pat : List α) : List α → Option (List α × List α)
  | [] => if pat = [] then some ([], []) else none
  | c :: rest =>
      if pat <+: c :: rest then some ([], (c :: rest).drop pat.length)
      else (splitOnce pat rest).map fun parts => (c :: parts.1, parts.2)

theorem splitOnce_self (rest : List α) : splitOnce pat (pat ++ rest) = some ([], rest) := by
  cases h : pat ++ rest with
  | nil =>
      obtain ⟨rfl, rfl⟩ := List.append_eq_nil_iff.mp h
      rw [splitOnce, if_pos (Eq.refl _)]
  | cons c tail =>
      have hprefixed : pat <+: c :: tail := h ▸ List.prefix_append _ _
      rw [splitOnce, if_pos hprefixed, ← h, List.drop_left]

theorem splitOnce_cons_of_not {c : α} {rest : List α} (h : ¬pat <+: c :: rest) :
    splitOnce pat (c :: rest) = (splitOnce pat rest).map fun parts => (c :: parts.1, parts.2) := by
  rw [splitOnce, if_neg h]

/-- A pattern that starts with a separator does not start inside a line. -/
theorem splitOnce_line {line : List α} (h : sep ∉ line) (rest : List α) :
    splitOnce (sep :: more) (line ++ rest) =
      (splitOnce (sep :: more) rest).map fun parts => (line ++ parts.1, parts.2) := by
  induction line with
  | nil =>
      rw [List.nil_append]
      exact Option.map_id'.symm
  | cons c line ih =>
      obtain ⟨hc, hline⟩ := not_or.mp (mt List.mem_cons.mpr h)
      have hnot : ¬sep :: more <+: c :: (line ++ rest) := fun hpre => hc (List.cons_prefix_cons.mp hpre).1
      rw [List.cons_append, splitOnce_cons_of_not hnot, ih hline, Option.map_map]
      rfl

/-- The pattern is found behind lines none of which starts as the pattern goes on. -/
theorem splitOnce_joined {lines : List (List α)} (hsep : ∀ line ∈ lines, sep ∉ line)
    (hmore : ∀ line ∈ lines, ∀ tail, ¬more <+: line ++ sep :: tail) (rest : List α) :
    splitOnce (sep :: more) (sep :: (joined sep lines ++ (more ++ rest))) =
      some ((sep :: joined sep lines).dropLast, rest) := by
  induction lines with
  | nil => exact splitOnce_self rest
  | cons line lines ih =>
      obtain ⟨hline, hsep⟩ := List.forall_mem_cons.mp hsep
      obtain ⟨hstart, hmore⟩ := List.forall_mem_cons.mp hmore
      rw [joined_cons, List.append_assoc, List.cons_append]
      have hnot : ¬sep :: more <+: sep :: (line ++ sep :: (joined sep lines ++ (more ++ rest))) :=
        fun hpre => hstart _ (List.cons_prefix_cons.mp hpre).2
      have hlast : (sep :: (line ++ sep :: joined sep lines)).dropLast =
          sep :: (line ++ (sep :: joined sep lines).dropLast) := by
        rw [← List.cons_append, List.dropLast_append_of_ne_nil (List.cons_ne_nil _ _), List.cons_append]
      rw [splitOnce_cons_of_not hnot, splitOnce_line hline, ih hsep hmore, hlast]
      rfl

omit [DecidableEq α] in
/-- Lines with a separator before them instead of behind them. -/
theorem dropLast_joined (init : List (List α)) (last : List α) :
    (sep :: joined sep (init ++ [last])).dropLast = joined sep ([] :: init) ++ last := by
  have hlast : joined sep [last] = last ++ [sep] := by
    rw [joined_cons]
    rfl
  rw [Lines.joined_append, hlast, joined_cons, List.nil_append, ← List.append_assoc, ← List.cons_append,
    List.dropLast_concat, List.cons_append]

/-- A text splits as it was put together, unless the pattern stands earlier. -/
theorem eq_of_splitOnce {text front back : List α} (h : splitOnce pat text = some (front, back)) :
    text = front ++ pat ++ back := by
  induction text generalizing front with
  | nil =>
      rw [splitOnce] at h
      split_ifs at h with hnil
      obtain ⟨rfl, rfl⟩ := Prod.mk.inj (Option.some.inj h)
      rw [hnil]
      rfl
  | cons c rest ih =>
      rw [splitOnce] at h
      split_ifs at h with hpre
      · obtain ⟨rfl, rfl⟩ := Prod.mk.inj (Option.some.inj h)
        obtain ⟨tail, htail⟩ := hpre
        rw [← htail, List.drop_left, List.nil_append]
      · obtain ⟨⟨front', back'⟩, hrest, heq⟩ := Option.map_eq_some_iff.mp h
        obtain ⟨rfl, rfl⟩ := Prod.mk.inj heq
        rw [ih hrest]
        rfl

end TinyCortex.FirstMatch
