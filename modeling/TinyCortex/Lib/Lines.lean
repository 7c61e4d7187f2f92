import Mathlib

/-! Bytes as lines: a file is its terminated lines and the tail behind the last newline, and a text is
its UTF-8 bytes. -/

namespace TinyCortex.Lines

section Split

variable {α : Type*} (sep : α)

/-- Lines one after the other, each with its separator. -/
def joined (lines : List (List α)) : List α := lines.flatMap fun line => line ++ [sep]

variable {sep}

theorem joined_cons (line : List α) (lines : List (List α)) :
    joined sep (line :: lines) = line ++ sep :: joined sep lines := by
  rw [joined, List.flatMap_cons, List.append_assoc]
  rfl

theorem joined_append (lines more : List (List α)) :
    joined sep (lines ++ more) = joined sep lines ++ joined sep more := List.flatMap_append

theorem joined_flatMap {β : Type*} (l : List β) (f : β → List (List α)) :
    joined sep (l.flatMap f) = l.flatMap fun b => joined sep (f b) := List.flatMap_assoc

theorem joined_eq_intercalate (lines : List (List α)) :
    joined sep lines = List.intercalate [sep] (lines ++ [[]]) := by
  induction lines with
  | nil => rfl
  | cons line lines ih =>
      rw [joined_cons, ih, List.cons_append,
        List.intercalate_cons_of_ne_nil (List.append_ne_nil_of_right_ne_nil _ (List.cons_ne_nil _ _)),
        List.append_assoc, List.singleton_append]

theorem joined_eq_intercalate_append {lines : List (List α)} (h : lines ≠ []) :
    joined sep lines = List.intercalate [sep] lines ++ [sep] := by
  induction lines with
  | nil => exact absurd rfl h
  | cons line lines ih =>
      rw [joined_cons]
      by_cases hnil : lines = []
      · rw [hnil, List.intercalate_singleton]
        rfl
      · rw [ih hnil, List.intercalate_cons_of_ne_nil hnil, List.append_assoc, List.append_assoc]
        rfl

variable [DecidableEq α]

variable (sep) in

/-- The terminated pieces, without their separators, and what follows the last separator. -/
def split : List α → List (List α) × List α
  | [] => ([], [])
  | b :: rest =>
      if b = sep then ([] :: (split rest).1, (split rest).2)
      else match (split rest).1 with
        | [] => ([], b :: (split rest).2)
        | line :: lines => ((b :: line) :: lines, (split rest).2)

theorem not_mem_tail (bytes : List α) : sep ∉ (split sep bytes).2 := by
  induction bytes with
  | nil => exact List.not_mem_nil
  | cons b rest ih =>
      rw [split]
      split_ifs with hb
      · exact ih
      · cases (split sep rest).1 with
        | nil => exact fun hmem => (List.mem_cons.mp hmem).elim (fun h => hb h.symm) ih
        | cons line lines => exact ih

theorem not_mem_line {bytes line : List α} (h : line ∈ (split sep bytes).1) : sep ∉ line := by
  induction bytes generalizing line with
  | nil => exact absurd h List.not_mem_nil
  | cons b rest ih =>
      rw [split] at h
      split_ifs at h with hb
      · rcases List.mem_cons.mp h with rfl | hrest
        · exact List.not_mem_nil
        · exact ih hrest
      · cases hlines : (split sep rest).1 with
        | nil =>
            rw [hlines] at h
            exact absurd h List.not_mem_nil
        | cons first lines =>
            rw [hlines] at h ih
            rcases List.mem_cons.mp h with rfl | hrest
            · intro hmem
              rcases List.mem_cons.mp hmem with heq | hfirst
              · exact hb heq.symm
              · exact ih List.mem_cons_self hfirst
            · exact ih (List.mem_cons_of_mem first hrest)

theorem splitOn_joined {lines : List (List α)} (h : ∀ line ∈ lines, sep ∉ line) :
    (joined sep lines).splitOn sep = lines ++ [[]] := by
  rw [joined_eq_intercalate]
  refine List.splitOn_intercalate sep ?_ (List.append_ne_nil_of_right_ne_nil _ (List.cons_ne_nil _ _))
  exact List.forall_mem_append.mpr ⟨h, List.forall_mem_singleton.mpr List.not_mem_nil⟩

theorem joined_splitOn (l : List α) : joined sep (l.splitOn sep) = l ++ [sep] := by
  rw [joined_eq_intercalate_append (List.splitOn_ne_nil sep l), List.intercalate_splitOn]

/-- What holds of the lines and of the empty one holds of the pieces of the joined lines. -/
theorem forall_mem_splitOn_intercalate {P : List α → Prop} {lines : List (List α)} (hempty : P [])
    (hsep : ∀ line ∈ lines, sep ∉ line) (h : ∀ line ∈ lines, P line) :
    ∀ line ∈ (List.intercalate [sep] lines).splitOn sep, P line := by
  by_cases hnil : lines = []
  · rw [hnil]
    exact List.forall_mem_singleton.mpr hempty
  · rw [List.splitOn_intercalate sep hsep hnil]
    exact h

theorem split_of_not_mem {tail : List α} (h : sep ∉ tail) : split sep tail = ([], tail) := by
  induction tail with
  | nil => rfl
  | cons b rest ih =>
      rw [List.mem_cons, not_or] at h
      rw [split, if_neg (Ne.symm h.1), ih h.2]

theorem split_line {line : List α} (h : sep ∉ line) (rest : List α) :
    split sep (line ++ sep :: rest) = (line :: (split sep rest).1, (split sep rest).2) := by
  induction line with
  | nil => rw [List.nil_append, split, if_pos rfl]
  | cons b line ih =>
      rw [List.mem_cons, not_or] at h
      rw [List.cons_append, split, if_neg (Ne.symm h.1), ih h.2]

/-- What is appended continues the tail. -/
theorem split_append (bytes rest : List α) :
    split sep (bytes ++ rest) =
      ((split sep bytes).1 ++ (split sep ((split sep bytes).2 ++ rest)).1,
        (split sep ((split sep bytes).2 ++ rest)).2) := by
  induction bytes with
  | nil => rfl
  | cons b bytes ih =>
      rw [List.cons_append, split]
      by_cases hb : b = sep
      · rw [if_pos hb, ih, split, if_pos hb]
        rfl
      · rw [if_neg hb, ih, split, if_neg hb]
        cases (split sep bytes).1 with
        | nil =>
            dsimp only
            rw [List.nil_append, List.nil_append, List.cons_append, split, if_neg hb]
        | cons line lines => rfl

theorem split_joined {lines : List (List α)} (h : ∀ line ∈ lines, sep ∉ line) :
    split sep (joined sep lines) = (lines, []) := by
  induction lines with
  | nil => rfl
  | cons line lines ih =>
      obtain ⟨hline, hlines⟩ := List.forall_mem_cons.mp h
      rw [joined_cons, split_line hline, ih hlines]

/-- However a file of lines is cut off, its terminated lines are the first of them. -/
theorem split_take_joined {lines : List (List α)} (h : ∀ line ∈ lines, sep ∉ line) (cut : Nat) :
    (split sep ((joined sep lines).take cut)).1 <+: lines := by
  induction lines generalizing cut with
  | nil =>
      rw [joined, List.flatMap_nil, List.take_nil]
      exact List.prefix_rfl
  | cons line lines ih =>
      obtain ⟨hline, hlines⟩ := List.forall_mem_cons.mp h
      rw [joined_cons, List.take_append]
      by_cases hcut : cut ≤ line.length
      · rw [Nat.sub_eq_zero_of_le hcut, List.take_zero, List.append_nil,
          split_of_not_mem fun hmem => hline (List.mem_of_mem_take hmem)]
        exact List.nil_prefix
      · obtain ⟨more, rfl⟩ := Nat.exists_eq_add_of_lt (Nat.not_le.mp hcut)
        rw [List.take_of_length_le (by omega), Nat.add_assoc, Nat.add_sub_cancel_left,
          List.take_succ_cons, split_line hline]
        exact List.cons_prefix_cons.mpr ⟨rfl, ih hlines more⟩

end Split

/-- The UTF-8 bytes of a text. -/
def encode (text : String) : List UInt8 := text.toList.flatMap String.utf8EncodeChar

/-- The text of some bytes, if they are UTF-8. -/
def decode (bytes : List UInt8) : Option String :=
  bytes.toByteArray.utf8Decode?.map fun chars => String.ofList chars.toList

theorem decode_encode (text : String) : decode (encode text) = some text := by
  have hbytes : (encode text).toByteArray = text.toList.utf8Encode := rfl
  rw [decode, hbytes, List.utf8Decode?_utf8Encode, Option.map_some, List.toList_toArray,
    String.ofList_toList]

def newline : UInt8 := 10

/-- Bytes of a longer character have their high bit set. -/
theorem newline_ne_or {x b : UInt8} (hb : 128 ≤ b.toNat) : newline ≠ x ||| b := by
  intro h
  have hle : b.toNat ≤ (x ||| b).toNat := by
    rw [UInt8.toNat_or]
    exact Nat.right_le_or
  rw [← h] at hle
  have hten : newline.toNat = 10 := rfl
  omega

theorem newline_not_mem_utf8EncodeChar {c : Char} (h : c ≠ '\n') :
    newline ∉ String.utf8EncodeChar c := by
  have hhigh : ∀ {x : UInt8}, newline ≠ x ||| 0x80 := newline_ne_or (by decide)
  rcases c.utf8Size_eq with hsize | hsize | hsize | hsize
  · rw [String.utf8EncodeChar_eq_singleton hsize, List.mem_singleton]
    intro heq
    have hle : c.val.toNat ≤ 127 := UInt32.le_iff_toNat_le.mp (Char.utf8Size_eq_one_iff.mp hsize)
    have hval : c.val.toNat % 256 = 10 := (congrArg UInt8.toNat heq).symm
    have hten : c.val.toNat = 10 := by
      rw [← hval, Nat.mod_eq_of_lt (by omega)]
    exact h (Char.ext (UInt32.toNat_inj.mp hten))
  · rw [String.utf8EncodeChar_eq_cons_cons hsize]
    simp [hhigh, newline_ne_or]
  · rw [String.utf8EncodeChar_eq_cons_cons_cons hsize]
    simp [hhigh, newline_ne_or]
  · rw [String.utf8EncodeChar_eq_cons_cons_cons_cons hsize]
    simp [hhigh, newline_ne_or]

theorem newline_not_mem_encode {text : String} (h : '\n' ∉ text.toList) :
    newline ∉ encode text := by
  rw [encode, List.mem_flatMap]
  rintro ⟨c, hc, hmem⟩
  refine newline_not_mem_utf8EncodeChar ?_ hmem
  rintro rfl
  exact h hc

end TinyCortex.Lines
