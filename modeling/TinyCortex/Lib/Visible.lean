import TinyCortex.Lib.FrontMatter
import TinyCortex.Lib.Text

/-! What is left of a text without its whitespace, and how many bytes a text has. Trimming takes nothing else away. -/

namespace TinyCortex.Visible

open Text

/-- The characters of a text that are not whitespace. -/
def visible (text : List Char) : List Char := text.filter fun c => !isWhitespace c

/-- `str::len`. -/
def size (text : List Char) : Nat := (text.map Char.utf8Size).sum

/-- `str::trim`. -/
def trim (text : List Char) : List Char := (text.dropWhile isWhitespace).rdropWhile isWhitespace

def isBlank (text : List Char) : Bool := text.all isWhitespace

variable {text more : List Char}

@[simp] theorem visible_nil : visible [] = [] := rfl

@[simp] theorem visible_append (text more : List Char) : visible (text ++ more) = visible text ++ visible more :=
  List.filter_append ..

@[simp] theorem visible_newline : visible ['\n'] = [] := by decide

@[simp] theorem size_nil : size [] = 0 := rfl

@[simp] theorem size_cons (c : Char) (text : List Char) : size (c :: text) = c.utf8Size + size text := by
  rw [size, List.map_cons, List.sum_cons, size]

@[simp] theorem size_append (text more : List Char) : size (text ++ more) = size text + size more := by
  rw [size, List.map_append, List.sum_append, size, size]

@[simp] theorem size_newline : size ['\n'] = 1 := by decide

theorem length_le_size (text : List Char) : text.length ≤ size text := by
  induction text with
  | nil => exact Nat.le_refl 0
  | cons c text ih =>
      have hpos := c.utf8Size_pos
      rw [List.length_cons, size_cons]
      omega

theorem size_le_of_length_le_one (h : text.length ≤ 1) : size text ≤ 4 := by
  match text with
  | [] => exact Nat.zero_le 4
  | [c] =>
      have hle := c.utf8Size_le_four
      rw [size_cons, size_nil]
      omega
  | _ :: _ :: _ =>
      rw [List.length_cons, List.length_cons] at h
      omega

theorem visible_eq_nil_iff : visible text = [] ↔ isBlank text = true := by
  rw [visible, List.filter_eq_nil_iff, isBlank, List.all_eq_true]
  simp

/-! ### Trimming -/

theorem visible_dropWhile (text : List Char) : visible (text.dropWhile isWhitespace) = visible text := by
  induction text with
  | nil => rfl
  | cons c text ih =>
      rw [List.dropWhile_cons]
      split_ifs with hc
      · rw [ih, visible, visible, List.filter_cons_of_neg (by simp [hc])]
      · rfl

theorem visible_rdropWhile (text : List Char) : visible (text.rdropWhile isWhitespace) = visible text := by
  have hreverse := visible_dropWhile text.reverse
  rw [visible, visible, List.filter_reverse] at hreverse
  rw [visible, visible, List.rdropWhile, List.filter_reverse, hreverse, List.reverse_reverse]

@[simp] theorem visible_trim (text : List Char) : visible (trim text) = visible text := by
  rw [trim, visible_rdropWhile, visible_dropWhile]

theorem size_le_of_sublist (h : text.Sublist more) : size text ≤ size more := by
  induction h with
  | slnil => exact Nat.le_refl _
  | cons c _ ih =>
      rw [size_cons]
      omega
  | cons_cons c _ ih =>
      rw [size_cons, size_cons]
      omega

theorem trim_sublist (text : List Char) : (trim text).Sublist text :=
  (List.rdropWhile_prefix _ _).sublist.trans (List.dropWhile_sublist _)

theorem size_trim_le (text : List Char) : size (trim text) ≤ size text := size_le_of_sublist (trim_sublist text)

/-- A newline at the end is trimmed. -/
theorem trim_append_newline (text : List Char) : trim (text ++ ['\n']) = trim text := by
  have hspace : isWhitespace '\n' = true := by decide
  rw [trim, trim, List.dropWhile_append]
  split_ifs with hblank
  · rw [List.isEmpty_iff] at hblank
    rw [hblank]
    decide
  · exact List.rdropWhile_concat_pos _ _ _ hspace

/-- Whitespace in front is trimmed. -/
theorem trim_append_of_blank (h : isBlank text = true) (more : List Char) : trim (text ++ more) = trim more := by
  rw [trim, trim, List.dropWhile_append]
  have hnil : text.dropWhile isWhitespace = [] := List.dropWhile_eq_nil_iff.mpr (List.all_eq_true.mp h)
  rw [hnil]
  rfl

theorem trim_eq_nil_iff : trim text = [] ↔ isBlank text = true := by
  constructor
  · intro h
    rw [← visible_eq_nil_iff, ← visible_trim, h, visible_nil]
  · intro h
    have hnil : text.dropWhile isWhitespace = [] := List.dropWhile_eq_nil_iff.mpr (List.all_eq_true.mp h)
    rw [trim, hnil]
    rfl

/-! ### Starts of a text -/

theorem takeBytes_prefix (limit : Nat) (text : List Char) : takeBytes limit text <+: text := by
  induction text generalizing limit with
  | nil => simp [takeBytes]
  | cons c text ih =>
      rw [takeBytes]
      split_ifs
      · exact (List.prefix_cons_inj c).mpr (ih _)
      · exact List.nil_prefix

theorem size_takeBytes_le (limit : Nat) (text : List Char) : size (takeBytes limit text) ≤ limit := by
  induction text generalizing limit with
  | nil =>
      rw [takeBytes]
      exact Nat.zero_le _
  | cons c text ih =>
      rw [takeBytes]
      split_ifs with hc
      · have hrest := ih (limit - c.utf8Size)
        rw [size_cons]
        omega
      · exact Nat.zero_le _

/-! ### Lines -/

theorem visible_stripReturn (line : List Char) : visible (FrontMatter.stripReturn line) = visible line := by
  rw [FrontMatter.stripReturn]
  split_ifs with hreturn
  · obtain ⟨start, rfl⟩ := List.getLast?_eq_some_iff.mp hreturn
    rw [List.dropLast_concat, visible_append]
    have hspace : visible ['\r'] = [] := by decide
    rw [hspace, List.append_nil]
  · rfl

/-- The pieces between newlines and what follows the last one. -/
theorem visible_split (text : List Char) :
    visible (Lines.split '\n' text).1.flatten ++ visible (Lines.split '\n' text).2 = visible text := by
  induction text with
  | nil => rfl
  | cons c rest ih =>
      rw [Lines.split]
      by_cases hc : c = '\n'
      · subst hc
        rw [if_pos rfl, List.flatten_cons, List.nil_append, ih]
        exact (visible_append ['\n'] rest).symm
      · rw [if_neg hc]
        have hcons : visible (c :: rest) = visible [c] ++ visible rest := visible_append [c] rest
        cases hlines : (Lines.split '\n' rest).1 with
        | nil =>
            rw [hlines, List.flatten_nil, visible_nil, List.nil_append] at ih
            dsimp only
            rw [hcons, ← ih, List.flatten_nil, visible_nil, List.nil_append]
            exact visible_append [c] _
        | cons line lines =>
            rw [hlines, List.flatten_cons, visible_append] at ih
            dsimp only
            rw [hcons, ← ih, List.flatten_cons, visible_append]
            have hline : visible (c :: line) = visible [c] ++ visible line := visible_append [c] line
            rw [hline]
            simp only [List.append_assoc]

theorem visible_lines (text : List Char) : visible (FrontMatter.lines text).flatten = visible text := by
  have hstrip : ∀ pieces : List (List Char),
      visible (pieces.map FrontMatter.stripReturn).flatten = visible pieces.flatten := by
    intro pieces
    induction pieces with
    | nil => rfl
    | cons piece pieces ih =>
        rw [List.map_cons, List.flatten_cons, visible_append, visible_stripReturn, ih, List.flatten_cons, visible_append]
  rw [FrontMatter.lines]
  rw [List.flatten_append, visible_append, hstrip, ← visible_split text]
  split_ifs with hnil
  · rw [hnil]
    rfl
  · rw [List.flatten_singleton]

end TinyCortex.Visible
