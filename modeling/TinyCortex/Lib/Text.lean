import Mathlib

/-! Trimming and truncation of texts. -/

namespace TinyCortex.Text

/-- Unicode `White_Space`. -/
def isWhitespace (c : Char) : Bool :=
  (9 ≤ c.toNat && c.toNat ≤ 13) || (0x2000 ≤ c.toNat && c.toNat ≤ 0x200a) ||
    [0x20, 0x85, 0xa0, 0x1680, 0x2028, 0x2029, 0x202f, 0x205f, 0x3000].contains c.toNat

/-- The characters of a text are looked at one by one, and not all characters there are. -/
instance (priority := 2000) decidableForallMem (l : List Char) (p : Char → Prop) [DecidablePred p] :
    Decidable (∀ c ∈ l, p c) := List.decidableBAll p l

/-- `char::is_control`. -/
def isControl (c : Char) : Bool := c.toNat < 32 || (127 ≤ c.toNat && c.toNat < 160)

theorem range_of_isDigit {c : Char} (h : c.isDigit) : 48 ≤ c.toNat ∧ c.toNat ≤ 57 := by
  simp only [Char.isDigit, Bool.and_eq_true, decide_eq_true_eq, ge_iff_le, UInt32.le_iff_toNat_le] at h
  exact h

theorem isWhitespace_digit {c : Char} (h : c.isDigit) : isWhitespace c = false := by
  have hrange := range_of_isDigit h
  simp only [isWhitespace, Bool.or_eq_false_iff, Bool.and_eq_false_iff, decide_eq_false_iff_not, List.contains_eq_mem]
  refine ⟨⟨?_, ?_⟩, ?_⟩
  · omega
  · omega
  · simp only [List.mem_cons, List.not_mem_nil, or_false]
    omega

/-- `str::trim_end`. -/
def trimEnd (text : String) : String := String.ofList (text.toList.rdropWhile isWhitespace)

/-- `str::trim`. -/
def trim (text : String) : String :=
  String.ofList ((text.toList.dropWhile isWhitespace).rdropWhile isWhitespace)

/-- A text with a visible character is not trimmed away. -/
theorem trim_ne_empty {text : String} {c : Char} (hc : c ∈ text.toList) (hvisible : isWhitespace c = false) :
    trim text ≠ "" := by
  intro hempty
  have hnil : (text.toList.dropWhile isWhitespace).rdropWhile isWhitespace = [] := by
    have hlist := congrArg String.toList hempty
    rwa [trim, String.toList_ofList] at hlist
  have hall := List.rdropWhile_eq_nil_iff.mp hnil
  have hdropped : text.toList.dropWhile isWhitespace = [] := by
    by_contra hne
    have hhead := List.head_dropWhile_not isWhitespace hne
    rw [hall _ (List.head_mem hne)] at hhead
    cases hhead
  rw [List.dropWhile_eq_nil_iff.mp hdropped c hc] at hvisible
  cases hvisible

/-- The longest start of a text that has at most so many bytes. -/
def takeBytes : Nat → List Char → List Char
  | _, [] => []
  | limit, c :: chars =>
      if c.utf8Size ≤ limit then c :: takeBytes (limit - c.utf8Size) chars else []

end TinyCortex.Text
