import TinyCortex.Conversations.InvertedIndex

/-! Normalized text stays as it is: each table of `normalize` gives characters that neither lowercasing nor any
table changes. -/

namespace TinyCortex.Conversations

/-- What the lowercase table of the standard library does to the characters that the folds are about. -/
structure LowercaseTable (toLowercase : Char → List Char) : Prop where
  idem : ∀ c, ∀ d ∈ toLowercase c, toLowercase d = [d]
  ascii : ∀ c : Char, c.toNat < 128 → toLowercase c = [c.toLower]
  /-- Full-width capitals. -/
  fullwidth : ∀ c : Char, 0xFF21 ≤ c.toNat → c.toNat ≤ 0xFF3A → toLowercase c = [Char.ofNat (c.toNat + 32)]
  /-- Katakana have no case. -/
  katakana : ∀ c : Char, 0x30A0 ≤ c.toNat → c.toNat ≤ 0x30FF → toLowercase c = [c]

section Stable

variable {toLowercase : Char → List Char}

/-- Neither step of `normalize` changes the character. -/
def Stable (toLowercase : Char → List Char) (c : Char) : Prop := toLowercase c = [c] ∧ normalizeChar c = [c]

theorem foldNonDecomposing_range {c : Char} {folded : List Char} (h : foldNonDecomposing c = some folded) :
    128 ≤ c.toNat ∧ c.toNat < 0x180 := by
  unfold foldNonDecomposing at h
  split at h
  all_goals cases h
  all_goals decide

theorem stripLatinDiacritic_range {c base : Char} (h : stripLatinDiacritic c = some base) :
    128 ≤ c.toNat ∧ c.toNat < 0x180 := by
  have hrows : ∀ row ∈ latinDiacritics, ∀ d ∈ row.1, 128 ≤ d.toNat ∧ d.toNat < 0x180 := by decide
  obtain ⟨row, hrow, -⟩ := Option.map_eq_some_iff.mp h
  have hmem := List.find?_some (p := fun row : List Char × Char => decide (c ∈ row.1)) hrow
  rw [decide_eq_true_eq] at hmem
  exact hrows row (List.mem_of_find?_eq_some hrow) c hmem

theorem isCombiningMark_eq_false {c : Char} (h : ∀ range ∈ combiningMarks, range.2 < c.toNat ∨ c.toNat < range.1) :
    isCombiningMark c = false := by
  rw [isCombiningMark, List.any_eq_false]
  intro range hrange hin
  simp only [Bool.and_eq_true, decide_eq_true_eq] at hin
  have hout := h range hrange
  omega

/-- A character that is no mark and lies outside the tables of letters and of widths. -/
theorem normalizeChar_eq_self {c : Char} (hmark : isCombiningMark c = false) (hlatin : c.toNat < 128 ∨ 0x180 ≤ c.toNat)
    (hwidth : c.toNat < 0xFF01 ∧ c.toNat ≠ 0x3000) : normalizeChar c = [c] := by
  have hfold : foldNonDecomposing c = none := by
    by_contra hsome
    obtain ⟨folded, hfolded⟩ := Option.ne_none_iff_exists'.mp hsome
    have hrange := foldNonDecomposing_range hfolded
    omega
  have hstrip : stripLatinDiacritic c = none := by
    by_contra hsome
    obtain ⟨base, hbase⟩ := Option.ne_none_iff_exists'.mp hsome
    have hrange := stripLatinDiacritic_range hbase
    omega
  have hascii : fullwidthToAscii c = none := by
    rw [fullwidthToAscii, if_neg (by omega), if_neg hwidth.2]
  have hfull : halfwidthToFullwidth c = none := by
    rw [halfwidthToFullwidth, if_neg (by omega)]
  rw [normalizeChar, hmark, if_neg Bool.false_ne_true]
  simp only [hfold, hstrip, hascii, hfull]

theorem normalizeChar_ascii {c : Char} (h : c.toNat < 128) : normalizeChar c = [c] := by
  have hmarks : ∀ range ∈ combiningMarks, 128 ≤ range.1 := by decide
  apply normalizeChar_eq_self ?_ (Or.inl h) (by omega)
  apply isCombiningMark_eq_false
  intro range hrange
  exact Or.inr (Nat.lt_of_lt_of_le h (hmarks range hrange))

theorem normalizeChar_katakana {c : Char} (hlow : 0x30A0 ≤ c.toNat) (hhigh : c.toNat ≤ 0x30FF) : normalizeChar c = [c] := by
  have hmarks : ∀ range ∈ combiningMarks, range.2 < 0x30A0 ∨ 0x30FF < range.1 := by decide
  apply normalizeChar_eq_self ?_ (Or.inr (by omega)) (by omega)
  apply isCombiningMark_eq_false
  intro range hrange
  have hout := hmarks range hrange
  omega

theorem toNat_ofNat {n : Nat} (h : n.isValidChar) : (Char.ofNat n).toNat = n := by
  rw [Char.ofNat, dif_pos h]
  rfl

theorem stable_ascii (table : LowercaseTable toLowercase) {c : Char} (h : c.toNat < 128) (hlower : c.toLower = c) :
    Stable toLowercase c := by
  refine ⟨?_, normalizeChar_ascii h⟩
  rw [table.ascii c h, hlower]

/-- An ASCII character that no letter case changes. -/
def isLowerAscii (c : Char) : Bool := c.toNat < 128 && c.toLower == c

theorem stable_of_isLowerAscii (table : LowercaseTable toLowercase) {c : Char} (h : isLowerAscii c = true) :
    Stable toLowercase c := by
  obtain ⟨hlt, hlower⟩ := Bool.and_eq_true_iff.mp h
  exact stable_ascii table (of_decide_eq_true hlt) (beq_iff_eq.mp hlower)

theorem foldNonDecomposing_ascii {c : Char} {folded : List Char} (h : foldNonDecomposing c = some folded) :
    ∀ d ∈ folded, isLowerAscii d = true := by
  unfold foldNonDecomposing at h
  split at h
  all_goals cases h
  all_goals decide

theorem stripLatinDiacritic_ascii {c base : Char} (h : stripLatinDiacritic c = some base) : isLowerAscii base = true := by
  have hrows : ∀ row ∈ latinDiacritics, isLowerAscii row.2 = true := by decide
  obtain ⟨row, hrow, hbase⟩ := Option.map_eq_some_iff.mp h
  rw [← hbase]
  exact hrows row (List.mem_of_find?_eq_some hrow)

/-- A lowercase full-width character becomes an ASCII one without case. -/
theorem fullwidthToAscii_ascii (table : LowercaseTable toLowercase) {c ascii : Char} (hc : toLowercase c = [c])
    (h : fullwidthToAscii c = some ascii) : isLowerAscii ascii = true := by
  have hall : ∀ n < 94, ¬(32 ≤ n ∧ n ≤ 57) → isLowerAscii (Char.ofNat (0x21 + n)) = true := by decide +kernel
  unfold fullwidthToAscii at h
  split at h
  · rename_i hrange
    have hcapital : ¬(0xFF21 ≤ c.toNat ∧ c.toNat ≤ 0xFF3A) := by
      intro ⟨hlow, hhigh⟩
      rw [table.fullwidth c hlow hhigh] at hc
      have hnat := congrArg Char.toNat (List.cons.inj hc).1
      rw [toNat_ofNat (Or.inr ⟨by omega, by omega⟩)] at hnat
      omega
    rw [← Option.some.inj h]
    have hshift : c.toNat - 0xFEE0 = 0x21 + (c.toNat - 0xFF01) := by omega
    rw [hshift]
    exact hall _ (by omega) (by omega)
  · split at h
    · rw [← Option.some.inj h]
      decide
    · cases h

theorem halfwidthToFullwidth_stable (table : LowercaseTable toLowercase) {c full : Char}
    (h : halfwidthToFullwidth c = some full) : Stable toLowercase full := by
  have hall : ∀ n ∈ hwKatakana, 0x30A0 ≤ n ∧ n ≤ 0x30FF := by decide
  unfold halfwidthToFullwidth at h
  split at h
  · obtain ⟨n, hn, hfull⟩ := Option.map_eq_some_iff.mp h
    obtain ⟨hlow, hhigh⟩ := hall n (List.mem_of_getElem? hn)
    have hnat : (Char.ofNat n).toNat = n := toNat_ofNat (Or.inl (by omega))
    rw [← hfull]
    exact ⟨table.katakana _ (by omega) (by omega), normalizeChar_katakana (by omega) (by omega)⟩
  · cases h

/-- What becomes of a lowercase character is stable. -/
theorem stable_of_mem (table : LowercaseTable toLowercase) {c d : Char} (hc : toLowercase c = [c])
    (hd : d ∈ normalizeChar c) : Stable toLowercase d := by
  have hnormal : normalizeChar c = [c] → Stable toLowercase d := by
    intro hself
    rw [hself, List.mem_singleton] at hd
    rw [hd]
    exact ⟨hc, hself⟩
  unfold normalizeChar at hd hnormal
  by_cases hmark : isCombiningMark c = true
  · rw [if_pos hmark] at hd
    cases hd
  · rw [if_neg hmark] at hd hnormal
    cases hfold : foldNonDecomposing c with
    | some folded =>
        rw [hfold] at hd
        exact stable_of_isLowerAscii table (foldNonDecomposing_ascii hfold d hd)
    | none =>
        cases hstrip : stripLatinDiacritic c with
        | some base =>
            simp only [hfold, hstrip, List.mem_singleton] at hd
            rw [hd]
            exact stable_of_isLowerAscii table (stripLatinDiacritic_ascii hstrip)
        | none =>
            cases hascii : fullwidthToAscii c with
            | some ascii =>
                simp only [hfold, hstrip, hascii, List.mem_singleton] at hd
                rw [hd]
                exact stable_of_isLowerAscii table (fullwidthToAscii_ascii table hc hascii)
            | none =>
                cases hfull : halfwidthToFullwidth c with
                | some full =>
                    simp only [hfold, hstrip, hascii, hfull, List.mem_singleton] at hd
                    rw [hd]
                    exact halfwidthToFullwidth_stable table hfull
                | none =>
                    apply hnormal
                    simp only [hfold, hstrip, hascii, hfull]

end Stable

theorem normalize_append (toLowercase : Char → List Char) (a b : List Char) :
    normalize toLowercase (a ++ b) = normalize toLowercase a ++ normalize toLowercase b := by
  rw [normalize, List.flatMap_append, List.flatMap_append, normalize, normalize]

theorem normalize_of_stable {toLowercase : Char → List Char} {text : List Char} (h : ∀ c ∈ text, Stable toLowercase c) :
    normalize toLowercase text = text := by
  induction text with
  | nil => rfl
  | cons c text ih =>
      obtain ⟨hlower, hnormal⟩ := h c List.mem_cons_self
      have hrest := ih fun d hd => h d (List.mem_cons_of_mem c hd)
      have hfirst : normalize toLowercase [c] = [c] := by
        rw [normalize, List.flatMap_singleton, hlower, List.flatMap_singleton, hnormal]
      rw [← List.singleton_append, normalize_append, hfirst, hrest]

/-- Normalization goes character by character, and a second one changes nothing. -/
theorem normalize_composes {toLowercase : Char → List Char} (table : LowercaseTable toLowercase) :
    (∀ a b, normalize toLowercase (a ++ b) = normalize toLowercase a ++ normalize toLowercase b) ∧
      ∀ a, normalize toLowercase (normalize toLowercase a) = normalize toLowercase a := by
  refine ⟨normalize_append toLowercase, ?_⟩
  intro a
  apply normalize_of_stable
  intro d hd
  obtain ⟨lower, hlower, hmem⟩ := List.mem_flatMap.mp hd
  obtain ⟨c, -, hc⟩ := List.mem_flatMap.mp hlower
  exact stable_of_mem table (table.idem c lower hc) hmem

/-- Lowercasing of ASCII and of full-width capitals. -/
def someLowercase (c : Char) : List Char :=
  if 0xFF21 ≤ c.toNat ∧ c.toNat ≤ 0xFF3A then [Char.ofNat (c.toNat + 32)] else [c.toLower]

theorem toLower_of_ascii_range {c : Char} (h : ¬(65 ≤ c.toNat ∧ c.toNat ≤ 90)) : c.toLower = c := by
  rw [Char.toLower, dif_neg]
  rintro ⟨hlow, hhigh⟩
  exact h ⟨UInt32.le_iff_toNat_le.mp hlow, UInt32.le_iff_toNat_le.mp hhigh⟩

theorem toNat_toLower {c : Char} (h : 65 ≤ c.toNat ∧ c.toNat ≤ 90) : c.toLower.toNat = c.toNat + 32 := by
  have hall : ∀ n < 128, 65 ≤ n ∧ n ≤ 90 → (Char.ofNat n).toLower.toNat = n + 32 := by decide
  have hc := hall c.toNat (by omega) h
  rwa [Char.ofNat_toNat] at hc

theorem someLowercase_table : LowercaseTable someLowercase where
  idem := by
    intro c d hd
    have hfixed : ¬(65 ≤ d.toNat ∧ d.toNat ≤ 90) ∧ ¬(0xFF21 ≤ d.toNat ∧ d.toNat ≤ 0xFF3A) := by
      unfold someLowercase at hd
      split at hd
      · rename_i hcapital
        have hnat : (Char.ofNat (c.toNat + 32)).toNat = c.toNat + 32 := toNat_ofNat (Or.inr ⟨by omega, by omega⟩)
        rw [List.mem_singleton.mp hd]
        omega
      · rename_i hother
        rw [List.mem_singleton.mp hd]
        by_cases hupper : 65 ≤ c.toNat ∧ c.toNat ≤ 90
        · have hnat := toNat_toLower hupper
          omega
        · rw [toLower_of_ascii_range hupper]
          exact ⟨hupper, hother⟩
    rw [someLowercase, if_neg hfixed.2, toLower_of_ascii_range hfixed.1]
  ascii := by
    intro c hc
    rw [someLowercase, if_neg (by omega)]
  fullwidth := by
    intro c hlow hhigh
    rw [someLowercase, if_pos ⟨hlow, hhigh⟩]
  katakana := by
    intro c hlow hhigh
    rw [someLowercase, if_neg (by omega), toLower_of_ascii_range (by omega)]

/-- Full-width capitals and half-width kana are folded once and for all. -/
theorem normalize_composes_widths :
    normalize someLowercase (normalize someLowercase "ＣaT ｶﾅ".toList) = normalize someLowercase "ＣaT ｶﾅ".toList :=
  (normalize_composes someLowercase_table).2 _

end TinyCortex.Conversations
