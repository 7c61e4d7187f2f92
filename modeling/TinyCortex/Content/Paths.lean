import TinyCortex.Lib.Text

/-! Names of content files (`store/content/paths.rs`). -/

namespace TinyCortex.Content

/-- `char::to_lowercase`, as far as ASCII goes: two other characters have ASCII in their lowercase, the
rest stays outside. -/
def toLowercase (c : Char) : List Char :=
  if c = '\u0130' then ['i', '\u0307']
  else if c = '\u212a' then ['k']
  else [c.toLower]

/-- The loop of `slugify_source_id`. Runs of other characters become one dash, and an underscore is kept
before the next letter or digit. -/
def slugChars : List Char → Bool → Bool → List Char
  | [], _, _ => []
  | ch :: chars, lastDash, pendingUnderscore =>
      if ch = '_' then slugChars chars lastDash (pendingUnderscore || !lastDash)
      else if ch.isAlphanum then
        (if pendingUnderscore then ['_'] else []) ++ ch :: slugChars chars false false
      else if lastDash then slugChars chars true false
      else '-' :: slugChars chars true false

/-- A source id as a file name: at most 120 of `a-z0-9_-`. -/
def slugifySourceId (sourceId : String) : String :=
  let out := slugChars (sourceId.toList.flatMap toLowercase) true false
  let truncated := ((out.rdropWhile (· == '-')).rdropWhile (· == '_')).take 120
  if truncated = [] then "unknown" else String.ofList truncated

/-- The characters of a slug. -/
def slugChar (c : Char) : Bool := (c.isAlphanum && !c.isUpper) || c == '_' || c == '-'

theorem not_isUpper_toLower (c : Char) : c.toLower.isUpper = false := by
  simp only [Char.isUpper, Char.toLower]
  split <;> grind [UInt32.toNat_add, Char.toNat_val]

theorem toLowercase_lower {c ch : Char} (h : ch ∈ toLowercase c) : ch.isUpper = false := by
  unfold toLowercase at h
  split_ifs at h
  · rcases List.mem_pair.mp h with rfl | rfl
    · decide
    · decide
  · obtain rfl := List.mem_singleton.mp h
    decide
  · obtain rfl := List.mem_singleton.mp h
    exact not_isUpper_toLower c

/-- The loop writes slug characters, and nothing else, from lowercase input. -/
theorem slugChars_slugChar {chars : List Char} (h : ∀ ch ∈ chars, ch.isUpper = false) (lastDash pending : Bool) :
    ∀ ch ∈ slugChars chars lastDash pending, slugChar ch = true := by
  induction chars generalizing lastDash pending with
  | nil => exact fun _ hmem => absurd hmem List.not_mem_nil
  | cons head chars ih =>
      have hrest := ih fun ch hch => h ch (List.mem_cons_of_mem _ hch)
      have hhead := h head List.mem_cons_self
      unfold slugChars
      split_ifs with hunder halpha hpending hdash
      · exact hrest _ _
      · intro ch hch
        rcases List.mem_cons.mp hch with rfl | hch
        · decide
        · rcases List.mem_cons.mp hch with rfl | hch
          · rw [slugChar, halpha, hhead]
            rfl
          · exact hrest _ _ ch hch
      · intro ch hch
        rcases List.mem_cons.mp hch with rfl | hch
        · rw [slugChar, halpha, hhead]
          rfl
        · exact hrest _ _ ch hch
      · exact hrest _ _
      · intro ch hch
        rcases List.mem_cons.mp hch with rfl | hch
        · decide
        · exact hrest _ _ ch hch

/-- A slug is a file name of its own: not empty, at most 120 characters, and all of them safe. -/
theorem slugifySourceId_safe (sourceId : String) :
    slugifySourceId sourceId ≠ "" ∧ (slugifySourceId sourceId).length ≤ 120 ∧
      ∀ ch ∈ (slugifySourceId sourceId).toList, slugChar ch = true := by
  have hlower : ∀ ch ∈ sourceId.toList.flatMap toLowercase, ch.isUpper = false := by
    intro ch hch
    obtain ⟨c, -, hc⟩ := List.mem_flatMap.mp hch
    exact toLowercase_lower hc
  unfold slugifySourceId
  dsimp only
  split_ifs with hempty
  · exact ⟨by decide, by decide, by decide⟩
  · refine ⟨fun h => hempty ?_, ?_, fun ch hch => ?_⟩
    · have hlist := congrArg String.toList h
      rwa [String.toList_ofList] at hlist
    · rw [← String.length_toList, String.toList_ofList]
      exact List.length_take_le _ _
    · rw [String.toList_ofList] at hch
      apply slugChars_slugChar hlower true false
      exact (List.rdropWhile_prefix _ _).subset ((List.rdropWhile_prefix _ _).subset (List.mem_of_mem_take hch))

end TinyCortex.Content
