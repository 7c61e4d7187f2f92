import TinyCortex.Diff.ItemId
import TinyCortex.Lib.Visible

/-! Samples of commit diffs (`persona/readers/git_history.rs`, `sampled_patch`): lines are appended until the cap is
reached, and the cut is made at the cap in bytes, but only when a further line has come. -/

namespace TinyCortex.Persona.DiffSample

open Visible

/-- A line as `diff.print` gives it. -/
structure DiffLine where
  origin : Char
  content : List UInt8
  deriving DecidableEq

def DiffLine.rendered (line : DiffLine) : List Char :=
  (if ['+', '-', ' '].contains line.origin then [line.origin] else []) ++ (Diff.fromUtf8Lossy line.content).toList

/-- The whole diff. -/
def rendering (lines : List DiffLine) : List Char := lines.flatMap DiffLine.rendered

/-- `String::truncate`, which panics inside a character. -/
def truncate : Nat → List Char → Option (List Char)
  | 0, _ => some []
  | _, [] => some []
  | limit, c :: chars => if c.utf8Size ≤ limit then (truncate (limit - c.utf8Size) chars).map (c :: ·) else none

structure Printing where
  out : List Char
  truncated : Bool

def printLine (sizeCap : Nat) (printing : Printing) (line : DiffLine) : Printing :=
  if sizeCap ≤ size printing.out then { printing with truncated := true }
  else { printing with out := printing.out ++ line.rendered }

def marker : List Char := "\n… [diff truncated]".toList

/-- A sample: the text that is kept, and whether the marker is behind it. -/
structure Sample where
  kept : List Char
  marked : Bool
  deriving DecidableEq

def Sample.text (sample : Sample) : List Char := sample.kept ++ if sample.marked then marker else []

/-- The sample of a diff; a blank one is none. The outer `none` is a panic. -/
def sampled (lines : List DiffLine) (sizeCap : Nat) : Option (Option Sample) :=
  let printing := lines.foldl (printLine sizeCap) ⟨[], false⟩
  if trim printing.out = [] then some none
  else if printing.truncated then (truncate sizeCap printing.out).map fun kept => some ⟨kept, true⟩
  else some (some ⟨printing.out, false⟩)

def sampledPatch (lines : List DiffLine) (sizeCap : Nat) : Option (Option (List Char)) :=
  (sampled lines sizeCap).map (Option.map Sample.text)

/-- The sampling returns, and what it keeps is a start of the diff within the cap, with the marker exactly when something
is cut. -/
def Capped (lines : List DiffLine) (sizeCap : Nat) : Prop :=
  ∃ result, sampled lines sizeCap = some result ∧ ∀ sample ∈ result, sample.kept <+: rendering lines ∧
    size sample.kept ≤ sizeCap ∧ (sample.marked = true ↔ sample.kept ≠ rendering lines)

/-- The lines that start below the cap are blank. -/
def BlankStart (lines : List DiffLine) (sizeCap : Nat) : Prop :=
  ∀ before line after, lines = before ++ line :: after → size (rendering before) < sizeCap →
    ∀ c ∈ line.rendered, Text.isWhitespace c

/-- The last line starts below the cap and ends within it, or it starts at the cap or behind it, the cap is between two
characters, and there are some behind it. -/
def Fits (lines : List DiffLine) (sizeCap : Nat) : Prop :=
  if size (rendering lines.dropLast) < sizeCap then size (rendering lines) ≤ sizeCap
  else ∃ kept cut, rendering lines = kept ++ cut ∧ size kept = sizeCap ∧ cut ≠ []

/-! ### Cutting -/

/-- A text is cut where one of its starts has so many bytes. -/
theorem truncate_eq_some_iff {limit : Nat} {text kept : List Char} (h : limit ≤ size text) :
    truncate limit text = some kept ↔ kept <+: text ∧ size kept = limit := by
  induction text generalizing limit kept with
  | nil =>
      obtain rfl := Nat.le_zero.mp h
      rw [truncate, Option.some.injEq]
      constructor
      · rintro rfl
        exact ⟨List.nil_prefix, Eq.refl _⟩
      · exact fun hkept => (List.prefix_nil.mp hkept.1).symm
  | cons c text ih =>
      have hpos := c.utf8Size_pos
      rw [size_cons] at h
      cases limit with
      | zero =>
          rw [truncate, Option.some.injEq]
          constructor
          · rintro rfl
            exact ⟨List.nil_prefix, Eq.refl _⟩
          · rintro ⟨-, hsize⟩
            have hlength := length_le_size kept
            exact (List.length_eq_zero_iff.mp (by omega)).symm
      | succ limit =>
          rw [truncate.eq_3 (limit + 1) c text (by omega)]
          have hcons : (∃ rest, kept = c :: rest ∧ rest <+: text ∧ size rest = limit + 1 - c.utf8Size ∧
              c.utf8Size ≤ limit + 1) ↔ kept <+: c :: text ∧ size kept = limit + 1 := by
            constructor
            · rintro ⟨rest, rfl, hpre, hsize, hle⟩
              refine ⟨List.cons_prefix_cons.mpr ⟨Eq.refl _, hpre⟩, ?_⟩
              rw [size_cons]
              omega
            · rintro ⟨hpre, hsize⟩
              rcases List.prefix_cons_iff.mp hpre with rfl | ⟨rest, rfl, hrest⟩
              · rw [size_nil] at hsize
                omega
              · rw [size_cons] at hsize
                exact ⟨rest, Eq.refl _, hrest, by omega, by omega⟩
          rw [← hcons]
          by_cases hle : c.utf8Size ≤ limit + 1
          · rw [if_pos hle, Option.map_eq_some_iff]
            constructor
            · rintro ⟨rest, hrest, rfl⟩
              obtain ⟨hpre, hsize⟩ := (ih (by omega)).mp hrest
              exact ⟨rest, Eq.refl _, hpre, hsize, hle⟩
            · rintro ⟨rest, rfl, hpre, hsize, -⟩
              exact ⟨rest, (ih (by omega)).mpr ⟨hpre, hsize⟩, Eq.refl _⟩
          · rw [if_neg hle]
            exact iff_of_false nofun fun ⟨_, _, _, _, h⟩ => hle h

/-! ### Printing -/

theorem rendering_concat (lines : List DiffLine) (line : DiffLine) :
    rendering (lines ++ [line]) = rendering lines ++ line.rendered := by
  rw [rendering, List.flatMap_append, List.flatMap_singleton, rendering]

theorem blankStart_concat {lines : List DiffLine} {line : DiffLine} {sizeCap : Nat} :
    BlankStart (lines ++ [line]) sizeCap ↔ BlankStart lines sizeCap ∧
      (size (rendering lines) < sizeCap → ∀ c ∈ line.rendered, Text.isWhitespace c) := by
  constructor
  · intro h
    refine ⟨fun before other after heq => h before other (after ++ [line]) ?_, h lines line [] (Eq.refl _)⟩
    rw [heq, List.append_assoc, List.cons_append]
  · rintro ⟨h, hline⟩ before other after heq
    rcases List.eq_nil_or_concat' after with rfl | ⟨init, last, rfl⟩
    · obtain ⟨rfl, hsame⟩ := List.append_inj' heq (Eq.refl _)
      rwa [← (List.cons.inj hsame).1]
    · rw [← List.cons_append, ← List.append_assoc] at heq
      exact h before other init (List.append_inj' heq (Eq.refl _)).1

/-- Where the printing stands behind some lines. -/
structure Printed (lines : List DiffLine) (sizeCap : Nat) (printing : Printing) : Prop where
  start : printing.out <+: rendering lines
  whole : printing.truncated = false → printing.out = rendering lines
  full : printing.truncated = true → sizeCap ≤ size printing.out
  late : printing.truncated = true ↔ lines ≠ [] ∧ sizeCap ≤ size (rendering lines.dropLast)
  blank : (∀ c ∈ printing.out, Text.isWhitespace c) ↔ BlankStart lines sizeCap

theorem printed_concat {lines : List DiffLine} {sizeCap : Nat} {printing : Printing}
    (h : Printed lines sizeCap printing) (line : DiffLine) :
    Printed (lines ++ [line]) sizeCap (printLine sizeCap printing line) := by
  unfold printLine
  by_cases hfull : sizeCap ≤ size printing.out
  · have hlines := hfull.trans (size_le_of_sublist h.start.sublist)
    rw [if_pos hfull]
    constructor
    · rw [rendering_concat]
      exact h.start.trans (List.prefix_append _ _)
    · exact nofun
    · exact fun _ => hfull
    · rw [List.dropLast_concat]
      exact iff_of_true (Eq.refl _) ⟨List.append_ne_nil_of_right_ne_nil _ (List.cons_ne_nil _ _), hlines⟩
    · rw [h.blank, blankStart_concat]
      exact ⟨fun hblank => ⟨hblank, fun hlt => absurd hlines (Nat.not_le.mpr hlt)⟩, And.left⟩
  · have hopen : printing.truncated = false := eq_false_of_ne_true fun htrue => hfull (h.full htrue)
    have hout := h.whole hopen
    have heq : printing.out ++ line.rendered = rendering (lines ++ [line]) := by rw [rendering_concat, hout]
    rw [if_neg hfull]
    constructor
    · exact ⟨[], (List.append_nil _).trans heq⟩
    · exact fun _ => heq
    · exact fun htrue => absurd (hopen.symm.trans htrue) Bool.false_ne_true
    · rw [List.dropLast_concat, ← hout]
      exact iff_of_false (fun htrue => absurd (hopen.symm.trans htrue) Bool.false_ne_true) fun hlate => hfull hlate.2
    · rw [blankStart_concat, List.forall_mem_append, h.blank]
      rw [hout, Nat.not_le] at hfull
      exact and_congr_right fun _ => ⟨fun hline _ => hline, fun hline => hline hfull⟩

theorem printed_foldl (lines : List DiffLine) (sizeCap : Nat) :
    Printed lines sizeCap (lines.foldl (printLine sizeCap) ⟨[], false⟩) := by
  induction lines using List.reverseRecOn with
  | nil =>
      refine ⟨List.prefix_rfl, fun _ => Eq.refl _, nofun, iff_of_false nofun fun h => h.1 (Eq.refl _), ?_⟩
      refine iff_of_true (fun _ hmem => absurd hmem List.not_mem_nil) fun before line after heq => ?_
      simp at heq
  | append_singleton lines line ih =>
      rw [List.foldl_append]
      exact printed_concat ih line

/-! ### The cap -/

theorem trim_eq_nil_iff_forall {text : List Char} : trim text = [] ↔ ∀ c ∈ text, Text.isWhitespace c := by
  rw [trim_eq_nil_iff, isBlank, List.all_eq_true]

end TinyCortex.Persona.DiffSample
