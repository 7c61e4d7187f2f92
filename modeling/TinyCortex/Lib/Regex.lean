import Mathlib

/-! Regular expressions over characters: their language, matching by derivatives, and the reading of a written
expression. A dot stands for any character but a newline, as it does unless a flag says otherwise. -/

namespace TinyCortex

/-- What one character is matched against. -/
inductive CharSet
  | only (c : Char)
  | dot
  | not (c : Char)
  deriving DecidableEq, Repr

def CharSet.has : CharSet → Char → Bool
  | .only c, d => d == c
  | .dot, d => d != '\n'
  | .not c, d => d != c

inductive Regex
  | never
  | empty
  | chars (set : CharSet)
  | seq (r s : Regex)
  | alt (r s : Regex)
  | star (r : Regex)
  deriving DecidableEq, Repr

namespace Regex

/-- `r?`. -/
def opt (r : Regex) : Regex := .alt .empty r

def ofList (items : List Regex) : Regex := items.foldr .seq .empty

def language : Regex → Language Char
  | .never => 0
  | .empty => 1
  | .chars set => {w | ∃ c, set.has c = true ∧ w = [c]}
  | .seq r s => r.language * s.language
  | .alt r s => r.language + s.language
  | .star r => KStar.kstar r.language

/-! ### Matching -/

def nullable : Regex → Bool
  | .never => false
  | .empty => true
  | .chars _ => false
  | .seq r s => r.nullable && s.nullable
  | .alt r s => r.nullable || s.nullable
  | .star _ => true

def deriv (c : Char) : Regex → Regex
  | .never => .never
  | .empty => .never
  | .chars set => if set.has c then .empty else .never
  | .seq r s => if r.nullable then .alt (.seq (r.deriv c) s) (s.deriv c) else .seq (r.deriv c) s
  | .alt r s => .alt (r.deriv c) (s.deriv c)
  | .star r => .seq (r.deriv c) (.star r)

/-- The whole text matches. -/
def accepts : Regex → List Char → Bool
  | r, [] => r.nullable
  | r, c :: text => (r.deriv c).accepts text

theorem nullable_iff {r : Regex} : r.nullable = true ↔ [] ∈ r.language := by
  induction r with
  | never => simp [nullable, language]
  | empty => simp [nullable, language]
  | chars set =>
      constructor
      · intro h
        cases h
      · intro ⟨c, _, hc⟩
        cases hc
  | seq r s ihr ihs =>
      rw [nullable, Bool.and_eq_true, ihr, ihs, language, Language.mem_mul]
      constructor
      · intro ⟨hr, hs⟩
        exact ⟨[], hr, [], hs, Eq.refl _⟩
      · intro ⟨u, hu, v, hv, h⟩
        obtain ⟨hnil, hnil'⟩ := List.append_eq_nil_iff.mp h
        rw [hnil] at hu
        rw [hnil'] at hv
        exact ⟨hu, hv⟩
  | alt r s ihr ihs => rw [nullable, Bool.or_eq_true, ihr, ihs, language, Language.mem_add]
  | star r _ => exact iff_of_true (Eq.refl _) (Language.nil_mem_kstar _)

/-- A word of the star begins with a nonempty word. -/
theorem cons_mem_kstar {l : Language Char} {c : Char} {w : List Char} :
    c :: w ∈ KStar.kstar l ↔ ∃ u v, c :: u ∈ l ∧ v ∈ KStar.kstar l ∧ u ++ v = w := by
  constructor
  · intro h
    obtain ⟨words, hw, hwords⟩ := Language.mem_kstar_iff_exists_nonempty.mp h
    cases words with
    | nil => cases hw
    | cons first words =>
        obtain ⟨hfirst, hne⟩ := hwords first List.mem_cons_self
        cases first with
        | nil => exact absurd (Eq.refl _) hne
        | cons d u =>
            obtain ⟨hd, hrest⟩ := List.cons.inj hw
            rw [← hd] at hfirst
            refine ⟨u, words.flatten, hfirst, ?_, hrest.symm⟩
            exact ⟨words, Eq.refl _, fun y hy => (hwords y (List.mem_cons_of_mem _ hy)).1⟩
  · intro ⟨u, v, hu, hv, h⟩
    obtain ⟨words, hv, hwords⟩ := Language.mem_kstar.mp hv
    refine ⟨(c :: u) :: words, ?_, ?_⟩
    · rw [← h, hv, List.flatten_cons, List.cons_append]
    · intro y hy
      rcases List.mem_cons.mp hy with hfirst | hrest
      · rw [hfirst]
        exact hu
      · exact hwords y hrest

theorem mem_deriv_iff {c : Char} {r : Regex} {w : List Char} : w ∈ (r.deriv c).language ↔ c :: w ∈ r.language := by
  induction r generalizing w with
  | never => exact Iff.rfl
  | empty => simp [deriv, language]
  | chars set =>
      rw [deriv]
      by_cases h : set.has c = true
      · rw [if_pos h]
        constructor
        · intro hw
          rw [show w = [] from hw]
          exact ⟨c, h, Eq.refl _⟩
        · intro ⟨d, _, hd⟩
          exact (List.cons.inj hd).2
      · rw [if_neg h]
        constructor
        · intro hw
          cases hw
        · intro ⟨d, hset, hd⟩
          rw [(List.cons.inj hd).1] at h
          exact absurd hset h
  | seq r s ihr ihs =>
      -- the first character belongs to the first part, or that part is empty
      have hsplit : c :: w ∈ r.language * s.language ↔
          (∃ u ∈ (r.deriv c).language, ∃ v ∈ s.language, u ++ v = w) ∨ ([] ∈ r.language ∧ c :: w ∈ s.language) := by
        rw [Language.mem_mul]
        constructor
        · intro ⟨u, hu, v, hv, h⟩
          cases u with
          | nil => exact Or.inr ⟨hu, h ▸ hv⟩
          | cons d u =>
              obtain ⟨hd, hrest⟩ := List.cons.inj h
              rw [hd] at hu
              exact Or.inl ⟨u, ihr.mpr hu, v, hv, hrest⟩
        · intro h
          rcases h with ⟨u, hu, v, hv, h⟩ | ⟨hnil, hs⟩
          · exact ⟨c :: u, ihr.mp hu, v, hv, congrArg (c :: ·) h⟩
          · exact ⟨[], hnil, c :: w, hs, Eq.refl _⟩
      rw [deriv, language, hsplit]
      by_cases hnull : r.nullable = true
      · rw [if_pos hnull, language, Language.mem_add, ihs, language, Language.mem_mul, ← nullable_iff,
          and_iff_right hnull]
      · rw [if_neg hnull, language, Language.mem_mul, ← nullable_iff]
        simp only [hnull, Bool.false_eq_true, false_and, or_false]
  | alt r s ihr ihs => rw [deriv, language, Language.mem_add, ihr, ihs, language, Language.mem_add]
  | star r ih =>
      rw [deriv, language, language, cons_mem_kstar, Language.mem_mul]
      constructor
      · intro ⟨u, hu, v, hv, h⟩
        exact ⟨u, v, ih.mp hu, hv, h⟩
      · intro ⟨u, v, hu, hv, h⟩
        exact ⟨u, ih.mpr hu, v, hv, h⟩

theorem mem_ofList_cons {r : Regex} {items : List Regex} {w : List Char} :
    w ∈ (ofList (r :: items)).language ↔ ∃ u ∈ r.language, ∃ v ∈ (ofList items).language, u ++ v = w :=
  Language.mem_mul

theorem mem_opt {r : Regex} {w : List Char} : w ∈ (opt r).language ↔ w = [] ∨ w ∈ r.language := by
  rw [opt, language, Language.mem_add, language, Language.mem_one]

/-- A repeated set of characters takes every text of such characters. -/
theorem mem_star_chars {set : CharSet} {w : List Char} :
    w ∈ (star (.chars set)).language ↔ ∀ c ∈ w, set.has c = true := by
  induction w with
  | nil => exact iff_of_true (Language.nil_mem_kstar _) fun _ h => absurd h List.not_mem_nil
  | cons c w ih =>
      rw [language, cons_mem_kstar, List.forall_mem_cons, ← ih]
      constructor
      · intro ⟨u, v, ⟨d, hd, hu⟩, hv, h⟩
        obtain ⟨hcd, hnil⟩ := List.cons.inj hu
        rw [hnil, List.nil_append] at h
        rw [hcd, ← h]
        exact ⟨hd, hv⟩
      · intro ⟨hc, hw⟩
        exact ⟨[], w, ⟨c, hc, Eq.refl _⟩, hw, Eq.refl _⟩

theorem accepts_iff {r : Regex} {text : List Char} : r.accepts text = true ↔ text ∈ r.language := by
  induction text generalizing r with
  | nil => exact nullable_iff
  | cons c text ih => rw [accepts, ih, mem_deriv_iff]

/-! ### Written expressions -/

/-- The characters with a meaning of their own; a backslash takes it away. -/
def special : List Char := ['\\', '.', '+', '*', '?', '(', ')', '|', '[', ']', '\x7b', '\x7d', '^', '$']

/-- What the last characters have begun. -/
inductive Pending
  | nothing
  | escape
  | bracket
  | complement
  | closing (c : Char)
  | parenthesis
  | question
  | finished

/-- A reader. The open groups are a stack, the innermost first, each with its items in reverse. -/
structure Reader where
  pending : Pending
  items : List Regex
  groups : List (List Regex)

def Reader.push (reader : Reader) (item : Regex) : Reader := ⟨.nothing, item :: reader.items, reader.groups⟩

/-- The last item is replaced. -/
def Reader.repeated (reader : Reader) (f : Regex → Regex) : Option Reader :=
  match reader.items with
  | [] => none
  | item :: items => some ⟨.nothing, f item :: items, reader.groups⟩

def Reader.close (reader : Reader) : Option Reader :=
  match reader.groups with
  | [] => none
  | outer :: groups => some ⟨.nothing, ofList reader.items.reverse :: outer, groups⟩

/-- One character. Alternatives, counted repetitions and all classes but the complement of one character are not
read. -/
def Reader.next (reader : Reader) (c : Char) : Option Reader :=
  match reader.pending with
  | .nothing =>
      if c = '\\' then some { reader with pending := .escape }
      else if c = '[' then some { reader with pending := .bracket }
      else if c = '(' then some { reader with pending := .parenthesis }
      else if c = ')' then reader.close
      else if c = '*' then reader.repeated .star
      else if c = '?' then reader.repeated opt
      else if c = '.' then some (reader.push (.chars .dot))
      else if c = '$' then some { reader with pending := .finished }
      else if c ∈ special then none
      else some (reader.push (.chars (.only c)))
  | .escape => if c ∈ special then some (reader.push (.chars (.only c))) else none
  | .bracket => if c = '^' then some { reader with pending := .complement } else none
  | .complement => if c ∈ special then none else some { reader with pending := .closing c }
  | .closing d => if c = ']' then some (reader.push (.chars (.not d))) else none
  | .parenthesis => if c = '?' then some { reader with pending := .question } else none
  | .question => if c = ':' then some ⟨.nothing, [], reader.items :: reader.groups⟩ else none
  | .finished => none

def Reader.result (reader : Reader) : Option Regex :=
  match reader.pending, reader.groups with
  | .finished, [] => some (ofList reader.items.reverse)
  | _, _ => none

/-- An expression anchored at both ends. -/
def read : List Char → Option Regex
  | '^' :: rest => (rest.foldlM Reader.next ⟨.nothing, [], []⟩).bind Reader.result
  | _ => none

end Regex

end TinyCortex
