import TinyCortex.Lib.FrontMatter
import TinyCortex.Lib.Visible

/-! The rules of an instruction file (`persona/readers/instruction.rs`, `split_rules`): a scan over its lines with one
accumulator for a paragraph and one for a bullet. Each line that is pushed keeps the number of the line it comes from. -/

namespace TinyCortex.Persona.SplitRules

open FrontMatter

/-! ### Lines -/

def trimEnd (text : List Char) : List Char := text.rdropWhile Text.isWhitespace

def trimStart (text : List Char) : List Char := text.dropWhile Text.isWhitespace

/-- A line without the blanks at its ends. -/
def trimmedLine (raw : List Char) : List Char := trimStart (trimEnd raw)

def isFence (trimmed : List Char) : Bool := decide ("```".toList <+: trimmed) || decide ("~~~".toList <+: trimmed)

def isBullet (trimmed : List Char) : Bool :=
  decide ("- ".toList <+: trimmed) || decide ("* ".toList <+: trimmed) || decide ("+ ".toList <+: trimmed) ||
    (trimmed.head?.any Char.isDigit && (decide (". ".toList <:+: trimmed) || decide (") ".toList <:+: trimmed)))

/-- What stands before the first full stop or closing parenthesis. -/
def number (trimmed : List Char) : List Char := trimmed.takeWhile fun c => c ≠ '.' && c ≠ ')'

def stripBullet (trimmed : List Char) : List Char :=
  match (trimmed.dropPrefix? "- ".toList).or ((trimmed.dropPrefix? "* ".toList).or (trimmed.dropPrefix? "+ ".toList)) with
  | some rest => trimStart rest
  | none =>
      match trimmed.drop (number trimmed).length with
      | [] => trimmed
      | _ :: rest => if (number trimmed).all Char.isDigit then trimStart rest else trimmed

/-! ### The scan -/

/-- The lines of a rule, with their numbers. -/
abbrev Rule := List (Nat × List Char)

structure Scan where
  rules : List Rule
  para : Rule
  bullet : Rule
  inFence : Bool

def flushInto (lines : Rule) (rules : List Rule) : List Rule := if lines = [] then rules else rules ++ [lines]

/-- Close the paragraph and the bullet. -/
def Scan.flush (scan : Scan) : Scan :=
  { scan with rules := flushInto scan.bullet (flushInto scan.para scan.rules), para := [], bullet := [] }

def Scan.start : Scan := ⟨[], [], [], false⟩

def scanLine (scan : Scan) (entry : List Char × Nat) : Scan :=
  let line := trimEnd entry.1
  let trimmed := trimStart line
  if isFence trimmed then { scan.flush with inFence := !scan.inFence }
  else if scan.inFence then scan
  else if trimmed = [] then scan.flush
  else if trimmed.head? = some '#' then scan.flush
  else if isBullet trimmed then
    -- Without indent it is a bullet of its own, else it belongs to the open one.
    if trimmed = line then { scan.flush with bullet := [(entry.2, stripBullet trimmed)] }
    else if scan.bullet ≠ [] then { scan with bullet := scan.bullet ++ [(entry.2, trimmed)] }
    else { scan with bullet := [(entry.2, stripBullet trimmed)] }
  else if scan.bullet ≠ [] then { scan with bullet := scan.bullet ++ [(entry.2, trimmed)] }
  else { scan with para := scan.para ++ [(entry.2, line)] }

/-- The rules of a file, short ones too. -/
def rulesOf (md : List Char) : List Rule := ((lines md).zipIdx.foldl scanLine .start).flush.rules

def render (rule : Rule) : List Char := trim (List.intercalate ['\n'] (rule.map Prod.snd))

def splitRules (md : List Char) : List (List Char) :=
  ((rulesOf md).map render).filter fun rule => decide (3 ≤ Visible.size rule)

/-! ### What the lines are -/

/-- An odd number of fences stands before: a block is open. -/
def fenced (before : List (List Char)) : Bool := before.countP (fun raw => isFence (trimmedLine raw)) % 2 = 1

/-- The line is outside fenced blocks. -/
def outside (ls : List (List Char)) (n : Nat) : Bool :=
  !fenced (ls.take n) && ls[n]?.any fun raw => !isFence (trimmedLine raw)

/-- Up to six number signs, and a blank or nothing behind them. -/
def isHeading (trimmed : List Char) : Bool :=
  let signs := trimmed.takeWhile (· = '#')
  let behind := trimmed.drop signs.length
  decide (1 ≤ signs.length ∧ signs.length ≤ 6) && behind.head?.all fun c => c = ' ' || c = '\t'

/-- The lines that are to be kept. -/
def relevant (ls : List (List Char)) (n : Nat) : Bool :=
  outside ls n && ls[n]?.any fun raw => !(trimmedLine raw).isEmpty && !isHeading (trimmedLine raw)

/-- A bullet character or a number, and a blank. -/
def ListMarker (marker : List Char) : Prop :=
  ∃ mark blank, (blank = ' ' ∨ blank = '\t') ∧ marker = mark ++ [blank] ∧
    (mark = ['-'] ∨ mark = ['*'] ∨ mark = ['+'] ∨
      ∃ digits, digits ≠ [] ∧ (∀ c ∈ digits, c.isDigit) ∧ (mark = digits ++ ['.'] ∨ mark = digits ++ [')']))

/-- The text is the line up to blanks at the ends and one list marker. -/
def Verbatim (raw text : List Char) : Prop :=
  trim text = trimmedLine raw ∨ ∃ marker rest, ListMarker marker ∧ trimmedLine raw = marker ++ rest ∧ trim text = trim rest

/-- A list item without indent. -/
def TopLevelBullet (raw : List Char) : Prop :=
  trimmedLine raw = trimEnd raw ∧ ∃ marker rest, ListMarker marker ∧ trimmedLine raw = marker ++ rest

/-- Every line that is no heading, outside the fenced blocks and not blank, is in a rule, in order and once, verbatim but
for a list marker; a list item without indent starts a rule; no rule goes on over a line that is in none; and what is
returned are the rules, rendered line by line, without the short ones. -/
structure KeepsRules (md : List Char) : Prop where
  numbers : (rulesOf md).flatten.map Prod.fst = (List.range (lines md).length).filter (relevant (lines md))
  verbatim : ∀ rule ∈ rulesOf md, ∀ entry ∈ rule, ∃ raw, (lines md)[entry.1]? = some raw ∧ Verbatim raw entry.2
  bullets : ∀ rule ∈ rulesOf md, ∀ entry ∈ rule.tail, ∀ raw, (lines md)[entry.1]? = some raw → ¬TopLevelBullet raw
  consecutive : ∀ rule ∈ rulesOf md, ∃ start, rule.map Prod.fst = List.range' start rule.length
  rendered : ∀ rule ∈ rulesOf md, ((render rule).splitOn '\n').map trim = rule.map fun entry => trim entry.2
  returned : splitRules md = ((rulesOf md).map render).filter fun rule => decide (3 ≤ Visible.size rule)

/-! ### When they are kept -/

/-- The lines that the scan pushes. -/
def pushes (ls : List (List Char)) (n : Nat) : Bool :=
  outside ls n && ls[n]?.any fun raw => !(trimmedLine raw).isEmpty && decide ((trimmedLine raw).head? ≠ some '#')

/-- A bullet is open behind the lines: from the line of a bullet on all of them were pushed. -/
def BulletOpen (ls : List (List Char)) : Prop :=
  ∃ i raw, ls[i]? = some raw ∧ isBullet (trimmedLine raw) = true ∧ ∀ j, i ≤ j → j < ls.length → pushes ls j = true

/-- The line loses its list marker. -/
def Stripped (ls : List (List Char)) (n : Nat) (raw : List Char) : Prop :=
  isBullet (trimmedLine raw) = true ∧ (trimmedLine raw = trimEnd raw ∨ ¬BulletOpen (ls.take n))

/-- Digits and a full stop or a closing parenthesis, but no blank behind. -/
def FalseNumber (trimmed : List Char) : Prop :=
  ∃ digits mark rest, digits ≠ [] ∧ (∀ c ∈ digits, c.isDigit) ∧ (mark = '.' ∨ mark = ')') ∧
    trimmed = digits ++ mark :: rest ∧ ∀ c, rest.head? = some c → c ≠ ' ' ∧ c ≠ '\t'

/-- Outside the fenced blocks, lines with a number sign in front are headings, no line with a false number is taken for a
bullet whose marker goes, and a list item without indent that is taken for none stands behind no line of a rule. -/
structure Orderly (ls : List (List Char)) : Prop where
  headings : ∀ n raw, ls[n]? = some raw → outside ls n = true → (trimmedLine raw).head? = some '#' →
    isHeading (trimmedLine raw) = true
  numbers : ∀ n raw, ls[n]? = some raw → outside ls n = true → Stripped ls n raw → ¬FalseNumber (trimmedLine raw)
  bullets : ∀ n raw, ls[n + 1]? = some raw → outside ls (n + 1) = true → TopLevelBullet raw →
    isBullet (trimmedLine raw) = false → pushes ls n = false

/-! ### One line more -/

section Concat

variable {ls : List (List Char)} {raw : List Char} {n : Nat}

theorem outside_concat_lt (hn : n < ls.length) : outside (ls ++ [raw]) n = outside ls n := by
  rw [outside, outside, List.take_append_of_le_length hn.le, List.getElem?_append_left hn]

theorem outside_concat_length : outside (ls ++ [raw]) ls.length = (!fenced ls && !isFence (trimmedLine raw)) := by
  rw [outside, List.take_left, List.getElem?_concat_length, Option.any_some]

theorem pushes_concat_lt (hn : n < ls.length) : pushes (ls ++ [raw]) n = pushes ls n := by
  rw [pushes, pushes, outside_concat_lt hn, List.getElem?_append_left hn]

theorem pushes_concat_length : pushes (ls ++ [raw]) ls.length = (!fenced ls && !isFence (trimmedLine raw) &&
    (!(trimmedLine raw).isEmpty && decide ((trimmedLine raw).head? ≠ some '#'))) := by
  rw [pushes, outside_concat_length, List.getElem?_concat_length, Option.any_some]

theorem fenced_concat : fenced (ls ++ [raw]) = (if isFence (trimmedLine raw) then !fenced ls else fenced ls) := by
  unfold fenced
  rw [List.countP_append, List.countP_singleton]
  split_ifs
  · rw [← decide_not, decide_eq_decide]
    omega
  · rw [Nat.add_zero]

theorem bulletOpen_concat : BulletOpen (ls ++ [raw]) ↔
    pushes (ls ++ [raw]) ls.length = true ∧ (isBullet (trimmedLine raw) = true ∨ BulletOpen ls) := by
  constructor
  · rintro ⟨i, line, hline, hbullet, hall⟩
    have hlength := (List.getElem?_eq_some_iff.mp hline).1
    rw [List.length_append, List.length_singleton] at hlength hall
    refine ⟨hall ls.length (by omega) (by omega), ?_⟩
    by_cases hi : i < ls.length
    · right
      rw [List.getElem?_append_left hi] at hline
      refine ⟨i, line, hline, hbullet, fun j hj hlt => ?_⟩
      rw [← @pushes_concat_lt _ raw _ hlt]
      exact hall j hj (by omega)
    · left
      obtain rfl : i = ls.length := by omega
      rw [List.getElem?_concat_length, Option.some.injEq] at hline
      rwa [hline]
  · rintro ⟨hpush, hbullet | ⟨i, line, hline, hbullet, hall⟩⟩
    · refine ⟨ls.length, raw, List.getElem?_concat_length, hbullet, fun j hj hlt => ?_⟩
      rw [List.length_append, List.length_singleton] at hlt
      obtain rfl : j = ls.length := by omega
      exact hpush
    · have hi := (List.getElem?_eq_some_iff.mp hline).1
      refine ⟨i, line, by rw [List.getElem?_append_left hi, hline], hbullet, fun j hj hlt => ?_⟩
      rw [List.length_append, List.length_singleton] at hlt
      by_cases hlast : j < ls.length
      · rw [pushes_concat_lt hlast]
        exact hall j hj hlast
      · obtain rfl : j = ls.length := by omega
        exact hpush

end Concat

end TinyCortex.Persona.SplitRules
