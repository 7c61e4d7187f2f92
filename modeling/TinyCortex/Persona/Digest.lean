import TinyCortex.Lib.Packing
import TinyCortex.Lib.Pieces
import TinyCortex.Lib.Visible
import TinyCortex.Lib.Interleaving
import TinyCortex.Lib.Machine

/-! The windows of a digest (`persona/distill.rs`): how the evidence of a session is packed into them, and how a
window that the model could not answer is split again. The packer counts bytes and the splitter characters. -/

namespace TinyCortex.Persona

open Visible Pieces Packing

inductive EvidenceTier
  | t3
  | t2
  | t1
  | t0
  deriving DecidableEq

def EvidenceTier.asStr : EvidenceTier → List Char
  | t0 => "t0".toList
  | t1 => "t1".toList
  | t2 => "t2".toList
  | t3 => "t3".toList

/-- A unit of evidence, as far as a digest shows it. -/
structure PersonaEvidence where
  tier : EvidenceTier
  excerpt : List Char
  deriving DecidableEq

def windowChars : Nat := 12000

def minWindowChars : Nat := 1500

def maxResplitDepth : Nat := 3

/-! ### Packing -/

/-- The line of a unit. -/
def renderEvidence (evidence : PersonaEvidence) : List Char :=
  '[' :: evidence.tier.asStr ++ "] ".toList ++ evidence.excerpt ++ ['\n']

/-- What is put out, and what is still open. -/
structure Packer where
  out : List (List Char)
  cur : List Char
  deriving DecidableEq

def Packer.flush (packer : Packer) : Packer := ⟨packer.out ++ [packer.cur], []⟩

def Packer.push (packer : Packer) (line : List Char) : Packer :=
  let packer := if packer.cur ≠ [] ∧ windowChars < size packer.cur + size line then packer.flush else packer
  -- a single oversized unit is truncated to the window
  if windowChars < size line then Packer.flush ⟨packer.out, packer.cur ++ line.take windowChars⟩
  else ⟨packer.out, packer.cur ++ line⟩

/-- What is still open is put out unless it is blank. -/
def Packer.finish (packer : Packer) : List (List Char) :=
  if isBlank packer.cur then packer.out else packer.out ++ [packer.cur]

def windows (evidence : List PersonaEvidence) : List (List Char) :=
  ((evidence.map renderEvidence).foldl Packer.push ⟨[], []⟩).finish

/-! ### Splitting -/

/-- `str::split_inclusive` at line ends. -/
def splitInclusive (text : List Char) : List (List Char) := cutAfter (fun c _ => c == '\n') text

/-- One character of a line that is split by force. -/
def hardSplit (target : Nat) (packer : Packer) (c : Char) : Packer :=
  if target ≤ packer.cur.length then ⟨packer.flush.out, [c]⟩ else ⟨packer.out, packer.cur ++ [c]⟩

def splitLine (target : Nat) (packer : Packer) (line : List Char) : Packer :=
  let packer := if 0 < packer.cur.length ∧ target < packer.cur.length + line.length then packer.flush else packer
  if target < line.length then
    let chunks := line.foldl (hardSplit target) ⟨packer.out, []⟩
    ⟨chunks.out, packer.cur ++ chunks.cur⟩
  else ⟨packer.out, packer.cur ++ line⟩

def splitWindow (text : List Char) (target : Nat) : List (List Char) :=
  ((splitInclusive text).foldl (splitLine (max target 1)) ⟨[], []⟩).finish

/-! ### What the packer keeps -/

def Packer.text (packer : Packer) : List Char := packer.out.flatten ++ packer.cur

theorem Packer.text_flush (packer : Packer) : packer.flush.text = packer.text := by
  simp [Packer.text, Packer.flush]

/-- What is put out at the end is the text up to a blank rest. -/
theorem Packer.finish_append (packer : Packer) :
    ∃ tail, isBlank tail = true ∧ packer.finish.flatten ++ tail = packer.text := by
  rw [Packer.finish]
  by_cases hblank : isBlank packer.cur = true
  · exact ⟨packer.cur, hblank, by rw [if_pos hblank, Packer.text]⟩
  · refine ⟨[], List.all_eq_true.mpr nofun, ?_⟩
    rw [if_neg hblank, Packer.text, List.append_nil, List.flatten_append, List.flatten_singleton]

/-! ### Windows -/

theorem renderEvidence_ne_blank (evidence : PersonaEvidence) : isBlank (renderEvidence evidence) = false := by
  simp [renderEvidence, isBlank, Text.isWhitespace]

theorem take_eq_of_size {line : List Char} (h : line.length ≤ windowChars) : line.take windowChars = line :=
  List.take_of_length_le h

/-- Every window that is put out has at most so many characters, and what is open at most so many bytes; a
window that is open shows something. -/
structure Packer.Fits (packer : Packer) : Prop where
  out : ∀ window ∈ packer.out, window.length ≤ windowChars
  cur : size packer.cur ≤ windowChars
  shown : packer.cur ≠ [] → isBlank packer.cur = false

theorem Packer.Fits.flush {packer : Packer} (h : packer.Fits) : packer.flush.Fits where
  out window hwindow := by
    rcases List.mem_append.mp hwindow with hold | hcur
    · exact h.out window hold
    · rw [List.mem_singleton.mp hcur]
      exact (length_le_size _).trans h.cur
  cur := Nat.zero_le _
  shown hne := absurd rfl hne

theorem isBlank_append (text more : List Char) : isBlank (text ++ more) = (isBlank text && isBlank more) :=
  List.all_append ..

theorem Packer.Fits.push {packer : Packer} (h : packer.Fits) {line : List Char} (hline : line.length ≤ windowChars)
    (hshown : isBlank line = false) : (packer.push line).Fits ∧ (packer.push line).text = packer.text ++ line := by
  obtain ⟨fitting, hfits, htext, hroom, hpush⟩ : ∃ fitting : Packer, fitting.Fits ∧ fitting.text = packer.text ∧
      (fitting.cur = [] ∨ size fitting.cur + size line ≤ windowChars) ∧
      packer.push line = if windowChars < size line then Packer.flush ⟨fitting.out, fitting.cur ++ line.take windowChars⟩
        else ⟨fitting.out, fitting.cur ++ line⟩ := by
    by_cases hfull : packer.cur ≠ [] ∧ windowChars < size packer.cur + size line
    · exact ⟨packer.flush, h.flush, packer.text_flush, Or.inl rfl, by rw [Packer.push, if_pos hfull]⟩
    · refine ⟨packer, h, rfl, ?_, by rw [Packer.push, if_neg hfull]⟩
      by_cases hcur : packer.cur = []
      · exact Or.inl hcur
      · exact Or.inr (Nat.le_of_not_lt fun hlt => hfull ⟨hcur, hlt⟩)
  rw [hpush, ← htext, take_eq_of_size hline]
  split_ifs with hsize
  · -- a line of too many bytes goes out on its own, with all its characters
    have hcur : fitting.cur = [] := hroom.resolve_right (by omega)
    rw [hcur, List.nil_append]
    refine ⟨⟨?_, Nat.zero_le _, fun hne => absurd rfl hne⟩, ?_⟩
    · intro window hwindow
      rcases List.mem_append.mp hwindow with hold | hnew
      · exact hfits.out window hold
      · rwa [List.mem_singleton.mp hnew]
    · rw [Packer.text_flush, Packer.text, Packer.text, hcur, List.append_nil]
  · refine ⟨⟨hfits.out, ?_, ?_⟩, ?_⟩
    · show size (fitting.cur ++ line) ≤ windowChars
      rw [size_append]
      rcases hroom with hcur | hroom
      · rw [hcur, size_nil]
        omega
      · exact hroom
    · intro _
      show isBlank (fitting.cur ++ line) = false
      rw [isBlank_append, hshown, Bool.and_false]
    · rw [Packer.text, Packer.text, List.append_assoc]

theorem Packer.Fits.pushAll {packer : Packer} (h : packer.Fits) (lines : List (List Char))
    (hlines : ∀ line ∈ lines, line.length ≤ windowChars ∧ isBlank line = false) :
    (lines.foldl Packer.push packer).Fits ∧ (lines.foldl Packer.push packer).text = packer.text ++ lines.flatten := by
  induction lines generalizing packer with
  | nil => exact ⟨h, (List.append_nil _).symm⟩
  | cons line lines ih =>
      obtain ⟨hline, hrest⟩ := List.forall_mem_cons.mp hlines
      obtain ⟨hfits, htext⟩ := h.push hline.1 hline.2
      obtain ⟨hfits', htext'⟩ := ih hfits hrest
      refine ⟨hfits', ?_⟩
      rw [List.foldl_cons, htext', htext, List.flatten_cons, List.append_assoc]

/-- Nothing is lost on the way into the windows, whose size is kept. -/
theorem windows_eq {evidence : List PersonaEvidence}
    (h : ∀ unit ∈ evidence, (renderEvidence unit).length ≤ windowChars) :
    (windows evidence).flatten = evidence.flatMap renderEvidence ∧
      ∀ window ∈ windows evidence, window.length ≤ windowChars := by
  have hstart : Packer.Fits ⟨[], []⟩ := ⟨nofun, Nat.zero_le _, fun hne => absurd rfl hne⟩
  obtain ⟨hfits, htext⟩ := hstart.pushAll (evidence.map renderEvidence) (by
    intro line hline
    obtain ⟨unit, hunit, rfl⟩ := List.mem_map.mp hline
    exact ⟨h unit hunit, renderEvidence_ne_blank unit⟩)
  rw [windows, Packer.finish]
  split_ifs with hblank
  · have hcur : (List.foldl Packer.push ⟨[], []⟩ (evidence.map renderEvidence)).cur = [] := by
      by_contra hne
      rw [hfits.shown hne] at hblank
      cases hblank
    refine ⟨?_, hfits.out⟩
    rw [Packer.text, hcur, List.append_nil] at htext
    rw [htext, List.flatMap]
    rfl
  · refine ⟨?_, hfits.flush.out⟩
    rw [Packer.text] at htext
    rw [List.flatten_append, List.flatten_singleton, htext, List.flatMap]
    rfl

/-! ### Pieces of a window -/

/-- What is put out and what is open are packed; nothing is open only at the start. -/
structure Packer.Splitting (bound : Nat) (packer : Packer) : Prop where
  packed : Packed bound (packer.out ++ [packer.cur])
  fresh : packer.cur = [] → packer.out = []

/-- A line that is cut by force: the open piece is on its way to one that the rest of the line fills up. -/
theorem hardSplit_foldl {bound : Nat} (hbound : 0 < bound) (line : List Char) (packer : Packer)
    (hcur : packer.cur.length ≤ bound)
    (h : Packed bound (packer.out ++ [packer.cur ++ line.take (bound - packer.cur.length)]))
    (hne : packer.cur ++ line ≠ []) :
    Packed bound ((line.foldl (hardSplit bound) packer).out ++ [(line.foldl (hardSplit bound) packer).cur]) ∧
      (line.foldl (hardSplit bound) packer).cur ≠ [] ∧
      (line.foldl (hardSplit bound) packer).text = packer.text ++ line := by
  induction line generalizing packer with
  | nil =>
      rw [List.take_nil, List.append_nil] at h
      exact ⟨h, by rwa [List.append_nil] at hne, (List.append_nil _).symm⟩
  | cons c line ih =>
      rw [List.foldl_cons, hardSplit]
      by_cases hfull : bound ≤ packer.cur.length
      · -- the open piece is full, and the character starts the next one
        have hlen : packer.cur.length = bound := Nat.le_antisymm hcur hfull
        rw [hlen, Nat.sub_self, List.take_zero, List.append_nil] at h
        rw [if_pos hfull]
        obtain ⟨hpacked, hcur', htext⟩ := ih ⟨packer.flush.out, [c]⟩ hbound (by
          refine h.concat ?_ fun before hbefore => ?_
          · simp only [List.length_append, List.length_singleton, List.length_take]
            omega
          · rw [List.getLast?_concat, Option.mem_some_iff] at hbefore
            rw [← hbefore, hlen, List.length_append, List.length_singleton]
            omega) (List.cons_ne_nil _ _)
        refine ⟨hpacked, hcur', ?_⟩
        rw [htext, Packer.text, Packer.text, Packer.flush]
        simp
      · have hroom : bound - packer.cur.length = bound - (packer.cur ++ [c]).length + 1 := by
          rw [List.length_append, List.length_singleton]
          omega
        rw [if_neg hfull]
        rw [hroom, List.take_succ_cons, List.append_cons packer.cur] at h
        obtain ⟨hpacked, hcur', htext⟩ := ih ⟨packer.out, packer.cur ++ [c]⟩ (by
          show (packer.cur ++ [c]).length ≤ bound
          rw [List.length_append, List.length_singleton]
          omega) h (by simp)
        refine ⟨hpacked, hcur', ?_⟩
        rw [htext, Packer.text, Packer.text]
        simp

/-- A line that is started with nothing open, behind a piece that it does not fit into. -/
theorem Packer.Splitting.fresh_line {bound : Nat} (hbound : 0 < bound) (out : List (List Char)) {line : List Char}
    (hout : Packed bound out) (hlast : ∀ before ∈ out.getLast?, bound < before.length + line.length)
    (hlasts : ∀ before ∈ out.getLast?, before ≠ []) (hline : line ≠ []) :
    (splitLine bound ⟨out, []⟩ line).Splitting bound ∧ (splitLine bound ⟨out, []⟩ line).text = out.flatten ++ line := by
  have hskip : ¬(0 < (Packer.mk out []).cur.length ∧ bound < (Packer.mk out []).cur.length + line.length) := by simp
  rw [splitLine, if_neg hskip]
  by_cases hlong : bound < line.length
  · obtain ⟨hpacked, hcur, htext⟩ := hardSplit_foldl hbound line ⟨out, []⟩ (Nat.zero_le _) (by
      refine hout.concat ?_ fun before hbefore => ?_
      · simp only [List.nil_append, List.length_take]
        omega
      · have hpos := List.length_pos_iff.mpr (hlasts before hbefore)
        simp only [List.nil_append, List.length_take, List.length_nil]
        omega) hline
    rw [if_pos hlong]
    refine ⟨⟨hpacked, fun hnil => absurd hnil hcur⟩, ?_⟩
    refine htext.trans ?_
    rw [Packer.text, List.append_nil]
  · rw [if_neg hlong]
    refine ⟨⟨hout.concat (Nat.le_of_not_lt hlong) hlast, fun hnil => absurd hnil hline⟩, ?_⟩
    rw [Packer.text, List.nil_append]

theorem Packer.Splitting.line {bound : Nat} (hbound : 0 < bound) {packer : Packer} (h : packer.Splitting bound)
    {line : List Char} (hline : line ≠ []) :
    (splitLine bound packer line).Splitting bound ∧ (splitLine bound packer line).text = packer.text ++ line := by
  by_cases hcur : packer.cur = []
  · -- only the first line is read with nothing open
    obtain ⟨out, cur⟩ := packer
    obtain rfl : cur = [] := hcur
    obtain rfl : out = [] := h.fresh rfl
    exact fresh_line hbound [] .nil nofun nofun hline
  · have hpos : 0 < packer.cur.length := List.length_pos_iff.mpr hcur
    by_cases hfull : bound < packer.cur.length + line.length
    · have hflush : splitLine bound packer line = splitLine bound packer.flush line := by
        have hboth : 0 < packer.cur.length ∧ bound < packer.cur.length + line.length := ⟨hpos, hfull⟩
        have hskip : ¬(0 < packer.flush.cur.length ∧ bound < packer.flush.cur.length + line.length) := by
          simp [Packer.flush]
        rw [splitLine, splitLine, if_pos hboth, if_neg hskip]
      obtain ⟨hsplitting, htext⟩ := fresh_line hbound (packer.out ++ [packer.cur]) h.packed
        (fun before hbefore => by
          rw [List.getLast?_concat, Option.mem_some_iff] at hbefore
          rwa [← hbefore])
        (fun before hbefore => by
          rw [List.getLast?_concat, Option.mem_some_iff] at hbefore
          rwa [← hbefore]) hline
      rw [hflush]
      refine ⟨hsplitting, htext.trans ?_⟩
      rw [List.flatten_append, List.flatten_singleton, Packer.text]
    · have hskip : ¬(0 < packer.cur.length ∧ bound < packer.cur.length + line.length) := fun hboth => hfull hboth.2
      have hshort : ¬bound < line.length := by omega
      rw [splitLine, if_neg hskip, if_neg hshort]
      refine ⟨⟨h.packed.grow ?_ ?_, fun hnil => absurd (List.append_eq_nil_iff.mp hnil).1 hcur⟩, ?_⟩
      · rw [List.length_append]
        omega
      · rw [List.length_append]
        omega
      · rw [Packer.text, Packer.text, List.append_assoc]

theorem Packer.Splitting.lines {bound : Nat} (hbound : 0 < bound) {packer : Packer} (h : packer.Splitting bound)
    {lines : List (List Char)} (hlines : ∀ line ∈ lines, line ≠ []) :
    (lines.foldl (splitLine bound) packer).Splitting bound ∧
      (lines.foldl (splitLine bound) packer).text = packer.text ++ lines.flatten := by
  induction lines generalizing packer with
  | nil => exact ⟨h, (List.append_nil _).symm⟩
  | cons line lines ih =>
      obtain ⟨hline, hrest⟩ := List.forall_mem_cons.mp hlines
      obtain ⟨hsplitting, htext⟩ := h.line hbound hline
      obtain ⟨hsplitting', htext'⟩ := ih hsplitting hrest
      refine ⟨hsplitting', ?_⟩
      rw [List.foldl_cons, htext', htext, List.flatten_cons, List.append_assoc]

/-- The pieces of a window are packed up to the target, and they are the window up to a blank rest. -/
theorem splitWindow_spec (text : List Char) (target : Nat) :
    Packed (max target 1) (splitWindow text target) ∧
      ∃ tail, isBlank tail = true ∧ (splitWindow text target).flatten ++ tail = text := by
  have hstart : Packer.Splitting (max target 1) ⟨[], []⟩ :=
    ⟨Packed.nil.concat (Nat.zero_le _) nofun, fun _ => rfl⟩
  obtain ⟨hsplitting, htext⟩ := hstart.lines (by omega) (nonempty_cutAfter (fun c _ => c == '\n') text)
  constructor
  · rw [splitWindow, Packer.finish, splitInclusive]
    split_ifs
    · exact hsplitting.packed.dropLast
    · exact hsplitting.packed
  · obtain ⟨tail, hblank, htail⟩ :=
      Packer.finish_append ((splitInclusive text).foldl (splitLine (max target 1)) ⟨[], []⟩)
    refine ⟨tail, hblank, ?_⟩
    rw [splitWindow, htail, splitInclusive, htext, flatten_cutAfter]
    rfl

/-- Half a window takes at most three pieces. -/
theorem splitWindow_half {text : List Char} (hlong : 2 ≤ text.length) :
    (splitWindow text (text.length / 2)).length ≤ 3 ∧
      ∀ part ∈ splitWindow text (text.length / 2), part.length ≤ text.length / 2 := by
  obtain ⟨hpacked, tail, _, htail⟩ := splitWindow_spec text (text.length / 2)
  rw [Nat.max_eq_left (by omega)] at hpacked
  refine ⟨hpacked.length_le_three ?_, hpacked.short⟩
  have hlen := congrArg List.length htail
  rw [List.length_append] at hlen
  omega

end TinyCortex.Persona

/-! Digests (`persona/distill.rs`): a window whose answer could not be read is split and asked about again, piece by
piece, and all the digests of a run share a budget of calls. -/

namespace TinyCortex.Persona

open Visible

variable {obs : Type}

inductive DigestError
  | provider
  | unparseable
  | budgetExhausted
  deriving DecidableEq

/-! ### Recovery -/

structure Piece where
  text : List Char
  splitsRemaining : Nat
  deriving DecidableEq

/-- The state of the loop; the top of the stack comes first. -/
structure Recovery (obs : Type) where
  observations : List obs
  lost : Nat
  stack : List Piece
  deriving DecidableEq

def Recovery.start (window : List Char) : Recovery obs := ⟨[], 0, [⟨window, maxResplitDepth⟩]⟩

/-- What a piece that could not be digested is split into. -/
def Piece.parts (piece : Piece) : List (List Char) :=
  let target := piece.text.length / 2
  if 0 < piece.splitsRemaining ∧ minWindowChars ≤ target then splitWindow piece.text target else []

/-- The turn of the loop for a piece that is off the stack, by what its digest came to. -/
def Recovery.turn (recovery : Recovery obs) (piece : Piece) : Except DigestError (List obs) →
    Except DigestError (Recovery obs)
  | .ok found => .ok { recovery with observations := recovery.observations ++ found }
  | .error .unparseable =>
      if 1 < piece.parts.length then
        .ok { recovery with
          stack := piece.parts.foldl (fun stack part => ⟨part, piece.splitsRemaining - 1⟩ :: stack) recovery.stack }
      else .ok { recovery with lost := recovery.lost + 1 }
  | .error e => .error e

/-- `digest_window_recovering`, as far as the results of its calls go. -/
def Recovery.loop (recovery : Recovery obs) : List (Except DigestError (List obs)) → Except DigestError (Recovery obs)
  | [] => .ok recovery
  | result :: results =>
      match recovery.stack with
      | [] => .ok recovery
      | piece :: stack =>
          match Recovery.turn { recovery with stack := stack } piece result with
          | .ok next => next.loop results
          | .error e => .error e

/-- The calls that the loop makes. -/
def Recovery.calls (recovery : Recovery obs) :
    List (Except DigestError (List obs)) → List (Piece × Except DigestError (List obs))
  | [] => []
  | result :: results =>
      match recovery.stack with
      | [] => []
      | piece :: stack =>
          (piece, result) ::
            match Recovery.turn { recovery with stack := stack } piece result with
            | .ok next => next.calls results
            | .error _ => []

/-- What becomes of a part of a window. -/
inductive Ending
  | digested
  | dropped
  | blank
  deriving DecidableEq

/-- The end that a call puts to its piece, unless the piece is split. -/
def ending (call : Piece × Except DigestError (List obs)) : Option Ending :=
  match call.2 with
  | .ok _ => some .digested
  | .error .unparseable => if 1 < call.1.parts.length then none else some .dropped
  | .error _ => none

/-- The pieces that the calls put to an end. -/
def endingWith (e : Ending) (calls : List (Piece × Except DigestError (List obs))) : List (List Char) :=
  (calls.filter fun call => ending call = some e).map fun call => call.1.text

/-! ### Splits -/

theorem Piece.parts_spec (piece : Piece) :
    piece.parts.length ≤ 3 ∧ (∀ part ∈ piece.parts, part.length ≤ piece.text.length / 2) ∧
      (piece.parts ≠ [] → 0 < piece.splitsRemaining ∧
        ∃ tail, isBlank tail = true ∧ piece.parts.flatten ++ tail = piece.text) := by
  rw [parts]
  split_ifs with hsplit
  · have hlong : 2 ≤ piece.text.length := by
      have hmin := hsplit.2
      rw [minWindowChars] at hmin
      omega
    obtain ⟨hfew, hshort⟩ := splitWindow_half hlong
    exact ⟨hfew, hshort, fun _ => ⟨hsplit.1, (splitWindow_spec piece.text _).2⟩⟩
  · exact ⟨Nat.zero_le _, nofun, fun hne => absurd rfl hne⟩

theorem foldl_push (splits : Nat) (parts : List (List Char)) (stack : List Piece) :
    parts.foldl (fun stack part => ⟨part, splits⟩ :: stack) stack =
      (parts.map fun part => Piece.mk part splits).reverse ++ stack := by
  induction parts generalizing stack with
  | nil => rfl
  | cons part parts ih =>
      rw [List.foldl_cons, ih, List.map_cons, List.reverse_cons, List.append_assoc]
      rfl

/-! ### The end of the loop -/

/-- The most calls for a piece. -/
def weight : Nat → Nat
  | 0 => 1
  | splits + 1 => 3 * weight splits + 1

def stackWeight (stack : List Piece) : Nat := (stack.map fun piece => weight piece.splitsRemaining).sum

theorem weight_pos (splits : Nat) : 0 < weight splits := by
  cases splits with
  | zero => exact Nat.one_pos
  | succ splits => exact Nat.succ_pos _

theorem stackWeight_turn {recovery next : Recovery obs} {piece : Piece} {result : Except DigestError (List obs)}
    (h : recovery.turn piece result = .ok next) :
    stackWeight next.stack + 1 ≤ stackWeight recovery.stack + weight piece.splitsRemaining := by
  have hpos := weight_pos piece.splitsRemaining
  match result with
  | .ok found =>
      obtain rfl := Except.ok.inj h
      show stackWeight recovery.stack + 1 ≤ _
      omega
  | .error .provider => cases h
  | .error .budgetExhausted => cases h
  | .error .unparseable =>
      rw [Recovery.turn] at h
      split_ifs at h with hsplit
      · obtain rfl := Except.ok.inj h
        obtain ⟨hfew, _, hparts⟩ := piece.parts_spec
        obtain ⟨hsplits, _⟩ := hparts (List.length_pos_iff.mp (by omega))
        obtain ⟨splits, hsucc⟩ : ∃ splits, piece.splitsRemaining = splits + 1 := ⟨piece.splitsRemaining - 1, by omega⟩
        have hsum : stackWeight ((piece.parts.map fun part => Piece.mk part splits).reverse ++ recovery.stack) =
            piece.parts.length * weight splits + stackWeight recovery.stack := by
          simp [stackWeight, Function.comp_def]
        have hmul := Nat.mul_le_mul_right (weight splits) hfew
        rw [foldl_push, hsucc, Nat.add_sub_cancel, hsum, weight]
        omega
      · obtain rfl := Except.ok.inj h
        show stackWeight recovery.stack + 1 ≤ _
        omega

/-- The loop has come to its end. -/
def Recovery.Ended (result : Except DigestError (Recovery obs)) : Prop := ∀ recovery, result = .ok recovery → recovery.stack = []

theorem Recovery.ended_loop {recovery : Recovery obs} {results : List (Except DigestError (List obs))}
    (hmany : stackWeight recovery.stack ≤ results.length) : Ended (recovery.loop results) := by
  induction results generalizing recovery with
  | nil =>
      intro ended h
      obtain rfl := Except.ok.inj h
      cases hstack : recovery.stack with
      | nil => rfl
      | cons piece stack =>
          rw [hstack] at hmany
          have hpos := weight_pos piece.splitsRemaining
          simp only [stackWeight, List.map_cons, List.sum_cons, List.length_nil] at hmany
          omega
  | cons result results ih =>
      rw [loop]
      cases hstack : recovery.stack with
      | nil =>
          intro ended h
          rw [← Except.ok.inj h]
          exact hstack
      | cons piece stack =>
          dsimp only
          cases hturn : Recovery.turn { recovery with stack := stack } piece result with
          | error e => exact nofun
          | ok next =>
              have hweight := stackWeight_turn hturn
              rw [hstack] at hmany
              simp only [stackWeight, List.map_cons, List.sum_cons, List.length_cons] at hmany hweight
              exact ih (by rw [stackWeight]; omega)

/-! ### Where the text ends -/

/-- The leaves of the recovery, in the order of the text: what the calls digested and what they dropped, last call
first, and blank rests. -/
structure Leaves (text : List Char) (calls : List (Piece × Except DigestError (List obs)))
    (leaves : List (Ending × List Char)) : Prop where
  text : (leaves.map Prod.snd).flatten = text
  called : ∀ e, e ≠ .blank → (leaves.filter fun leaf => leaf.1 = e).map Prod.snd = (endingWith e calls).reverse
  blank : ∀ leaf ∈ leaves, leaf.1 = .blank → isBlank leaf.2 = true

def stackText (stack : List Piece) : List Char := (stack.reverse.map Piece.text).flatten

theorem stackText_cons (piece : Piece) (stack : List Piece) : stackText (piece :: stack) = stackText stack ++ piece.text := by
  simp [stackText]

theorem stackText_push (splits : Nat) (parts : List (List Char)) (stack : List Piece) :
    stackText (parts.foldl (fun stack part => ⟨part, splits⟩ :: stack) stack) = stackText stack ++ parts.flatten := by
  rw [foldl_push, stackText, stackText, List.reverse_append, List.reverse_reverse, List.map_append, List.flatten_append,
    List.map_map]
  simp [Function.comp_def]

variable {text : List Char} {calls : List (Piece × Except DigestError (List obs))} {leaves : List (Ending × List Char)}
  {call : Piece × Except DigestError (List obs)}

theorem endingWith_cons (e : Ending) : endingWith e (call :: calls) =
    if ending call = some e then call.1.text :: endingWith e calls else endingWith e calls := by
  rw [endingWith, List.filter_cons]
  split_ifs <;> simp_all [endingWith]

/-- A piece that a call puts to an end is the leaf behind the others. -/
theorem Leaves.leaf (h : Leaves text calls leaves) {e : Ending} (he : ending call = some e) (hblank : e ≠ .blank) :
    Leaves (text ++ call.1.text) (call :: calls) (leaves ++ [(e, call.1.text)]) where
  text := by simp [h.text]
  called other hother := by
    rw [List.filter_append, List.map_append, h.called other hother, endingWith_cons, he]
    by_cases heq : e = other
    · rw [if_pos (congrArg some heq), List.reverse_cons]
      simp [heq]
    · rw [if_neg fun hsome => heq (Option.some.inj hsome)]
      simp [heq]
  blank leaf hleaf hend := by
    rcases List.mem_append.mp hleaf with hold | hnew
    · exact h.blank leaf hold hend
    · rw [List.mem_singleton.mp hnew] at hend
      exact absurd hend hblank

/-- Behind the pieces of a split stands what was blank. -/
theorem Leaves.rest (h : Leaves text calls leaves) (he : ending call = none) {tail : List Char}
    (htail : isBlank tail = true) : Leaves (text ++ tail) (call :: calls) (leaves ++ [(.blank, tail)]) where
  text := by simp [h.text]
  called other hother := by
    rw [List.filter_append, List.map_append, h.called other hother, endingWith_cons, he, if_neg nofun]
    simp [Ne.symm hother]
  blank leaf hleaf hend := by
    rcases List.mem_append.mp hleaf with hold | hnew
    · exact h.blank leaf hold hend
    · rwa [List.mem_singleton.mp hnew]

/-- What a recovery that ends without an error has done with the text on its stack. -/
theorem Recovery.leaves_of_loop {recovery ended : Recovery obs} {results : List (Except DigestError (List obs))}
    (h : recovery.loop results = .ok ended) (hend : ended.stack = []) :
    (∃ leaves, Leaves (stackText recovery.stack) (recovery.calls results) leaves) ∧
      ended.lost = recovery.lost + (endingWith .dropped (recovery.calls results)).length := by
  induction results generalizing recovery with
  | nil =>
      obtain rfl := Except.ok.inj h
      rw [hend]
      exact ⟨⟨[], rfl, fun _ _ => rfl, nofun⟩, rfl⟩
  | cons result results ih =>
      rw [loop] at h
      rw [calls]
      cases hstack : recovery.stack with
      | nil =>
          rw [hstack] at h
          obtain rfl := Except.ok.inj h
          exact ⟨⟨[], rfl, fun _ _ => rfl, nofun⟩, rfl⟩
      | cons piece stack =>
          rw [hstack] at h
          dsimp only at h ⊢
          cases hturn : Recovery.turn { recovery with stack := stack } piece result with
          | error e =>
              rw [hturn] at h
              cases h
          | ok next =>
              rw [hturn] at h
              obtain ⟨⟨leaves, hleaves⟩, hlost⟩ := ih h
              dsimp only
              rw [stackText_cons, endingWith_cons]
              match result, hturn with
              | .ok found, hturn =>
                  obtain rfl := Except.ok.inj hturn
                  have hdigested : ending ((piece, .ok found) : Piece × Except DigestError (List obs)) =
                      some .digested := rfl
                  exact ⟨⟨_, hleaves.leaf hdigested nofun⟩, hlost⟩
              | .error .provider, hturn => cases hturn
              | .error .budgetExhausted, hturn => cases hturn
              | .error .unparseable, hturn =>
                  rw [Recovery.turn] at hturn
                  by_cases hsplit : 1 < piece.parts.length
                  · rw [if_pos hsplit] at hturn
                    obtain rfl := Except.ok.inj hturn
                    have hnone : ending ((piece, .error .unparseable) : Piece × Except DigestError (List obs)) = none :=
                      if_pos hsplit
                    obtain ⟨_, _, hparts⟩ := piece.parts_spec
                    obtain ⟨_, tail, hblank, htail⟩ := hparts (List.length_pos_iff.mp (by omega))
                    rw [if_neg (by rw [hnone]; exact nofun)]
                    refine ⟨⟨leaves ++ [(.blank, tail)], ?_⟩, hlost⟩
                    rw [← htail, ← List.append_assoc, ← stackText_push (piece.splitsRemaining - 1)]
                    exact hleaves.rest hnone hblank
                  · rw [if_neg hsplit] at hturn
                    obtain rfl := Except.ok.inj hturn
                    have hdropped : ending ((piece, .error .unparseable) : Piece × Except DigestError (List obs)) =
                        some .dropped := if_neg hsplit
                    rw [if_pos hdropped, List.length_cons]
                    refine ⟨⟨_, hleaves.leaf hdropped nofun⟩, ?_⟩
                    rw [hlost]
                    show recovery.lost + 1 + _ = _
                    omega

/-! ### Digests that share a budget -/

/-- What the provider comes back with. -/
inductive Answer (obs : Type)
  | parsed (observations : List obs)
  | unparseable
  | failed

def Answer.result : Answer obs → Except DigestError (List obs)
  | .parsed found => .ok found
  | .unparseable => .error .unparseable
  | .failed => .error .provider

/-- Where a digest stands in `CallBudget::try_acquire`. -/
inductive Acquiring
  | load
  | exchange (current : Nat)
  | acquired
  deriving DecidableEq

/-- `digest_session` within the recovery of a window. -/
structure Digest (obs : Type) where
  windows : List (List Char)
  recovery : Recovery obs
  observations : List obs
  windowsLost : Nat
  acquiring : Acquiring

inductive Session (obs : Type)
  | digesting (digest : Digest obs)
  | done (outcome : Except DigestError (List obs × Nat))

def Session.nextWindow (observations : List obs) (windowsLost : Nat) : List (List Char) → Session obs
  | [] => .done (.ok (observations, windowsLost))
  | window :: windows => .digesting ⟨windows, .start window, observations, windowsLost, .load⟩

def Session.start (evidence : List PersonaEvidence) : Session obs :=
  if evidence.isEmpty then .done (.ok ([], 0)) else nextWindow [] 0 (windows evidence)

/-- The session behind the result of a call. -/
def Digest.resume (digest : Digest obs) (result : Except DigestError (List obs)) : Session obs :=
  match digest.recovery.loop [result] with
  | .error e => .done (.error e)
  | .ok recovery =>
      if recovery.stack = [] then
        .nextWindow (digest.observations ++ recovery.observations) (digest.windowsLost + recovery.lost) digest.windows
      else .digesting { digest with recovery := recovery, acquiring := .load }

/-- Digests of a run, the calls that are left to them, and the calls they have made. -/
structure Digests (obs : Type) where
  remaining : Nat
  calls : Nat
  sessions : List (Session obs)

inductive DigestStep (obs : Type)
  | load
  /-- `compare_exchange_weak`, which may fail for no reason. -/
  | exchange (spurious : Bool)
  | call (answer : Answer obs)

def Digests.step (digests : Digests obs) (label : Nat × DigestStep obs) : Digests obs :=
  match digests.sessions[label.1]? with
  | some (.digesting digest) =>
      match digest.acquiring, label.2 with
      | .load, .load =>
          { digests with
            sessions := digests.sessions.set label.1 (.digesting { digest with acquiring := .exchange digests.remaining }) }
      | .exchange current, .exchange spurious =>
          if current = 0 then
            { digests with sessions := digests.sessions.set label.1 (digest.resume (.error .budgetExhausted)) }
          else if digests.remaining = current ∧ spurious = false then
            { digests with
              remaining := current - 1
              sessions := digests.sessions.set label.1 (.digesting { digest with acquiring := .acquired }) }
          else
            { digests with
              sessions := digests.sessions.set label.1 (.digesting { digest with acquiring := .exchange digests.remaining }) }
      | .acquired, .call answer =>
          { digests with
            calls := digests.calls + 1
            sessions := digests.sessions.set label.1 (digest.resume answer.result) }
      | _, _ => digests
  | _ => digests

def sharing (obs : Type) (maxCalls : Nat) (sessions : List (List PersonaEvidence)) :
    Machine (Digests obs) (Nat × DigestStep obs) where
  start := ⟨maxCalls, 0, sessions.map Session.start⟩
  step := Digests.step

/-- The session may make a call. -/
def Session.permitted : Session obs → Bool
  | .digesting digest => digest.acquiring = .acquired
  | .done _ => false

/-- A digest is within the recovery of one of the windows of its session. -/
def Session.Follows (evidence : List PersonaEvidence) : Session obs → Prop
  | .digesting digest => digest.windows <:+ windows evidence ∧
      ∃ window ∈ windows evidence, ∃ results, (Recovery.start window).loop results = .ok digest.recovery
  | .done _ => True

theorem permitted_nextWindow (observations : List obs) (windowsLost : Nat) (rest : List (List Char)) :
    (Session.nextWindow observations windowsLost rest).permitted = false := by
  cases rest <;> rfl

theorem permitted_resume (digest : Digest obs) (result : Except DigestError (List obs)) :
    (digest.resume result).permitted = false := by
  rw [Digest.resume]
  cases digest.recovery.loop [result] with
  | error e => rfl
  | ok recovery =>
      dsimp only
      split_ifs
      · exact permitted_nextWindow _ _ _
      · rfl

/-- What a step does: one digest goes on from where it was, and what it takes from the budget is a permit to make a call,
which it gives up for the call. -/
theorem Digests.step_cases (digests : Digests obs) (label : Nat × DigestStep obs) :
    digests.step label = digests ∨
      ∃ digest session remaining calls, digests.sessions[label.1]? = some (.digesting digest) ∧
        digests.step label = ⟨remaining, calls, digests.sessions.set label.1 session⟩ ∧
        calls + remaining + (if session.permitted then 1 else 0) =
          digests.calls + digests.remaining + (if (Session.digesting digest).permitted then 1 else 0) ∧
        ((∃ acquiring, session = .digesting { digest with acquiring := acquiring }) ∨
          ∃ result, session = digest.resume result) := by
  obtain ⟨i, step⟩ := label
  rw [Digests.step]
  cases hsession : digests.sessions[i]? with
  | none => exact Or.inl rfl
  | some session =>
      cases session with
      | done outcome => exact Or.inl rfl
      | digesting digest =>
          obtain ⟨rest, recovery, observations, windowsLost, acquiring⟩ := digest
          cases acquiring with
          | load =>
              cases step with
              | load => exact Or.inr ⟨_, _, _, _, rfl, rfl, rfl, Or.inl ⟨_, rfl⟩⟩
              | exchange spurious => exact Or.inl rfl
              | call answer => exact Or.inl rfl
          | exchange current =>
              cases step with
              | load => exact Or.inl rfl
              | exchange spurious =>
                  dsimp only
                  split_ifs with hzero hequal
                  · refine Or.inr ⟨_, _, _, _, rfl, rfl, ?_, Or.inr ⟨_, rfl⟩⟩
                    rw [permitted_resume]
                    rfl
                  · refine Or.inr ⟨_, _, _, _, rfl, rfl, ?_, Or.inl ⟨_, rfl⟩⟩
                    have hcurrent := hequal.1
                    simp only [Session.permitted, decide_true, if_true, reduceCtorEq, decide_false, Bool.false_eq_true,
                      if_false]
                    omega
                  · exact Or.inr ⟨_, _, _, _, rfl, rfl, rfl, Or.inl ⟨_, rfl⟩⟩
              | call answer => exact Or.inl rfl
          | acquired =>
              cases step with
              | load => exact Or.inl rfl
              | exchange spurious => exact Or.inl rfl
              | call answer =>
                  refine Or.inr ⟨_, _, _, _, rfl, rfl, ?_, Or.inr ⟨_, rfl⟩⟩
                  rw [permitted_resume]
                  simp only [Session.permitted, decide_true, if_true, Bool.false_eq_true, if_false]
                  omega

/-- Every call of the budget is left, made or permitted. -/
def Digests.Accounted (maxCalls : Nat) (digests : Digests obs) : Prop :=
  digests.calls + digests.remaining + digests.sessions.countP Session.permitted = maxCalls

theorem Digests.Accounted.step {maxCalls : Nat} {digests : Digests obs} (h : digests.Accounted maxCalls)
    (label : Nat × DigestStep obs) : (digests.step label).Accounted maxCalls := by
  rcases digests.step_cases label with hsame | ⟨digest, session, remaining, calls, hold, hnew, hcount, _⟩
  · rwa [hsame]
  · have hset := Interleaving.countP_replace (some session) Session.permitted hold
    rw [Interleaving.replace, Option.any_some] at hset
    rw [Accounted] at h
    rw [hnew, Accounted]
    dsimp only
    omega

theorem Digests.accounted_run (maxCalls : Nat) (sessions : List (List PersonaEvidence))
    (labels : List (Nat × DigestStep obs)) : ((sharing obs maxCalls sessions).run labels).Accounted maxCalls := by
  refine (sharing obs maxCalls sessions).invariant ?_ (fun digests label h => h.step label) labels
  have hnone : (sessions.map (@Session.start obs)).countP Session.permitted = 0 := by
    rw [List.countP_eq_zero]
    intro session hsession
    obtain ⟨evidence, _, rfl⟩ := List.mem_map.mp hsession
    rw [Session.start]
    split_ifs
    · exact Bool.false_ne_true
    · rw [permitted_nextWindow]
      exact Bool.false_ne_true
  show 0 + maxCalls + (sessions.map Session.start).countP Session.permitted = maxCalls
  rw [hnone]
  omega

/-! ### Recoveries of a session -/

theorem Recovery.loop_concat {recovery next : Recovery obs} {results : List (Except DigestError (List obs))}
    (h : recovery.loop results = .ok next) (result : Except DigestError (List obs)) :
    recovery.loop (results ++ [result]) = next.loop [result] := by
  induction results generalizing recovery with
  | nil =>
      obtain rfl := Except.ok.inj h
      rfl
  | cons first results ih =>
      rw [loop] at h
      rw [List.cons_append, loop]
      cases hstack : recovery.stack with
      | nil =>
          rw [hstack] at h
          obtain rfl := Except.ok.inj h
          rw [loop, hstack]
      | cons piece stack =>
          rw [hstack] at h
          dsimp only at h ⊢
          cases hturn : Recovery.turn { recovery with stack := stack } piece first with
          | error e =>
              rw [hturn] at h
              cases h
          | ok turned =>
              rw [hturn] at h
              exact ih h

theorem follows_nextWindow {evidence : List PersonaEvidence} {rest : List (List Char)}
    (hrest : rest <:+ windows evidence) (observations : List obs) (windowsLost : Nat) :
    (Session.nextWindow observations windowsLost rest).Follows evidence := by
  cases rest with
  | nil => exact trivial
  | cons window rest =>
      exact ⟨(List.suffix_cons window rest).trans hrest, window, hrest.subset List.mem_cons_self, [], rfl⟩

theorem Session.Follows.resume {evidence : List PersonaEvidence} {digest : Digest obs}
    (h : (Session.digesting digest).Follows evidence) (result : Except DigestError (List obs)) :
    (digest.resume result).Follows evidence := by
  obtain ⟨hrest, window, hwindow, results, hloop⟩ := h
  rw [Digest.resume]
  cases hnext : digest.recovery.loop [result] with
  | error e => exact trivial
  | ok recovery =>
      dsimp only
      split_ifs
      · exact follows_nextWindow hrest _ _
      · exact ⟨hrest, window, hwindow, results ++ [result], (Recovery.loop_concat hloop result).trans hnext⟩

/-- All digests follow the evidence of a session. -/
def Digests.Follow (sessions : List (List PersonaEvidence)) (digests : Digests obs) : Prop :=
  ∀ session ∈ digests.sessions, ∃ evidence ∈ sessions, session.Follows evidence

theorem Digests.Follow.step {sessions : List (List PersonaEvidence)} {digests : Digests obs}
    (h : digests.Follow sessions) (label : Nat × DigestStep obs) : (digests.step label).Follow sessions := by
  rcases digests.step_cases label with hsame | ⟨digest, session, remaining, calls, hold, hnew, _, hsession⟩
  · rwa [hsame]
  · obtain ⟨evidence, hevidence, hfollows⟩ := h _ (List.mem_of_getElem? hold)
    rw [hnew]
    intro other hother
    rcases List.mem_or_eq_of_mem_set hother with hmem | rfl
    · exact h other hmem
    · refine ⟨evidence, hevidence, ?_⟩
      rcases hsession with ⟨acquiring, rfl⟩ | ⟨result, rfl⟩
      · exact hfollows
      · exact hfollows.resume result

theorem Digests.follow_run (maxCalls : Nat) (sessions : List (List PersonaEvidence))
    (labels : List (Nat × DigestStep obs)) : ((sharing obs maxCalls sessions).run labels).Follow sessions := by
  refine (sharing obs maxCalls sessions).invariant ?_ (fun digests label h => h.step label) labels
  intro session hsession
  obtain ⟨evidence, hevidence, rfl⟩ := List.mem_map.mp hsession
  refine ⟨evidence, hevidence, ?_⟩
  rw [Session.start]
  split_ifs
  · exact trivial
  · exact follows_nextWindow (List.suffix_refl _) _ _

/-- The windows hold the evidence; a recovery ends after at most forty calls, splits a piece into at most three of at
most half its length, and digests or drops each part of its window once, but for blank rests; and digests that share
a budget make no more calls than it has, each for a window of its session. -/
theorem digests_lose_nothing (obs : Type) :
    (∀ evidence : List PersonaEvidence, (∀ unit ∈ evidence, (renderEvidence unit).length ≤ windowChars) →
      (windows evidence).flatten = evidence.flatMap renderEvidence ∧
        ∀ window ∈ windows evidence, window.length ≤ windowChars) ∧
    (∀ piece : Piece, piece.parts.length ≤ 3 ∧ ∀ part ∈ piece.parts, part.length ≤ piece.text.length / 2) ∧
    (∀ (window : List Char) (results : List (Except DigestError (List obs))),
      (40 ≤ results.length → Recovery.Ended ((Recovery.start window).loop results)) ∧
        ∀ ended, (Recovery.start window).loop results = .ok ended → ended.stack = [] →
          (∃ leaves, Leaves window ((Recovery.start window).calls results) leaves) ∧
            ended.lost = (endingWith .dropped ((Recovery.start window).calls results)).length) ∧
    ∀ (maxCalls : Nat) (sessions : List (List PersonaEvidence)) (labels : List (Nat × DigestStep obs)),
      ((sharing obs maxCalls sessions).run labels).calls ≤ maxCalls ∧
        ((sharing obs maxCalls sessions).run labels).Follow sessions := by
  refine ⟨fun evidence h => windows_eq h, fun piece => ⟨piece.parts_spec.1, piece.parts_spec.2.1⟩,
    fun window results => ⟨fun hmany => Recovery.ended_loop hmany, fun ended h hend => ?_⟩,
    fun maxCalls sessions labels => ⟨?_, Digests.follow_run maxCalls sessions labels⟩⟩
  · obtain ⟨hleaves, hlost⟩ := Recovery.leaves_of_loop h hend
    refine ⟨?_, ?_⟩
    · rwa [Recovery.start, stackText_cons] at hleaves
    · rw [hlost]
      exact Nat.zero_add _
  · have haccounted := Digests.accounted_run maxCalls sessions labels
    rw [Digests.Accounted] at haccounted
    omega

theorem digests_lose_nothing_short :
    (windows [⟨.t1, "no, use tabs".toList⟩]).flatten = "[t1] no, use tabs\n".toList ∧
      (∃ leaves, Leaves "[t1] no, use tabs\n".toList
        ((@Recovery.start String "[t1] no, use tabs\n".toList).calls [.error .unparseable]) leaves) := by
  obtain ⟨hwindows, _, hrecovery, _⟩ := digests_lose_nothing String
  refine ⟨(hwindows [⟨.t1, "no, use tabs".toList⟩] ?_).1.trans ?_, ?_⟩
  · intro unit hunit
    rw [List.mem_singleton.mp hunit]
    decide
  · decide
  · exact ((hrecovery _ [.error .unparseable]).2 ⟨[], 1, []⟩ (by decide) rfl).1

end TinyCortex.Persona
