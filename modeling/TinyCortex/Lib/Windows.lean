import Mathlib

/-! A list told in parts that overlap: each part repeats an end of the part before it and adds what comes next. -/

namespace TinyCortex.Overlap

variable {α : Type*}

structure Stretch (α : Type*) where
  overlap : List α
  added : List α

def Stretch.piece (part : Stretch α) : List α := part.overlap ++ part.added

/-- The first part repeats nothing, every other one an end of the part before it, and what they add is the list, each
of them some of it. -/
structure Tiles (l : List α) (parts : List (Stretch α)) : Prop where
  first : ∀ part ∈ parts.head?, part.overlap = []
  added : (parts.map Stretch.added).flatten = l
  repeats : parts.IsChain fun before part => part.overlap <:+ before.piece
  adds : ∀ part ∈ parts, part.added ≠ []

theorem Tiles.single {l : List α} (h : l ≠ []) : Tiles l [⟨[], l⟩] where
  first part hpart := by
    rw [← Option.some.inj hpart]
  added := List.flatten_singleton
  repeats := List.isChain_singleton _
  adds := List.forall_mem_singleton.mpr h

variable {l : List α} {parts : List (Stretch α)} {part : Stretch α}

theorem Tiles.flatten_concat (h : Tiles l (parts ++ [part])) : (parts.map Stretch.added).flatten ++ part.added = l := by
  have hadded := h.added
  rw [List.map_append, List.flatten_append, List.map_singleton, List.flatten_singleton] at hadded
  exact hadded

/-- The last part goes on. -/
theorem Tiles.extend (h : Tiles l (parts ++ [part])) (more : List α) :
    Tiles (l ++ more) (parts ++ [⟨part.overlap, part.added ++ more⟩]) := by
  obtain ⟨hparts, -, hlink⟩ := List.isChain_append.mp h.repeats
  obtain ⟨hbefore, -⟩ := List.forall_mem_append.mp h.adds
  have hlast : part.added ≠ [] := h.adds part (List.mem_append_right _ List.mem_cons_self)
  refine ⟨fun first hfirst => ?_, ?_, ?_, ?_⟩
  · cases parts with
    | nil =>
        rw [← Option.some.inj hfirst]
        exact h.first part rfl
    | cons head parts => exact h.first first hfirst
  · rw [List.map_append, List.flatten_append, List.map_singleton, List.flatten_singleton, ← List.append_assoc,
      h.flatten_concat]
  · refine List.isChain_append.mpr ⟨hparts, List.isChain_singleton _, fun before hbefore next hnext => ?_⟩
    rw [← Option.some.inj hnext]
    exact hlink before hbefore part rfl
  · refine List.forall_mem_append.mpr ⟨hbefore, List.forall_mem_singleton.mpr ?_⟩
    exact List.append_ne_nil_of_left_ne_nil hlast more

/-- A new part behind the last one. -/
theorem Tiles.concat (h : Tiles l (parts ++ [part])) {overlap added : List α} (hoverlap : overlap <:+ part.piece)
    (hadded : added ≠ []) : Tiles (l ++ added) (parts ++ [part] ++ [⟨overlap, added⟩]) := by
  refine ⟨fun first hfirst => h.first first ?_, ?_, ?_, ?_⟩
  · cases parts with
    | nil => exact hfirst
    | cons head parts => exact hfirst
  · rw [List.map_append, List.flatten_append, h.added, List.map_singleton, List.flatten_singleton]
  · refine List.isChain_append.mpr ⟨h.repeats, List.isChain_singleton _, fun before hbefore next hnext => ?_⟩
    rw [List.getLast?_concat] at hbefore
    rw [← Option.some.inj hbefore, ← Option.some.inj hnext]
    exact hoverlap
  · exact List.forall_mem_append.mpr ⟨h.adds, List.forall_mem_singleton.mpr hadded⟩

theorem Tiles.last_ne_nil (h : Tiles l (parts ++ [part])) : part.piece ≠ [] := by
  have hadded : part.added ≠ [] := h.adds part (List.mem_append_right _ List.mem_cons_self)
  exact List.append_ne_nil_of_right_ne_nil _ hadded

end TinyCortex.Overlap

/-! Windows over a text whose symbols fall into two classes: a text is cut into its maximal runs of one
class, and every run into all its stretches of the length that belongs to the class. -/

namespace TinyCortex.Windows

variable {α : Type*}

/-- The maximal runs of one class. -/
def runs (cls : α → Bool) (text : List α) : List (List α) := text.splitBy fun a b => cls a == cls b

/-- All stretches of `n` consecutive symbols. -/
def windows (n : Nat) (run : List α) : List (List α) :=
  (List.range (run.length + 1 - n)).map fun k => (run.drop k).take n

/-- The windows of every run, as wide as its class says. -/
def ofRun (cls : α → Bool) (width : Bool → Nat) : List α → List (List α)
  | [] => []
  | c :: run => windows (width (cls c)) (c :: run)

def runWindows (cls : α → Bool) (width : Bool → Nat) (text : List α) : List (List α) :=
  (runs cls text).flatMap (ofRun cls width)

theorem mem_windows {n : Nat} {run w : List α} : w ∈ windows n run ↔ w.length = n ∧ w <:+: run := by
  rw [windows, List.mem_map]
  constructor
  · intro ⟨k, hk, hw⟩
    rw [List.mem_range] at hk
    rw [← hw]
    constructor
    · rw [List.length_take, List.length_drop]
      omega
    · exact (List.take_prefix _ _).isInfix.trans (List.drop_suffix _ _).isInfix
  · intro ⟨hlen, s, t, hrun⟩
    refine ⟨s.length, ?_, ?_⟩
    · rw [List.mem_range, ← hrun, List.length_append, List.length_append, hlen]
      omega
    · rw [← hrun, List.append_assoc, List.drop_left, ← hlen, List.take_left]

/-- Neighbours of one class make one class throughout. -/
theorem all_of_isChain {cls : α → Bool} {c : α} {run : List α}
    (h : (c :: run).IsChain fun a b => (cls a == cls b) = true) : ∀ b ∈ c :: run, cls b = cls c := by
  induction run generalizing c with
  | nil =>
      intro b hb
      rw [List.mem_singleton.mp hb]
  | cons d run ih =>
      obtain ⟨hcd, htail⟩ := List.isChain_cons_cons.mp h
      intro b hb
      rcases List.mem_cons.mp hb with rfl | hmem
      · rfl
      · rw [ih htail b hmem, beq_iff_eq.mp hcd]

theorem isChain_of_all {cls : α → Bool} {k : Bool} {run : List α} (h : ∀ b ∈ run, cls b = k) :
    run.IsChain fun a b => (cls a == cls b) = true := by
  induction run with
  | nil => exact List.isChain_nil
  | cons c run ih =>
      refine List.isChain_cons.mpr ⟨fun d hd => ?_, ih fun b hb => h b (List.mem_cons_of_mem _ hb)⟩
      have hmem : d ∈ run := List.mem_of_mem_head? hd
      rw [h c List.mem_cons_self, h d (List.mem_cons_of_mem _ hmem), beq_self_eq_true]

/-- A connected stretch does not cross the border of two runs. -/
theorem infix_of_isChain {r : α → α → Bool} {w : List α} (hw : w ≠ [])
    (hchain : w.IsChain fun a b => r a b = true) {parts : List (List α)} (hne : [] ∉ parts)
    (hborder : parts.IsChain fun a b => ∃ ha hb, r (a.getLast ha) (b.head hb) = false)
    (h : w <:+: parts.flatten) : ∃ part ∈ parts, w <:+: part := by
  induction parts with
  | nil => exact absurd (List.infix_nil.mp h) hw
  | cons part parts ih =>
      rw [List.flatten_cons] at h
      have hparts : [] ∉ parts := fun hmem => hne (List.mem_cons_of_mem _ hmem)
      rcases List.infix_append_iff_ne_nil.mp h with hleft | hright | ⟨a, b, ha, hb, hab, hsuf, hpre⟩
      · exact ⟨part, List.mem_cons_self, hleft⟩
      · obtain ⟨other, hmem, hin⟩ := ih hparts hborder.tail hright
        exact ⟨other, List.mem_cons_of_mem _ hmem, hin⟩
      · exfalso
        -- the last symbol of this run and the first of the next are neighbours in `w`
        cases parts with
        | nil => exact hb (List.prefix_nil.mp hpre)
        | cons next parts =>
            obtain ⟨⟨hpart, hnext, hfalse⟩, -⟩ := List.isChain_cons_cons.mp hborder
            have hlast : part.getLast hpart = a.getLast ha := by
              obtain ⟨s, hs⟩ := hsuf
              have hsa : s ++ a ≠ [] := List.append_ne_nil_of_right_ne_nil s ha
              calc part.getLast hpart = (s ++ a).getLast hsa := by congr 1; exact hs.symm
                _ = a.getLast ha := List.getLast_append_of_ne_nil hsa ha
            have hhead : next.head hnext = b.head hb := by
              obtain ⟨t, ht⟩ := hpre
              have hflat : b.head? = (next ++ parts.flatten).head? := by
                rw [← List.flatten_cons, ← ht, List.head?_append_of_ne_nil b hb]
              rw [List.head?_append_of_ne_nil next hnext, List.head?_eq_some_head hb,
                List.head?_eq_some_head hnext] at hflat
              exact (Option.some.inj hflat).symm
            rw [hab, List.isChain_append] at hchain
            have htrue := hchain.2.2 (a.getLast ha) (List.getLast_mem_getLast? ha) (b.head hb)
              (List.head_mem_head? hb)
            rw [hlast, hhead, htrue] at hfalse
            cases hfalse

/-- The windows of a text are its stretches of one class that have the length of the class. -/
theorem mem_runWindows {cls : α → Bool} {width : Bool → Nat} (hwidth : ∀ k, 0 < width k)
    {text w : List α} :
    w ∈ runWindows cls width text ↔
      ∃ k, w.length = width k ∧ (∀ c ∈ w, cls c = k) ∧ w <:+: text := by
  rw [runWindows, List.mem_flatMap]
  constructor
  · intro ⟨run, hrun, hw⟩
    cases run with
    | nil => cases hw
    | cons c run =>
        obtain ⟨hlen, hin⟩ := mem_windows.mp hw
        have hall := all_of_isChain (List.isChain_of_mem_splitBy hrun)
        have htext : (c :: run) <:+: text := by
          have := List.infix_of_mem_flatten hrun
          rwa [runs, List.flatten_splitBy] at this
        exact ⟨cls c, hlen, fun b hb => hall b (hin.subset hb), hin.trans htext⟩
  · intro ⟨k, hlen, hall, hin⟩
    have hne : w ≠ [] := by
      intro h
      rw [h, List.length_nil] at hlen
      exact absurd hlen.symm (hwidth k).ne'
    have hflat : w <:+: (runs cls text).flatten := by rwa [runs, List.flatten_splitBy]
    obtain ⟨run, hrun, hw⟩ := infix_of_isChain hne (isChain_of_all hall)
      (List.nil_notMem_splitBy _ _)
      (List.isChain_getLast_head_splitBy (fun a b => cls a == cls b) text) hflat
    refine ⟨run, hrun, ?_⟩
    cases run with
    | nil => exact absurd (List.infix_nil.mp hw) hne
    | cons c run =>
        have hrunAll := all_of_isChain (List.isChain_of_mem_splitBy hrun)
        obtain ⟨b, w', rfl⟩ := List.exists_cons_of_ne_nil hne
        have hclass : cls c = k := by
          rw [← hall b List.mem_cons_self, hrunAll b (hw.subset List.mem_cons_self)]
        exact mem_windows.mpr ⟨by rw [hclass, hlen], hw⟩

/-- Every window of a stretch of the text is a window of the text. -/
theorem runWindows_subset {cls : α → Bool} {width : Bool → Nat} (hwidth : ∀ k, 0 < width k)
    {term text : List α} (h : term <:+: text) :
    runWindows cls width term ⊆ runWindows cls width text := by
  intro w hw
  obtain ⟨k, hlen, hall, hin⟩ := (mem_runWindows hwidth).mp hw
  exact (mem_runWindows hwidth).mpr ⟨k, hlen, hall, hin.trans h⟩

end TinyCortex.Windows
