import Mathlib

/-! Deterministic labelled machines and the induction over their runs. Every choice the environment
makes (which worker moves next, what the clock shows, which identifier is minted) is part of the
label, so a run is a list of labels and a state is reachable exactly when some list leads to it. -/

namespace TinyCortex

/-- A start state and what each label does to a state. -/
structure Machine (σ α : Type*) where
  start : σ
  step : σ → α → σ

namespace Machine

variable {σ α : Type*} (m : Machine σ α)

/-- The state a run ends in. -/
def run (labels : List α) : σ := labels.foldl m.step m.start

@[simp] theorem run_nil : m.run [] = m.start := rfl

@[simp] theorem run_concat (labels : List α) (a : α) :
    m.run (labels ++ [a]) = m.step (m.run labels) a := by
  simp [run, List.foldl_append]

/-- Every step of the run is taken in a state where it is allowed. -/
def AllSteps (ok : σ → α → Prop) (labels : List α) : Prop :=
  ∀ done a rest, labels = done ++ a :: rest → ok (m.run done) a

/-- Every state the run passes through satisfies `P`. -/
def Throughout (P : σ → Prop) (labels : List α) : Prop :=
  ∀ done, done <+: labels → P (m.run done)

theorem allSteps_nil (ok : σ → α → Prop) : m.AllSteps ok [] := by
  intro done a rest h
  simp at h

theorem allSteps_concat {ok : σ → α → Prop} {labels : List α} {a : α} :
    m.AllSteps ok (labels ++ [a]) ↔ m.AllSteps ok labels ∧ ok (m.run labels) a := by
  constructor
  · intro h
    refine ⟨fun done b rest heq => h done b (rest ++ [a]) ?_, h labels a [] rfl⟩
    rw [heq, List.append_assoc, List.cons_append]
  · rintro ⟨hinit, hlast⟩ done b rest heq
    rcases List.eq_nil_or_concat' rest with rfl | ⟨rest', c, rfl⟩
    · obtain ⟨rfl, hba⟩ := List.append_inj' heq rfl
      obtain rfl : a = b := by simpa using hba
      exact hlast
    · have hsplit : labels ++ [a] = (done ++ b :: rest') ++ [c] := by
        rw [heq, List.append_assoc, List.cons_append]
      obtain ⟨hlabels, -⟩ := List.append_inj' hsplit rfl
      exact hinit done b rest' hlabels

theorem allSteps_iff_forall_mem {ok : α → Prop} {labels : List α} :
    m.AllSteps (fun _ a => ok a) labels ↔ ∀ a ∈ labels, ok a := by
  constructor
  · intro h a ha
    obtain ⟨done, rest, heq⟩ := List.append_of_mem ha
    exact h done a rest heq
  · intro h done a rest heq
    exact h a (heq ▸ List.mem_append_right _ List.mem_cons_self)

/-- Every step of the remaining labels is taken in a state where it is allowed. -/
def StepsFrom (ok : σ → α → Prop) : σ → List α → Prop
  | _, [] => True
  | s, a :: labels => ok s a ∧ StepsFrom ok (m.step s a) labels

instance StepsFrom.decidable {ok : σ → α → Prop} [∀ s a, Decidable (ok s a)] :
    ∀ s labels, Decidable (m.StepsFrom ok s labels)
  | _, [] => isTrue trivial
  | s, a :: labels =>
      have : Decidable (m.StepsFrom ok (m.step s a) labels) := StepsFrom.decidable _ _
      inferInstanceAs (Decidable (ok s a ∧ m.StepsFrom ok (m.step s a) labels))

theorem stepsFrom_append {ok : σ → α → Prop} {s : σ} {labels rest : List α} :
    m.StepsFrom ok s (labels ++ rest) ↔
      m.StepsFrom ok s labels ∧ m.StepsFrom ok (labels.foldl m.step s) rest := by
  induction labels generalizing s with
  | nil => simp [StepsFrom]
  | cons a labels ih => simp only [List.cons_append, StepsFrom, List.foldl_cons, ih, and_assoc]

/-- Allowed steps, read from the front: the form in which a concrete run is checked. -/
theorem allSteps_iff_stepsFrom {ok : σ → α → Prop} {labels : List α} :
    m.AllSteps ok labels ↔ m.StepsFrom ok m.start labels := by
  induction labels using List.reverseRecOn with
  | nil => exact iff_of_true (m.allSteps_nil ok) trivial
  | append_singleton labels a ih =>
      rw [allSteps_concat, ih, stepsFrom_append]
      simp only [StepsFrom, and_true, run]

theorem AllSteps.mono {ok ok' : σ → α → Prop} {labels : List α}
    (himp : ∀ s a, ok s a → ok' s a) (h : m.AllSteps ok labels) : m.AllSteps ok' labels :=
  fun done a rest heq => himp _ _ (h done a rest heq)

theorem AllSteps.of_prefix {ok : σ → α → Prop} {done labels : List α}
    (h : m.AllSteps ok labels) (hpre : done <+: labels) : m.AllSteps ok done := by
  obtain ⟨rest, rfl⟩ := hpre
  intro before a after heq
  refine h before a (after ++ rest) ?_
  rw [heq, List.append_assoc, List.cons_append]

/-- An invariant that every allowed step keeps holds at the end of every run of allowed steps. -/
theorem invariant_of_steps {Inv : σ → Prop} {ok : σ → α → Prop} (hstart : Inv m.start)
    (hstep : ∀ s a, Inv s → ok s a → Inv (m.step s a)) {labels : List α}
    (hok : m.AllSteps ok labels) : Inv (m.run labels) := by
  induction labels using List.reverseRecOn with
  | nil => exact hstart
  | append_singleton labels a ih =>
      obtain ⟨hinit, hlast⟩ := m.allSteps_concat.mp hok
      rw [run_concat]
      exact hstep _ _ (ih hinit) hlast

/-- An invariant that every step keeps holds at the end of every run. -/
theorem invariant {Inv : σ → Prop} (hstart : Inv m.start)
    (hstep : ∀ s a, Inv s → Inv (m.step s a)) (labels : List α) : Inv (m.run labels) :=
  have hall : m.AllSteps (fun _ _ => True) labels := fun _ _ _ _ => trivial
  m.invariant_of_steps hstart (fun s a h _ => hstep s a h) hall

theorem throughout_of_steps {Inv P : σ → Prop} {ok : σ → α → Prop} (hstart : Inv m.start)
    (hstep : ∀ s a, Inv s → ok s a → Inv (m.step s a)) (hsafe : ∀ s, Inv s → P s)
    {labels : List α} (hok : m.AllSteps ok labels) : m.Throughout P labels :=
  fun _ hpre => hsafe _ (m.invariant_of_steps hstart hstep (AllSteps.of_prefix m hok hpre))

/-- A run is safe throughout exactly when all its steps are allowed, provided allowed steps keep an
invariant that implies safety and a step that is not allowed breaks safety at once. -/
theorem throughout_iff {Inv P : σ → Prop} {ok : σ → α → Prop} (hstart : Inv m.start)
    (hstep : ∀ s a, Inv s → ok s a → Inv (m.step s a)) (hsafe : ∀ s, Inv s → P s)
    (hbreak : ∀ s a, Inv s → ¬ok s a → ¬P (m.step s a)) (labels : List α) :
    m.Throughout P labels ↔ m.AllSteps ok labels := by
  refine ⟨?_, m.throughout_of_steps hstart hstep hsafe⟩
  induction labels using List.reverseRecOn with
  | nil => exact fun _ => m.allSteps_nil ok
  | append_singleton labels a ih =>
      intro hsafeAll
      have hok : m.AllSteps ok labels :=
        ih fun done hpre => hsafeAll done (hpre.trans (List.prefix_append _ _))
      refine m.allSteps_concat.mpr ⟨hok, ?_⟩
      by_contra hbad
      refine hbreak _ a (m.invariant_of_steps hstart hstep hok) hbad ?_
      rw [← run_concat]
      exact hsafeAll _ List.prefix_rfl

/-- A state property holds throughout when it holds at the start and after every step. -/
theorem throughout_iff_allSteps {P : σ → Prop} {labels : List α} :
    m.Throughout P labels ↔ P m.start ∧ m.AllSteps (fun s a => P (m.step s a)) labels := by
  constructor
  · intro h
    refine ⟨h [] (List.nil_prefix), fun done a rest heq => ?_⟩
    dsimp only
    rw [← run_concat]
    refine h (done ++ [a]) ⟨rest, ?_⟩
    rw [heq, List.append_assoc, List.singleton_append]
  · rintro ⟨hstart, hsteps⟩ done hpre
    rcases List.eq_nil_or_concat' done with rfl | ⟨before, a, rfl⟩
    · exact hstart
    · obtain ⟨rest, hrest⟩ := hpre
      rw [run_concat]
      refine hsteps before a rest ?_
      rw [← hrest, List.append_assoc, List.singleton_append]

/-- Along a run of guarded steps, every step has a property exactly when every step is allowed,
provided allowed steps have it and keep an invariant under which the others do not. -/
theorem allSteps_iff_of_guard (Inv : σ → Prop) {guard ok Q : σ → α → Prop} (hstart : Inv m.start)
    (hstep : ∀ s a, Inv s → guard s a → ok s a → Inv (m.step s a) ∧ Q s a)
    (hbreak : ∀ s a, Inv s → guard s a → ¬ok s a → ¬Q s a) {labels : List α}
    (hguard : m.AllSteps guard labels) : m.AllSteps Q labels ↔ m.AllSteps ok labels := by
  have hinv : ∀ {done}, m.AllSteps guard done → m.AllSteps ok done → Inv (m.run done) := by
    intro done hg hok
    have hboth : m.AllSteps (fun s a => guard s a ∧ ok s a) done :=
      fun before a rest heq => ⟨hg before a rest heq, hok before a rest heq⟩
    exact m.invariant_of_steps hstart (fun s a h hga => (hstep s a h hga.1 hga.2).1) hboth
  induction labels using List.reverseRecOn with
  | nil => exact iff_of_true (m.allSteps_nil Q) (m.allSteps_nil ok)
  | append_singleton labels a ih =>
      obtain ⟨hinit, hlast⟩ := m.allSteps_concat.mp hguard
      have hsame : m.AllSteps ok labels → (Q (m.run labels) a ↔ ok (m.run labels) a) := by
        intro hok
        refine ⟨fun hq => ?_, fun ha => (hstep _ a (hinv hinit hok) hlast ha).2⟩
        by_contra hbad
        exact hbreak _ a (hinv hinit hok) hlast hbad hq
      have hih := ih hinit
      constructor
      · intro h
        obtain ⟨hq, hqa⟩ := m.allSteps_concat.mp h
        have hok := hih.mp hq
        exact m.allSteps_concat.mpr ⟨hok, (hsame hok).mp hqa⟩
      · intro h
        obtain ⟨hok, ha⟩ := m.allSteps_concat.mp h
        exact m.allSteps_concat.mpr ⟨hih.mpr hok, (hsame hok).mpr ha⟩

end Machine
end TinyCortex
