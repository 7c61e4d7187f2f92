import Mathlib

/-! Clients with exclusive locks. What a client holds is read off from its state; a step of one client
takes only what it had or what was free. -/

namespace TinyCortex.Locks

variable {ι κ τ : Type*} {held : τ → List κ}

/-- Nobody has the lock. -/
def Free (held : τ → List κ) (clients : ι → τ) (lock : κ) : Prop := ∀ j, lock ∉ held (clients j)

/-- No two clients have the same lock. -/
def Exclusive (held : τ → List κ) (clients : ι → τ) : Prop :=
  ∀ i j lock, lock ∈ held (clients i) → lock ∈ held (clients j) → i = j

def Somewhere (p : τ → Prop) (clients : ι → τ) : Prop := ∃ j, p (clients j)

variable [DecidableEq ι] {clients : ι → τ} {i j : ι} {client : τ} {lock : κ}

theorem Exclusive.update (h : Exclusive held clients)
    (hnew : ∀ lock ∈ held client, lock ∈ held (clients i) ∨ Free held clients lock) :
    Exclusive held (Function.update clients i client) := by
  have hother (j : ι) (hne : j ≠ i) (lock : κ) (hj : lock ∈ held (clients j)) :
      lock ∉ held client := by
    intro hi
    rcases hnew lock hi with hmine | hfree
    · exact hne (h j i lock hj hmine)
    · exact hfree j hj
  intro a b lock ha hb
  by_cases hai : a = i
  · by_cases hbi : b = i
    · exact hai.trans hbi.symm
    · rw [hai, Function.update_self] at ha
      rw [Function.update_of_ne hbi] at hb
      exact absurd ha (hother b hbi lock hb)
  · rw [Function.update_of_ne hai] at ha
    by_cases hbi : b = i
    · rw [hbi, Function.update_self] at hb
      exact absurd hb (hother a hai lock ha)
    · rw [Function.update_of_ne hbi] at hb
      exact h a b lock ha hb

/-- A client that lets go of locks, or keeps what it has. -/
theorem Exclusive.release (h : Exclusive held clients) (hsub : held client ⊆ held (clients i)) :
    Exclusive held (Function.update clients i client) :=
  h.update fun _ hlock => Or.inl (hsub hlock)

section Somewhere

variable {p : τ → Prop}

theorem somewhere_update_iff (h : p client ↔ p (clients i)) :
    Somewhere p (Function.update clients i client) ↔ Somewhere p clients := by
  unfold Somewhere
  have hsame (j : ι) : p (Function.update clients i client j) ↔ p (clients j) := by
    by_cases hj : j = i
    · rw [hj, Function.update_self]
      exact h
    · rw [Function.update_of_ne hj]
  exact exists_congr hsame

theorem somewhere_update (h : p client) : Somewhere p (Function.update clients i client) := by
  refine ⟨i, ?_⟩
  rw [Function.update_self]
  exact h

/-- Who is in a state that takes a lock keeps the others out of it. -/
theorem Exclusive.not_somewhere_update (h : Exclusive held clients)
    (hlock : ∀ client, p client → lock ∈ held client) (hi : lock ∈ held (clients i))
    (hclient : ¬p client) : ¬Somewhere p (Function.update clients i client) := by
  intro hsomewhere
  obtain ⟨j, hj⟩ := hsomewhere
  by_cases hji : j = i
  · rw [hji, Function.update_self] at hj
    exact hclient hj
  · rw [Function.update_of_ne hji] at hj
    exact hji (h j i lock (hlock _ hj) hi)

theorem Exclusive.not_somewhere (h : Exclusive held clients)
    (hlock : ∀ client, p client → lock ∈ held client) (hi : lock ∈ held (clients i))
    (hclient : ¬p (clients i)) : ¬Somewhere p clients := by
  have hupdate := h.not_somewhere_update hlock hi hclient
  rw [Function.update_eq_self] at hupdate
  exact hupdate

omit [DecidableEq ι] in
theorem Free.not_somewhere (h : Free held clients lock)
    (hlock : ∀ client, p client → lock ∈ held client) : ¬Somewhere p clients := by
  intro hsomewhere
  obtain ⟨j, hj⟩ := hsomewhere
  exact h j (hlock _ hj)

end Somewhere

end TinyCortex.Locks

/-! Threads over a shared state, one step at a time. What a thread relies on survives the steps of the
others when it is stable under what their steps may do to the shared state. -/

namespace TinyCortex.Interleaving

variable {σ τ : Type*}

/-- The threads after a step of one of them: it goes on, or it is over. -/
def replace (i : Nat) (next : Option τ) (threads : List τ) : List τ :=
  match next with
  | some thread => threads.set i thread
  | none => threads.eraseIdx i

/-- What `rely` allows the others to do keeps the assertion of a thread. -/
def Stable (rely : σ → σ → Prop) (assertion : σ → τ → Prop) : Prop :=
  ∀ s s' thread, rely s s' → assertion s thread → assertion s' thread

variable {rely : σ → σ → Prop} {assertion : σ → τ → Prop} {s s' : σ} {threads : List τ} {i : Nat}
  {next : Option τ}

theorem mem_replace {thread : τ} (h : thread ∈ replace i next threads) :
    thread ∈ threads ∨ thread ∈ next := by
  cases next with
  | none => exact Or.inl (List.mem_of_mem_eraseIdx h)
  | some other =>
      rcases List.mem_or_eq_of_mem_set h with hmem | heq
      · exact Or.inl hmem
      · exact Or.inr (heq ▸ rfl)

/-- The assertions of all threads after a step of one of them. -/
theorem forall_replace (hstable : Stable rely assertion) (hrely : rely s s')
    (h : ∀ thread ∈ threads, assertion s thread) (hnext : ∀ thread ∈ next, assertion s' thread) :
    ∀ thread ∈ replace i next threads, assertion s' thread := by
  intro thread hmem
  rcases mem_replace hmem with hold | hnew
  · exact hstable s s' thread hrely (h thread hold)
  · exact hnext thread hnew

theorem forall_of_stable (hstable : Stable rely assertion) (hrely : rely s s')
    (h : ∀ thread ∈ threads, assertion s thread) : ∀ thread ∈ threads, assertion s' thread :=
  fun thread hmem => hstable s s' thread hrely (h thread hmem)

/-- How many threads are of a kind, after a step of one of them. -/
theorem countP_replace (next : Option τ) (p : τ → Bool) {thread : τ} (hthread : threads[i]? = some thread) :
    (replace i next threads).countP p + (if p thread then 1 else 0) =
      threads.countP p + (if next.any p then 1 else 0) := by
  induction threads generalizing i with
  | nil => cases hthread
  | cons first rest ih =>
      cases i with
      | zero =>
          obtain rfl := Option.some.inj hthread
          cases next with
          | none => simp [replace, List.countP_cons]
          | some other =>
              simp only [replace, List.set_cons_zero, List.countP_cons, Option.any_some]
              omega
      | succ i =>
          have hrest := ih (i := i) hthread
          cases next with
          | none =>
              simp only [replace, List.eraseIdx_cons_succ, List.countP_cons] at hrest ⊢
              omega
          | some other =>
              simp only [replace, List.set_cons_succ, List.countP_cons] at hrest ⊢
              omega

end TinyCortex.Interleaving

/-! Parties served one after the other, each of which reads and writes a part of the state of its own. `Agree k` says
that two states are the same to party `k`. -/

namespace TinyCortex.Independent

variable {σ ι κ ρ : Type*}

/-- The state after each has been served, and what each was answered. -/
def serveEach (serve : ι → σ → σ × ρ) : List ι → σ → σ × List ρ
  | [], s => (s, [])
  | i :: rest, s => ((serveEach serve rest (serve i s).1).1, (serve i s).2 :: (serveEach serve rest (serve i s).1).2)

/-- A party is served alike in states that are the same to it, and its service is nothing to the others. -/
structure Apart (key : ι → κ) (serve : ι → σ → σ × ρ) (Agree : κ → σ → σ → Prop) : Prop where
  other : ∀ i k s t, key i ≠ k → Agree k s t → Agree k s (serve i t).1
  own : ∀ i s t, Agree (key i) s t →
    (serve i t).2 = (serve i s).2 ∧ Agree (key i) (serve i s).1 (serve i t).1

variable {key : ι → κ} {serve : ι → σ → σ × ρ} {Agree : κ → σ → σ → Prop}

/-- Who is not served finds the state as it was. -/
theorem Apart.unserved (h : Apart key serve Agree) {k : κ} {s t : σ} {rest : List ι} (hk : k ∉ rest.map key)
    (hagree : Agree k s t) : Agree k s (serveEach serve rest t).1 := by
  induction rest generalizing t with
  | nil => exact hagree
  | cons i rest ih =>
      rw [List.map_cons, List.mem_cons, not_or] at hk
      exact ih hk.2 (h.other i k s t (Ne.symm hk.1) hagree)

/-- Who is served is answered, and finds the state, as if it had been the only one. -/
theorem Apart.served (h : Apart key serve Agree) {s t : σ} {parties : List ι} (hnodup : (parties.map key).Nodup)
    (hagree : ∀ i ∈ parties, Agree (key i) s t) :
    (serveEach serve parties t).2 = parties.map (fun i => (serve i s).2) ∧
      ∀ i ∈ parties, Agree (key i) (serve i s).1 (serveEach serve parties t).1 := by
  induction parties generalizing t with
  | nil => exact ⟨rfl, nofun⟩
  | cons i rest ih =>
      rw [List.map_cons, List.nodup_cons] at hnodup
      obtain ⟨hanswer, hself⟩ := h.own i s t (hagree i List.mem_cons_self)
      have hrest : ∀ j ∈ rest, Agree (key j) s (serve i t).1 := by
        intro j hj
        apply h.other i (key j) s t
        · intro hsame
          rw [hsame] at hnodup
          exact hnodup.1 (List.mem_map_of_mem hj)
        · exact hagree j (List.mem_cons_of_mem i hj)
      obtain ⟨hanswers, hothers⟩ := ih hnodup.2 hrest
      refine ⟨?_, fun j hj => ?_⟩
      · rw [serveEach, List.map_cons, hanswers, hanswer]
      · rw [serveEach]
        rcases List.mem_cons.mp hj with rfl | hj
        · exact h.unserved hnodup.1 hself
        · exact hothers j hj

end TinyCortex.Independent
