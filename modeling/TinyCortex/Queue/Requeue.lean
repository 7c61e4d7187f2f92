import TinyCortex.Queue.RowStep

/-! What a requeue makes of the table (`queue/store_settle.rs`): the newest failed row of each key that no live row
holds is revived, the older ones are cancelled. -/

namespace TinyCortex.Queue

open Table

/-! ### The order of the candidates -/

/-- Where a row stands among the candidates, the newest highest. -/
def JobRow.age (row : JobRow) : Int ×ₗ Int ×ₗ String :=
  toLex (row.completedAtMs.getD row.createdAtMs, toLex (row.createdAtMs, row.id))

theorem JobRow.newerFirst_iff {a b : JobRow} : a.newerFirst b = true ↔ b.age ≤ a.age := by
  simp only [newerFirst, age, Prod.Lex.toLex_le_toLex, Bool.or_eq_true, Bool.and_eq_true, decide_eq_true_eq, beq_iff_eq]
  constructor
  · rintro (h | ⟨heq, h | ⟨heq', h⟩⟩)
    · exact Or.inl h
    · exact Or.inr ⟨heq.symm, Or.inl h⟩
    · exact Or.inr ⟨heq.symm, Or.inr ⟨heq'.symm, h⟩⟩
  · rintro (h | ⟨heq, h | ⟨heq', h⟩⟩)
    · exact Or.inl h
    · exact Or.inr ⟨heq.symm, Or.inl h⟩
    · exact Or.inr ⟨heq.symm, Or.inr ⟨heq'.symm, h⟩⟩

theorem JobRow.id_of_age {a b : JobRow} (h : a.age = b.age) : a.id = b.id := by
  simp only [age, toLex_inj, Prod.mk.injEq] at h
  exact h.2.2

/-- The candidates of a requeue, newest first. -/
def candidates (predicate : JobRow → Bool) (jobs : List JobRow) : List JobRow :=
  (jobs.filter predicate).insertionSort fun a b => a.newerFirst b

theorem mem_candidates {predicate : JobRow → Bool} {jobs : List JobRow} {row : JobRow} :
    row ∈ candidates predicate jobs ↔ row ∈ jobs ∧ predicate row = true := by
  rw [candidates, List.mem_insertionSort, List.mem_filter]

theorem nodup_candidates {predicate : JobRow → Bool} {jobs : List JobRow} (hids : (jobs.map JobRow.id).Nodup) :
    ((candidates predicate jobs).map JobRow.id).Nodup :=
  ((List.perm_insertionSort _ (jobs.filter predicate)).map JobRow.id).nodup_iff.mpr
    (hids.sublist (List.filter_sublist.map _))

theorem pairwise_candidates {predicate : JobRow → Bool} {jobs : List JobRow} (hids : (jobs.map JobRow.id).Nodup) :
    (candidates predicate jobs).Pairwise fun a b => b.age < a.age := by
  have : Std.Total fun a b : JobRow => a.newerFirst b = true :=
    ⟨fun a b => by simp only [JobRow.newerFirst_iff]; exact le_total _ _⟩
  have : IsTrans _ fun a b : JobRow => a.newerFirst b = true :=
    ⟨fun a b c => by simp only [JobRow.newerFirst_iff]; exact fun hab hbc => hbc.trans hab⟩
  have hsorted : (candidates predicate jobs).Pairwise fun a b => a.newerFirst b = true :=
    List.pairwise_insertionSort _ _
  have hdistinct : (candidates predicate jobs).Pairwise fun a b => a.id ≠ b.id :=
    List.pairwise_map.mp (nodup_candidates hids)
  refine (hsorted.and hdistinct).imp fun hboth => ?_
  exact lt_of_le_of_ne (JobRow.newerFirst_iff.mp hboth.1) fun heq => hboth.2 (JobRow.id_of_age heq).symm

/-! ### The plan -/

def JobRow.candidate (row : JobRow) : String × Option String := (row.id, row.dedupeKey)

section Plan

variable {active claimed : List String} {rows : List JobRow} {row : JobRow}

theorem toRequeue_sublist (active claimed : List String) (candidates : List (String × Option String)) :
    (planRequeue active claimed candidates).toRequeue.Sublist candidates := by
  induction candidates generalizing claimed with
  | nil => exact List.Sublist.refl _
  | cons candidate rest ih =>
      obtain ⟨id, key⟩ := candidate
      cases key with
      | none => exact (ih claimed).cons_cons _
      | some key =>
          unfold planRequeue
          split_ifs
          · exact (ih claimed).cons _
          · exact (ih claimed).cons _
          · exact (ih (key :: claimed)).cons_cons _

theorem id_not_mem_toRequeue (claimed : List String) (hnew : row.id ∉ rows.map JobRow.id) :
    row.id ∉ (planRequeue active claimed (rows.map JobRow.candidate)).toRequeue.map Prod.fst := by
  intro hmem
  have hsub := ((toRequeue_sublist active claimed (rows.map JobRow.candidate)).map Prod.fst).subset hmem
  rw [List.map_map] at hsub
  exact hnew hsub

/-- The rows to revive are those without a key, and the newest of each key that is neither held nor claimed. -/
theorem mem_toRequeue_iff (hids : (rows.map JobRow.id).Nodup) (hsorted : rows.Pairwise fun a b => b.age < a.age)
    (hrow : row ∈ rows) :
    row.id ∈ (planRequeue active claimed (rows.map JobRow.candidate)).toRequeue.map Prod.fst ↔
      ∀ key, row.dedupeKey = some key → key ∉ active ∧ key ∉ claimed ∧
        ∀ other ∈ rows, other.dedupeKey = some key → other.age ≤ row.age := by
  induction rows generalizing claimed with
  | nil => cases hrow
  | cons first rest ih =>
      obtain ⟨hnew, hids'⟩ := List.nodup_cons.mp hids
      obtain ⟨hfirst, hsorted'⟩ := List.pairwise_cons.mp hsorted
      have hstep (claimed : List String) (hmem : row ∈ rest) := @ih claimed hids' hsorted' hmem
      have hne (hmem : row ∈ rest) : row.id ≠ first.id := fun heq => hnew (heq ▸ List.mem_map_of_mem hmem)
      rw [List.map_cons, JobRow.candidate]
      cases hkey : first.dedupeKey with
      | none =>
          rw [planRequeue]
          dsimp only
          rw [List.map_cons, List.mem_cons]
          rcases List.mem_cons.mp hrow with rfl | hmem
          · refine iff_of_true (Or.inl rfl) fun key heq => ?_
            rw [hkey] at heq
            cases heq
          · rw [or_iff_right (hne hmem), hstep claimed hmem]
            simp only [List.forall_mem_cons, hkey, reduceCtorEq, false_implies, true_and]
      | some k =>
          unfold planRequeue
          by_cases hactive : k ∈ active
          · rw [if_pos hactive]
            rcases List.mem_cons.mp hrow with rfl | hmem
            · exact iff_of_false (id_not_mem_toRequeue claimed hnew) fun h => (h k hkey).1 hactive
            · rw [hstep claimed hmem]
              refine forall₂_congr fun key hrowKey => and_congr_right fun hfree => and_congr_right fun _ => ?_
              rw [List.forall_mem_cons, hkey, Option.some.injEq, and_iff_right]
              exact fun heq => absurd (heq ▸ hactive) hfree
          · rw [if_neg hactive]
            by_cases hclaimed : k ∈ claimed
            · rw [if_pos hclaimed]
              rcases List.mem_cons.mp hrow with rfl | hmem
              · exact iff_of_false (id_not_mem_toRequeue claimed hnew) fun h => (h k hkey).2.1 hclaimed
              · show row.id ∈ (planRequeue active claimed (rest.map JobRow.candidate)).toRequeue.map Prod.fst ↔ _
                rw [hstep claimed hmem]
                refine forall₂_congr fun key hrowKey => and_congr_right fun _ => and_congr_right fun hfree => ?_
                rw [List.forall_mem_cons, hkey, Option.some.injEq, and_iff_right]
                exact fun heq => absurd (heq ▸ hclaimed) hfree
            · rw [if_neg hclaimed]
              dsimp only
              rw [List.map_cons, List.mem_cons]
              rcases List.mem_cons.mp hrow with rfl | hmem
              · refine iff_of_true (Or.inl rfl) fun key heq => ?_
                obtain rfl := Option.some.inj (hkey.symm.trans heq)
                refine ⟨hactive, hclaimed, fun other hother _ => ?_⟩
                rcases List.mem_cons.mp hother with rfl | hlater
                · exact le_rfl
                · exact (hfirst other hlater).le
              · rw [or_iff_right (hne hmem), hstep (k :: claimed) hmem]
                refine forall₂_congr fun key hrowKey => and_congr_right fun _ => ?_
                rw [List.mem_cons, not_or, List.forall_mem_cons, hkey, Option.some.injEq]
                constructor
                · intro h
                  exact ⟨h.1.2, fun heq => absurd heq.symm h.1.1, h.2⟩
                · intro h
                  exact ⟨⟨fun heq => absurd (hfirst row hmem) (h.2.1 heq.symm).not_gt, h.1⟩, h.2.2⟩

/-- The rows to cancel are the others whose key is not held. -/
theorem mem_toCancel_iff (hids : (rows.map JobRow.id).Nodup) (hrow : row ∈ rows) :
    row.id ∈ (planRequeue active claimed (rows.map JobRow.candidate)).toCancel ↔
      row.id ∉ (planRequeue active claimed (rows.map JobRow.candidate)).toRequeue.map Prod.fst ∧
        ∃ key, row.dedupeKey = some key ∧ key ∉ active := by
  induction rows generalizing claimed with
  | nil => cases hrow
  | cons first rest ih =>
      obtain ⟨hnew, hids'⟩ := List.nodup_cons.mp hids
      have hstep (claimed : List String) (hmem : row ∈ rest) := @ih claimed hids' hmem
      have hne (hmem : row ∈ rest) : row.id ≠ first.id := fun heq => hnew (heq ▸ List.mem_map_of_mem hmem)
      have hlater (claimed : List String) :
          first.id ∉ (planRequeue active claimed (rest.map JobRow.candidate)).toCancel := by
        intro hmem
        have hdistinct : ((rest.map JobRow.candidate).map Prod.fst).Nodup := by
          rw [List.map_map]
          exact hids'
        have hsub := (planRequeue_disjoint active claimed hdistinct).2.1 _ hmem
        rw [List.map_map] at hsub
        exact hnew hsub
      rw [List.map_cons, JobRow.candidate]
      cases hkey : first.dedupeKey with
      | none =>
          rw [planRequeue]
          dsimp only
          rw [List.map_cons, List.mem_cons]
          rcases List.mem_cons.mp hrow with rfl | hmem
          · exact iff_of_false (hlater claimed) fun h => h.1 (Or.inl rfl)
          · rw [or_iff_right (hne hmem), hstep claimed hmem]
      | some k =>
          unfold planRequeue
          by_cases hactive : k ∈ active
          · rw [if_pos hactive]
            rcases List.mem_cons.mp hrow with rfl | hmem
            · refine iff_of_false (hlater claimed) fun h => ?_
              obtain ⟨key, hrowKey, hfree⟩ := h.2
              obtain rfl := Option.some.inj (hkey.symm.trans hrowKey)
              exact hfree hactive
            · exact hstep claimed hmem
          · rw [if_neg hactive]
            by_cases hclaimed : k ∈ claimed
            · rw [if_pos hclaimed]
              dsimp only
              rw [List.mem_cons]
              rcases List.mem_cons.mp hrow with rfl | hmem
              · exact iff_of_true (Or.inl rfl) ⟨id_not_mem_toRequeue claimed hnew, k, hkey, hactive⟩
              · rw [or_iff_right (hne hmem), hstep claimed hmem]
            · rw [if_neg hclaimed]
              dsimp only
              rw [List.map_cons, List.mem_cons]
              rcases List.mem_cons.mp hrow with rfl | hmem
              · exact iff_of_false (hlater (k :: claimed)) fun h => h.1 (Or.inl rfl)
              · rw [or_iff_right (hne hmem), hstep (k :: claimed) hmem]

end Plan

/-! ### The table -/

theorem countP_update {f : JobRow → JobRow} (hid : ∀ row, (f row).id = row.id) {id : String} {ids : List String}
    (hnew : id ∉ ids) (jobs : List JobRow) :
    (jobs.countP fun row => row.id == id) +
        ((update (fun row => row.id == id) f jobs).countP fun row => decide (row.id ∈ ids)) =
      jobs.countP fun row => decide (row.id ∈ id :: ids) := by
  rw [update, List.countP_map]
  induction jobs with
  | nil => rfl
  | cons row jobs ih =>
      simp only [List.countP_cons, Function.comp_apply, List.mem_cons, beq_iff_eq] at ih ⊢
      by_cases hrow : row.id = id
      · subst hrow
        simp only [if_true, hid, hnew, decide_false, Bool.false_eq_true, if_false, true_or, decide_true]
        omega
      · simp only [hrow, if_false, false_or]
        omega

/-- The rows changed by one update for each of some distinct ids. -/
theorem updateEach_count {f : JobRow → JobRow} {ids : List String} {jobs next : List JobRow} {n : Nat}
    (h : updateEach f ids jobs = .ok (next, n)) (hid : ∀ row, (f row).id = row.id) (hids : ids.Nodup) :
    n = jobs.countP fun row => decide (row.id ∈ ids) := by
  induction ids generalizing jobs n with
  | nil =>
      obtain ⟨rfl, rfl⟩ := Prod.mk.inj (Except.ok.inj h)
      simp
  | cons id ids ih =>
      obtain ⟨hnew, hids'⟩ := List.nodup_cons.mp hids
      rw [updateEach] at h
      obtain ⟨⟨mid, k⟩, hmid, h⟩ := Fallible.bind_ok_iff.mp h
      obtain ⟨⟨last, m⟩, hlast, h⟩ := Fallible.bind_ok_iff.mp h
      obtain ⟨rfl, rfl⟩ := Prod.mk.inj (Except.ok.inj h)
      obtain ⟨-, rfl, rfl⟩ := updateJobs_ok_iff.mp hmid
      rw [ih hlast hids', countP_update hid hnew]

/-- A row that a requeue revives: it matches, and its key, if it has one, is held by no live row and by no newer row
that matches. -/
def Revived (predicate : JobRow → Bool) (jobs : List JobRow) (row : JobRow) : Prop :=
  predicate row = true ∧ ∀ key, row.dedupeKey = some key → key ∉ activeKeys jobs ∧
    ∀ other ∈ jobs, predicate other = true → other.dedupeKey = some key → row.newerFirst other = true

/-- A row that a requeue cancels: it matches, and a newer one with its key is revived. -/
def Outdated (predicate : JobRow → Bool) (jobs : List JobRow) (row : JobRow) : Prop :=
  predicate row = true ∧ ∃ key, row.dedupeKey = some key ∧ key ∉ activeKeys jobs ∧
    ∃ other ∈ jobs, predicate other = true ∧ other.dedupeKey = some key ∧ row.newerFirst other = false

instance (predicate : JobRow → Bool) (jobs : List JobRow) (row : JobRow) : Decidable (Revived predicate jobs row) :=
  decidable_of_iff (predicate row = true ∧ ∀ key ∈ row.dedupeKey, key ∉ activeKeys jobs ∧
    ∀ other ∈ jobs, predicate other = true → other.dedupeKey = some key → row.newerFirst other = true) Iff.rfl

instance (predicate : JobRow → Bool) (jobs : List JobRow) (row : JobRow) : Decidable (Outdated predicate jobs row) :=
  decidable_of_iff (predicate row = true ∧ ∃ key ∈ row.dedupeKey, key ∉ activeKeys jobs ∧
    ∃ other ∈ jobs, predicate other = true ∧ other.dedupeKey = some key ∧ row.newerFirst other = false) Iff.rfl

/-- The plan of a requeue. -/
def requeuePlan (predicate : JobRow → Bool) (jobs : List JobRow) : RequeuePlan :=
  planRequeue (activeKeys jobs) [] ((candidates predicate jobs).map JobRow.candidate)

/-- The table behind a requeue. -/
def requeued (predicate : JobRow → Bool) (nowMs : Int) (jobs : List JobRow) : List JobRow :=
  jobs.map fun row =>
    if Revived predicate jobs row then row.requeue nowMs
    else if Outdated predicate jobs row then row.cancel nowMs
    else row

section Table

variable {predicate : JobRow → Bool} {nowMs : Int} {jobs : List JobRow} {row : JobRow}

theorem revived_iff (hids : (jobs.map JobRow.id).Nodup) (hrow : row ∈ jobs) :
    row.id ∈ (requeuePlan predicate jobs).toRequeue.map Prod.fst ↔ Revived predicate jobs row := by
  rw [requeuePlan]
  by_cases hmatch : predicate row = true
  · rw [mem_toRequeue_iff (nodup_candidates hids) (pairwise_candidates hids) (mem_candidates.mpr ⟨hrow, hmatch⟩), Revived,
      and_iff_right hmatch]
    refine forall₂_congr fun key _ => and_congr_right fun _ => ?_
    rw [and_iff_right List.not_mem_nil]
    constructor
    · intro h other hother hp hkey
      exact JobRow.newerFirst_iff.mpr (h other (mem_candidates.mpr ⟨hother, hp⟩) hkey)
    · intro h other hother hkey
      obtain ⟨hmem, hp⟩ := mem_candidates.mp hother
      exact JobRow.newerFirst_iff.mp (h other hmem hp hkey)
  · refine iff_of_false (id_not_mem_toRequeue [] fun hmem => ?_) fun h => hmatch h.1
    obtain ⟨other, hother, heq⟩ := List.mem_map.mp hmem
    obtain ⟨hmem', hp⟩ := mem_candidates.mp hother
    obtain rfl := eq_of_pk_eq hids hmem' hrow heq
    exact hmatch hp

theorem outdated_iff (hids : (jobs.map JobRow.id).Nodup) (hrow : row ∈ jobs) :
    row.id ∈ (requeuePlan predicate jobs).toCancel ↔ Outdated predicate jobs row := by
  by_cases hmatch : predicate row = true
  · rw [requeuePlan, mem_toCancel_iff (nodup_candidates hids) (mem_candidates.mpr ⟨hrow, hmatch⟩), ← requeuePlan,
      revived_iff hids hrow, Revived, Outdated, and_iff_right hmatch, and_iff_right hmatch]
    constructor
    · intro h
      obtain ⟨hnot, key, hkey, hfree⟩ := h
      refine ⟨key, hkey, hfree, ?_⟩
      by_contra hnone
      refine hnot fun key' hkey' => ?_
      obtain rfl := Option.some.inj (hkey.symm.trans hkey')
      refine ⟨hfree, fun other hother hp hsame => ?_⟩
      by_contra hnewer
      exact hnone ⟨other, hother, hp, hsame, Bool.not_eq_true _ ▸ hnewer⟩
    · intro h
      obtain ⟨key, hkey, hfree, other, hother, hp, hsame, holder⟩ := h
      refine ⟨fun hall => ?_, key, hkey, hfree⟩
      rw [(hall key hkey).2 other hother hp hsame] at holder
      cases holder
  · refine iff_of_false (fun hmem => ?_) fun h => hmatch h.1
    have hdistinct : (((candidates predicate jobs).map JobRow.candidate).map Prod.fst).Nodup := by
      rw [List.map_map]
      exact nodup_candidates hids
    have hsub := (planRequeue_disjoint (activeKeys jobs) [] hdistinct).2.1 _ hmem
    rw [List.map_map] at hsub
    obtain ⟨other, hother, heq⟩ := List.mem_map.mp hsub
    obtain ⟨hmem', hp⟩ := mem_candidates.mp hother
    obtain rfl := eq_of_pk_eq hids hmem' hrow heq
    exact hmatch hp

theorem Outdated.not_revived (h : Outdated predicate jobs row) : ¬Revived predicate jobs row := by
  obtain ⟨_, key, hkey, _, other, hother, hp, hsame, holder⟩ := h
  intro hrevived
  rw [(hrevived.2 key hkey).2 other hother hp hsame] at holder
  cases holder

/-- What the transaction does to the table, and what it returns. -/
theorem requeueFailedWhere_eq (predicate : JobRow → Bool) (nowMs : Int) (hv : TableValid jobs) :
    requeueFailedWhere predicate nowMs jobs =
      .ok (requeued predicate nowMs jobs, jobs.countP fun row => decide (Revived predicate jobs row)) := by
  obtain ⟨⟨next, n⟩, hok⟩ := requeueFailedWhere_ok predicate nowMs hv
  obtain ⟨⟨mid, k⟩, hcancel, hrequeue⟩ : ∃ cancelled,
      updateEach (·.cancel nowMs) (requeuePlan predicate jobs).toCancel jobs = .ok cancelled ∧
        updateEach (·.requeue nowMs) ((requeuePlan predicate jobs).toRequeue.map Prod.fst) cancelled.1 = .ok (next, n) :=
    Fallible.bind_ok_iff.mp hok
  have hcancelled := updateEach_map hcancel (fun _ => rfl) fun _ => rfl
  have hmapped := updateEach_map hrequeue (fun _ => rfl) fun _ => rfl
  have hcount := updateEach_count hrequeue (fun _ => rfl) (by
    refine List.Nodup.sublist ((toRequeue_sublist _ _ _).map Prod.fst) ?_
    rw [List.map_map]
    exact nodup_candidates hv.ids)
  have hid (row : JobRow) :
      (if row.id ∈ (requeuePlan predicate jobs).toCancel then row.cancel nowMs else row).id = row.id := by
    split_ifs <;> rfl
  rw [hok, hmapped, hcount, hcancelled]
  refine congrArg Except.ok (Prod.ext ?_ ?_)
  · rw [requeued, List.map_map]
    refine List.map_congr_left fun row hrow => ?_
    dsimp only [Function.comp]
    rw [hid]
    simp only [revived_iff hv.ids hrow, outdated_iff hv.ids hrow]
    by_cases houtdated : Outdated predicate jobs row
    · rw [if_neg houtdated.not_revived, if_neg houtdated.not_revived]
    · simp only [if_neg houtdated]
  · dsimp only
    rw [List.countP_map]
    refine List.countP_congr fun row hrow => ?_
    dsimp only [Function.comp]
    rw [hid, decide_eq_true_iff, decide_eq_true_iff]
    exact revived_iff hv.ids hrow

theorem Revived.matches (h : Revived predicate jobs row) : predicate row = true := h.1

theorem Outdated.matches (h : Outdated predicate jobs row) : predicate row = true := h.1

/-- A live row with its key keeps a row as it is. -/
theorem kept_of_active {key : String} (hkey : row.dedupeKey = some key) (hactive : key ∈ activeKeys jobs) :
    ¬Revived predicate jobs row ∧ ¬Outdated predicate jobs row := by
  refine ⟨fun h => (h.2 key hkey).1 hactive, fun h => ?_⟩
  obtain ⟨_, other, hother, hfree, _⟩ := h
  obtain rfl := Option.some.inj (hkey.symm.trans hother)
  exact hfree hactive

/-- Where no live row has the key, a row that matches is revived or cancelled. -/
theorem revived_or_outdated {key : String} (hmatch : predicate row = true) (hkey : row.dedupeKey = some key)
    (hfree : key ∉ activeKeys jobs) : Revived predicate jobs row ∨ Outdated predicate jobs row := by
  by_cases hnewer : ∀ other ∈ jobs, predicate other = true → other.dedupeKey = some key → row.newerFirst other = true
  · left
    refine ⟨hmatch, fun key' hkey' => ?_⟩
    obtain rfl := Option.some.inj (hkey.symm.trans hkey')
    exact ⟨hfree, hnewer⟩
  · right
    refine ⟨hmatch, key, hkey, hfree, ?_⟩
    by_contra hnone
    refine hnewer fun other hother hp hsame => ?_
    by_contra holder
    exact hnone ⟨other, hother, hp, hsame, Bool.eq_false_iff.mpr holder⟩

/-- One row of each key that waits is revived. -/
theorem existsUnique_revived (hids : (jobs.map JobRow.id).Nodup) {key : String} (hfree : key ∉ activeKeys jobs)
    (hrow : row ∈ jobs) (hmatch : predicate row = true) (hkey : row.dedupeKey = some key) :
    ∃! newest, newest ∈ jobs ∧ newest.dedupeKey = some key ∧ Revived predicate jobs newest := by
  have hmem : row ∈ (candidates predicate jobs).filter fun other => other.dedupeKey = some key :=
    List.mem_filter.mpr ⟨mem_candidates.mpr ⟨hrow, hmatch⟩, decide_eq_true hkey⟩
  have hsorted : ((candidates predicate jobs).filter fun other => other.dedupeKey = some key).Pairwise
      fun a b => b.age < a.age := (pairwise_candidates hids).filter _
  have hwaiting : ∀ other, other ∈ ((candidates predicate jobs).filter fun other => other.dedupeKey = some key) ↔
      (other ∈ jobs ∧ predicate other = true) ∧ other.dedupeKey = some key := by
    intro other
    rw [List.mem_filter, mem_candidates, decide_eq_true_iff]
  cases hlist : (candidates predicate jobs).filter fun other => other.dedupeKey = some key with
  | nil =>
      rw [hlist] at hmem
      cases hmem
  | cons newest rest =>
      rw [hlist] at hsorted hwaiting
      obtain ⟨⟨hnewest, hp⟩, hsame⟩ := (hwaiting newest).mp List.mem_cons_self
      refine ⟨newest, ⟨hnewest, hsame, hp, fun key' hkey' => ?_⟩, fun other hother => ?_⟩
      · obtain rfl := Option.some.inj (hsame.symm.trans hkey')
        refine ⟨hfree, fun other hother hpo hkeyo => JobRow.newerFirst_iff.mpr ?_⟩
        rcases List.mem_cons.mp ((hwaiting other).mpr ⟨⟨hother, hpo⟩, hkeyo⟩) with rfl | hlater
        · exact le_rfl
        · exact ((List.pairwise_cons.mp hsorted).1 other hlater).le
      · obtain ⟨hjobs, hkeyo, hrevived⟩ := hother
        have hle := JobRow.newerFirst_iff.mp ((hrevived.2 key hkeyo).2 newest hnewest hp hsame)
        rcases List.mem_cons.mp ((hwaiting other).mpr ⟨⟨hjobs, hrevived.1⟩, hkeyo⟩) with heq | hlater
        · exact heq
        · exact absurd ((List.pairwise_cons.mp hsorted).1 other hlater) hle.not_gt

theorem activeKeys_requeued (hfailed : ∀ row, predicate row = true → row.status = .failed) :
    activeKeys jobs ⊆ activeKeys (requeued predicate nowMs jobs) := by
  intro key hkey
  obtain ⟨row, hrow, hactive⟩ := mem_keys.mp hkey
  refine mem_keys.mpr ⟨row, List.mem_map.mpr ⟨row, hrow, ?_⟩, hactive⟩
  have hlive : predicate row ≠ true := by
    intro hmatch
    rw [JobRow.activeKey, hfailed row hmatch] at hactive
    cases hactive
  rw [if_neg fun h : Revived predicate jobs row => hlive h.matches,
    if_neg fun h : Outdated predicate jobs row => hlive h.matches]

/-- Behind a requeue there is nothing left to revive or to cancel. -/
theorem kept_requeued (hfailed : ∀ row, predicate row = true → row.status = .failed)
    (hrow : row ∈ requeued predicate nowMs jobs) :
    ¬Revived predicate (requeued predicate nowMs jobs) row ∧ ¬Outdated predicate (requeued predicate nowMs jobs) row := by
  by_cases hmatch : predicate row = true
  · obtain ⟨old, hold, heq⟩ := List.mem_map.mp hrow
    have hstatus := hfailed row hmatch
    split_ifs at heq with hrevived houtdated
    · rw [← heq] at hstatus
      cases hstatus
    · rw [← heq] at hstatus
      cases hstatus
    · obtain rfl := heq
      cases hkey : old.dedupeKey with
      | none => exact absurd ⟨hmatch, fun key heq => by rw [hkey] at heq; cases heq⟩ hrevived
      | some key =>
          have hactive : key ∈ activeKeys jobs := by
            by_contra hfree
            exact (revived_or_outdated hmatch hkey hfree).elim hrevived houtdated
          exact kept_of_active hkey (activeKeys_requeued hfailed hactive)
  · exact ⟨fun h => hmatch h.matches, fun h => hmatch h.matches⟩

end Table

/-- What a requeue of the failed rows that pass a filter does: it revives the newest one of each key that no live row
holds and every one without a key, cancels the older ones, leaves all others, returns how many it revived, and has
nothing to do when it runs again. -/
theorem requeueFailedWhere_spec (passes : JobRow → Bool) (nowMs : Int) {jobs : List JobRow} (hv : TableValid jobs) :
    let predicate := fun row : JobRow => row.status == .failed && passes row
    requeueFailedWhere predicate nowMs jobs =
        .ok (requeued predicate nowMs jobs, jobs.countP fun row => decide (Revived predicate jobs row)) ∧
      (∀ key, key ∉ activeKeys jobs → (∃ row ∈ jobs, predicate row = true ∧ row.dedupeKey = some key) →
        ∃! newest, newest ∈ jobs ∧ newest.dedupeKey = some key ∧ Revived predicate jobs newest) ∧
      (∀ row ∈ jobs, predicate row = true → ∀ key, row.dedupeKey = some key → key ∉ activeKeys jobs →
        Revived predicate jobs row ∨ Outdated predicate jobs row) ∧
      (∀ row ∈ jobs, predicate row = true → row.dedupeKey = none → Revived predicate jobs row) ∧
      (∀ row ∈ jobs, predicate row = false ∨ (∃ key ∈ activeKeys jobs, row.dedupeKey = some key) →
        ¬Revived predicate jobs row ∧ ¬Outdated predicate jobs row) ∧
      ∀ laterMs, requeueFailedWhere predicate laterMs (requeued predicate nowMs jobs) =
        .ok (requeued predicate nowMs jobs, 0) := by
  intro predicate
  have hfailed : ∀ row, predicate row = true → row.status = .failed := by
    intro row hmatch
    exact eq_of_beq (Bool.and_eq_true_iff.mp hmatch).1
  refine ⟨requeueFailedWhere_eq predicate nowMs hv, ?_, ?_, ?_, ?_, ?_⟩
  · intro key hfree hwaiting
    obtain ⟨row, hrow, hmatch, hkey⟩ := hwaiting
    exact existsUnique_revived hv.ids hfree hrow hmatch hkey
  · intro row _ hmatch key hkey hfree
    exact revived_or_outdated hmatch hkey hfree
  · intro row _ hmatch hkey
    exact ⟨hmatch, fun key heq => by rw [hkey] at heq; cases heq⟩
  · intro row _ hcase
    rcases hcase with hmatch | ⟨key, hactive, hkey⟩
    · rw [← Bool.not_eq_true] at hmatch
      exact ⟨fun h => hmatch h.matches, fun h => hmatch h.matches⟩
    · exact kept_of_active hkey hactive
  · intro laterMs
    have hvalid := hv.requeueFailedWhere (requeueFailedWhere_eq predicate nowMs hv)
    have hkept : requeued predicate laterMs (requeued predicate nowMs jobs) = requeued predicate nowMs jobs := by
      conv_rhs => rw [← List.map_id (requeued predicate nowMs jobs)]
      rw [requeued]
      refine List.map_congr_left fun row hrow => ?_
      obtain ⟨hrevived, houtdated⟩ := kept_requeued hfailed hrow
      rw [if_neg hrevived, if_neg houtdated, id]
    have hnone : (requeued predicate nowMs jobs).countP (fun row =>
        decide (Revived predicate (requeued predicate nowMs jobs) row)) = 0 := by
      rw [List.countP_eq_zero]
      intro row hrow
      rw [decide_eq_true_iff]
      exact (kept_requeued hfailed hrow).1
    rw [requeueFailedWhere_eq predicate laterMs hvalid, hkept, hnone]

/-- Two failures of one seal. -/
def failedTwice : List JobRow :=
  [{ newRow "job:a" 10 (.seal ⟨"tree-1", 0, none⟩) 5 with
      status := .failed
      completedAtMs := some 20 },
    { newRow "job:b" 30 (.seal ⟨"tree-1", 0, none⟩) 5 with
      status := .failed
      completedAtMs := some 40 }]

theorem requeueFailedWhere_spec_failedTwice :
    (∃! newest, newest ∈ failedTwice ∧ newest.dedupeKey = some "seal:tree-1:0" ∧
      Revived (fun row => row.status == .failed && true) failedTwice newest) ∧
      requeueFailedWhere (fun row => row.status == .failed && true) 60
          (requeued (fun row => row.status == .failed && true) 50 failedTwice) =
        .ok (requeued (fun row => row.status == .failed && true) 50 failedTwice, 0) := by
  obtain ⟨_, hnewest, _, _, _, hagain⟩ :=
    requeueFailedWhere_spec (fun _ => true) 50 (show TableValid failedTwice from ⟨by decide, by decide⟩)
  exact ⟨hnewest _ (by decide) ⟨_, List.mem_cons_self, by decide, by decide⟩, hagain 60⟩

end TinyCortex.Queue
