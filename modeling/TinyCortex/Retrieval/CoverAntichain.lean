import TinyCortex.Lib.Pruning
import TinyCortex.Retrieval.CoverPlan

/-! The plan of a cover over any forest of summaries (`retrieval/cover.rs`). The walk down a subtree is not bounded by
levels here: it has turns of its own, and in a forest there are numbers of turns from which on nothing changes. -/

namespace TinyCortex.Retrieval

open SummaryTree Table Relation

/-- The topmost rows; with a restriction, only those all of whose chunks are present. -/
def takenRows (turns : Nat) (eligible : List SummaryNode) (restrictToPresent : Option (List String)) :
    List SummaryNode :=
  eligible.filter fun node => isMaximal eligible node &&
    (restrictToPresent.map fun present =>
      (collectDescendantChunks eligible turns node).all (· ∈ present)).getD true

/-- `plan_cover` with turns for its walks down. -/
def planCoverWithin (turns : Nat) (eligible : List SummaryNode) (restrictToPresent : Option (List String)) : CoverPlan :=
  ⟨(takenRows turns eligible restrictToPresent).map SummaryNode.id,
    (takenRows turns eligible restrictToPresent).flatMap (collectDescendantChunks eligible turns)⟩

/-- Where levels fall, the plan that goes by levels is the same. -/
theorem planCover_eq_within {rows : List SummaryNode} (h : Forest rows) {turns : Nat}
    (hturns : ∀ node ∈ rows, node.level < turns) (restrictToPresent : Option (List String)) :
    planCover rows restrictToPresent = planCoverWithin turns rows restrictToPresent := by
  have hwalk : ∀ node ∈ rows, collectDescendantChunks rows (node.level + 1) node =
      collectDescendantChunks rows turns node := fun node hnode =>
    collectDescendantChunks_eq_of_rank h.falls hnode (Nat.lt_succ_self _) (hturns node hnode)
  have hmaximal : maximalRows rows restrictToPresent = takenRows turns rows restrictToPresent := by
    apply List.filter_congr
    intro node hnode
    rw [hwalk node hnode]
  rw [planCover, planCoverWithin, ← hmaximal]
  congr 1
  apply List.flatMap_congr
  intro node hnode
  exact hwalk node (List.mem_of_mem_filter hnode)

/-- Summaries with distinct ids, none below itself; a summary names the one that lists it as its parent, and a leaf is
listed by one summary. -/
structure SummaryForest (all : List SummaryNode) : Prop where
  nodup : (all.map SummaryNode.id).Nodup
  acyclic : ∀ s, ¬TransGen (Lists all) s s
  parent : ∀ p ∈ all, ∀ s ∈ all, s.parentId = some p.id ↔ s.id ∈ p.childIds
  leaf : ∀ p ∈ all, ∀ q ∈ all, ∀ id, id ∉ all.map SummaryNode.id → id ∈ p.childIds → id ∈ q.childIds → p = q

/-- Some of the summaries, each once, with every summary that is listed by one of them. -/
structure Closed (all eligible : List SummaryNode) : Prop where
  nodup : (eligible.map SummaryNode.id).Nodup
  subset : eligible ⊆ all
  below : ∀ p ∈ eligible, ∀ s, Lists all p s → s ∈ eligible

/-- The summary is eligible and its parent is not. -/
def Topmost (all eligible : List SummaryNode) (s : SummaryNode) : Prop := s ∈ eligible ∧ ∀ p ∈ eligible, ¬Lists all p s

section Plan

variable {all eligible : List SummaryNode} {s t p : SummaryNode} {id : String} {turns : Nat}
  {restrictToPresent : Option (List String)}

theorem SummaryForest.oneParent (h : SummaryForest all) : Relator.LeftUnique (Lists all) := by
  intro p q s hps hqs
  have hpid := (h.parent p hps.1 s hps.2.1).mpr hps.2.2
  have hqid := (h.parent q hqs.1 s hqs.2.1).mpr hqs.2.2
  exact eq_of_pk_eq h.nodup hps.1 hqs.1 (Option.some.inj (hpid.symm.trans hqid))

/-- Eligible summaries are linked as they are among all. -/
theorem lists_eligible (hclosed : Closed all eligible) : Lists eligible p s ↔ p ∈ eligible ∧ Lists all p s := by
  constructor
  · intro h
    exact ⟨h.1, hclosed.subset h.1, hclosed.subset h.2.1, h.2.2⟩
  · intro h
    exact ⟨h.1, hclosed.below p h.1 s h.2, h.2.2.2⟩

theorem above_eligible (hclosed : Closed all eligible) (hs : s ∈ eligible) :
    ReflTransGen (Lists eligible) s t ↔ ReflTransGen (Lists all) s t := by
  constructor
  · exact fun h => ReflTransGen.mono (fun _ _ hlink => ((lists_eligible hclosed).mp hlink).2) _ _ h
  · intro h
    induction h with
    | refl => exact .refl
    | tail habove hlink ih =>
        exact ih.tail ((lists_eligible hclosed).mpr ⟨mem_of_above ih hs, hlink⟩)

/-- An id that an eligible summary lists is a leaf among the eligible exactly if it is one among all. -/
theorem leaf_eligible (hclosed : Closed all eligible) (hp : p ∈ eligible) (hid : id ∈ p.childIds) :
    id ∉ eligible.map SummaryNode.id ↔ id ∉ all.map SummaryNode.id := by
  apply not_congr
  constructor
  · exact fun hmem => (List.map_subset _ hclosed.subset) hmem
  · intro hmem
    obtain ⟨s, hs, rfl⟩ := List.mem_map.mp hmem
    exact List.mem_map_of_mem (hclosed.below p hp s ⟨hclosed.subset hp, hs, hid⟩)

theorem under_eligible (hclosed : Closed all eligible) (hs : s ∈ eligible) :
    Under eligible s id ↔ Under all s id := by
  constructor
  · rintro ⟨p, habove, hid, hleaf⟩
    have hp := mem_of_above habove hs
    exact ⟨p, (above_eligible hclosed hs).mp habove, hid, (leaf_eligible hclosed hp hid).mp hleaf⟩
  · rintro ⟨p, habove, hid, hleaf⟩
    have habove' := (above_eligible hclosed hs).mpr habove
    have hp := mem_of_above habove' hs
    exact ⟨p, habove', hid, (leaf_eligible hclosed hp hid).mpr hleaf⟩

theorem acyclic_eligible (h : SummaryForest all) (hclosed : Closed all eligible) (s : SummaryNode) :
    ¬TransGen (Lists eligible) s s := by
  intro hcycle
  exact h.acyclic s (TransGen.mono (fun _ _ hlink => ((lists_eligible hclosed).mp hlink).2) _ _ hcycle)

theorem isMaximal_iff_topmost (h : SummaryForest all) (hclosed : Closed all eligible) (hs : s ∈ eligible) :
    isMaximal eligible s = true ↔ Topmost all eligible s := by
  rw [isMaximal, Topmost, and_iff_right hs]
  have hlists : ∀ p ∈ eligible, Lists all p s ↔ s.parentId = some p.id := fun p hp =>
    ⟨fun hlink => (h.parent p hlink.1 s hlink.2.1).mpr hlink.2.2, fun hparent =>
      ⟨hclosed.subset hp, hclosed.subset hs, (h.parent p (hclosed.subset hp) s (hclosed.subset hs)).mp hparent⟩⟩
  cases hparent : s.parentId with
  | none =>
      refine iff_of_true rfl fun p hp hlink => ?_
      have hnamed := (hlists p hp).mp hlink
      rw [hparent] at hnamed
      cases hnamed
  | some parent =>
      rw [decide_eq_true_iff]
      constructor
      · intro hno p hp hlink
        have hnamed := (hlists p hp).mp hlink
        rw [hparent] at hnamed
        exact hno (List.mem_map.mpr ⟨p, hp, (Option.some.inj hnamed).symm⟩)
      · intro hno hmem
        obtain ⟨p, hp, rfl⟩ := List.mem_map.mp hmem
        exact hno p hp ((hlists p hp).mpr hparent)

/-- With more turns than there are eligible summaries the walk collects the leaves under a summary. -/
theorem mem_collect_eligible (h : SummaryForest all) (hclosed : Closed all eligible) (hs : s ∈ eligible)
    (hturns : eligible.length < turns) : id ∈ collectDescendantChunks eligible turns s ↔ Under all s id := by
  have hfalls : ∀ p s, Lists eligible p s →
      Acyclic.rank (Lists eligible) eligible s < Acyclic.rank (Lists eligible) eligible p := fun p s hlink =>
    Acyclic.rank_lt (fun _ _ hlink => hlink.2.1) (acyclic_eligible h hclosed) hlink
  rw [← under_eligible hclosed hs]
  exact mem_collectDescendantChunks_of_rank hclosed.nodup hfalls hs ((Acyclic.rank_le s).trans_lt hturns)

/-- The summaries that a plan takes: topmost ones, and with a restriction those whose leaves are all present. -/
def Chosen (all eligible : List SummaryNode) (restrictToPresent : Option (List String)) (s : SummaryNode) : Prop :=
  Topmost all eligible s ∧ ∀ present, restrictToPresent = some present → ∀ id, Under all s id → id ∈ present

theorem mem_takenRows (h : SummaryForest all) (hclosed : Closed all eligible) (hturns : eligible.length < turns) :
    s ∈ takenRows turns eligible restrictToPresent ↔ Chosen all eligible restrictToPresent s := by
  rw [takenRows, List.mem_filter, Chosen]
  by_cases hs : s ∈ eligible
  · rw [and_iff_right hs, Bool.and_eq_true, isMaximal_iff_topmost h hclosed hs]
    apply and_congr_right
    intro _
    cases restrictToPresent with
    | none => exact iff_of_true rfl nofun
    | some present =>
        simp only [Option.map_some, Option.getD_some, List.all_eq_true, decide_eq_true_iff, Option.some.injEq,
          forall_eq', mem_collect_eligible h hclosed hs hturns]
  · exact iff_of_false (fun hmem => hs hmem.1) fun hchosen => hs hchosen.1.1

theorem mem_maximalIds (h : SummaryForest all) (hclosed : Closed all eligible) (hs : s ∈ eligible)
    (hturns : eligible.length < turns) :
    s.id ∈ (planCoverWithin turns eligible restrictToPresent).maximalIds ↔
      Chosen all eligible restrictToPresent s := by
  rw [← mem_takenRows h hclosed hturns, planCoverWithin, List.mem_map]
  constructor
  · intro hmem
    obtain ⟨t, ht, hid⟩ := hmem
    rw [← eq_of_pk_eq hclosed.nodup (List.mem_of_mem_filter ht) hs hid]
    exact ht
  · exact fun hmem => ⟨s, hmem, rfl⟩

theorem covered_iff (h : SummaryForest all) (hclosed : Closed all eligible) (hturns : eligible.length < turns) :
    id ∈ (planCoverWithin turns eligible restrictToPresent).coveredChunkIds ↔
      ∃ s, Chosen all eligible restrictToPresent s ∧ Under all s id := by
  rw [planCoverWithin, List.mem_flatMap]
  apply exists_congr
  intro s
  rw [mem_takenRows h hclosed hturns]
  apply and_congr_right
  intro hchosen
  exact mem_collect_eligible h hclosed hchosen.1.1 hturns

/-- Two topmost summaries with a summary below them both are one. -/
theorem Topmost.eq_of_above (h : SummaryForest all) (hclosed : Closed all eligible) (hs : Topmost all eligible s)
    (ht : Topmost all eligible t) (hsp : ReflTransGen (Lists all) s p) (htp : ReflTransGen (Lists all) t p) : s = t := by
  have honce : Relator.LeftUnique (Lists eligible) := fun _ _ _ hp hq =>
    h.oneParent ((lists_eligible hclosed).mp hp).2 ((lists_eligible hclosed).mp hq).2
  have htop : ∀ {s}, Topmost all eligible s → ∀ p, ¬Lists eligible p s := fun hs p hlink =>
    hs.2 p hlink.1 ((lists_eligible hclosed).mp hlink).2
  exact Pruning.top_unique honce (htop hs) (htop ht) ((above_eligible hclosed hs.1).mpr hsp)
    ((above_eligible hclosed ht.1).mpr htp)

/-- Two topmost summaries with a leaf in common are one. -/
theorem Topmost.eq_of_under (h : SummaryForest all) (hclosed : Closed all eligible) (hs : Topmost all eligible s)
    (ht : Topmost all eligible t) (hsid : Under all s id) (htid : Under all t id) : s = t := by
  obtain ⟨p, hsp, hpid, hleaf⟩ := hsid
  obtain ⟨q, htq, hqid, -⟩ := htid
  have hp := mem_of_above hsp (hclosed.subset hs.1)
  have hq := mem_of_above htq (hclosed.subset ht.1)
  obtain rfl := h.leaf p hp q hq id hleaf hpid hqid
  exact hs.eq_of_above h hclosed ht hsp htq

theorem exists_topmost (h : SummaryForest all) (hclosed : Closed all eligible) (hs : s ∈ eligible) :
    ∃ top, Topmost all eligible top ∧ ReflTransGen (Lists all) top s := by
  obtain ⟨top, hnone, habove⟩ :=
    Acyclic.exists_top (fun _ _ hlink => hlink.2.1) (acyclic_eligible h hclosed) s
  have htop : top ∈ eligible := by
    rcases habove.cases_head with rfl | ⟨next, hlink, -⟩
    · exact hs
    · exact hlink.1
  refine ⟨top, ⟨htop, fun p hp hlink => ?_⟩, (above_eligible hclosed htop).mp habove⟩
  exact hnone p ((lists_eligible hclosed).mpr ⟨hp, hlink⟩)

/-- With more turns than there are eligible summaries, no turn more or less changes the plan. -/
theorem planCoverWithin_eq (h : SummaryForest all) (hclosed : Closed all eligible) {more : Nat}
    (hturns : eligible.length < turns) (hmore : eligible.length < more) (restrictToPresent : Option (List String)) :
    planCoverWithin turns eligible restrictToPresent = planCoverWithin more eligible restrictToPresent := by
  have hwalk : ∀ node ∈ eligible, collectDescendantChunks eligible turns node =
      collectDescendantChunks eligible more node := by
    intro node hnode
    have hfalls : ∀ p s, Lists eligible p s →
        Acyclic.rank (Lists eligible) eligible s < Acyclic.rank (Lists eligible) eligible p := fun p s hlink =>
      Acyclic.rank_lt (fun _ _ hlink => hlink.2.1) (acyclic_eligible h hclosed) hlink
    exact collectDescendantChunks_eq_of_rank hfalls hnode ((Acyclic.rank_le node).trans_lt hturns)
      ((Acyclic.rank_le node).trans_lt hmore)
  have htaken : takenRows turns eligible restrictToPresent = takenRows more eligible restrictToPresent := by
    apply List.filter_congr
    intro node hnode
    rw [hwalk node hnode]
  rw [planCoverWithin, planCoverWithin, htaken]
  congr 1
  apply List.flatMap_congr
  intro node hnode
  exact hwalk node (List.mem_of_mem_filter hnode)

/-- What the chosen summaries cover, when they are all the topmost ones. -/
theorem covered_all (h : SummaryForest all) (hclosed : Closed all eligible) :
    (∃ s, Chosen all eligible none s ∧ Under all s id) ↔ ∃ s ∈ eligible, Under all s id := by
  constructor
  · intro hcovered
    obtain ⟨s, hchosen, hunder⟩ := hcovered
    exact ⟨s, hchosen.1.1, hunder⟩
  · intro hleaf
    obtain ⟨s, hs, hunder⟩ := hleaf
    obtain ⟨top, htop, habove⟩ := exists_topmost h hclosed hs
    exact ⟨top, ⟨htop, nofun⟩, under_of_above habove hunder⟩

/-- A plan that is an exact antichain cover: none of the chosen summaries is above another, no leaf is under two of
them, and the leaves under them are the covered ones. Without a restriction these are all leaves under eligible
summaries; with one they are all present, and a present leaf is under exactly one chosen summary or not covered. -/
structure ExactCover (all eligible : List SummaryNode) (restrictToPresent : Option (List String)) (plan : CoverPlan) :
    Prop where
  origin : plan.maximalIds.Sublist (eligible.map SummaryNode.id)
  chosen : ∀ s ∈ eligible, s.id ∈ plan.maximalIds ↔ Chosen all eligible restrictToPresent s
  antichain : ∀ s ∈ eligible, ∀ t ∈ eligible, s.id ∈ plan.maximalIds → t.id ∈ plan.maximalIds → s ≠ t →
    ¬ReflTransGen (Lists all) s t
  disjoint : ∀ s ∈ eligible, ∀ t ∈ eligible, s.id ∈ plan.maximalIds → t.id ∈ plan.maximalIds → s ≠ t →
    ∀ id, Under all s id → ¬Under all t id
  covered : ∀ id, id ∈ plan.coveredChunkIds ↔ ∃ s ∈ eligible, s.id ∈ plan.maximalIds ∧ Under all s id
  whole : restrictToPresent = none → ∀ id, id ∈ plan.coveredChunkIds ↔ ∃ s ∈ eligible, Under all s id
  present : ∀ present, restrictToPresent = some present → ∀ id ∈ plan.coveredChunkIds, id ∈ present
  once : ∀ present, restrictToPresent = some present → ∀ id ∈ present, id ∈ plan.coveredChunkIds ↔
    ∃! s, s ∈ eligible ∧ s.id ∈ plan.maximalIds ∧ Under all s id

/-- For a closed set of eligible summaries of a forest the plan is an exact antichain cover. It is the same for all
numbers of turns above the number of the summaries. -/
theorem planCover_exact (h : SummaryForest all) (hclosed : Closed all eligible)
    (restrictToPresent : Option (List String)) :
    ∃ plan, (∀ turns, eligible.length < turns → planCoverWithin turns eligible restrictToPresent = plan) ∧
      ExactCover all eligible restrictToPresent plan := by
  have hturns : eligible.length < eligible.length + 1 := Nat.lt_succ_self _
  have hchosen : ∀ s ∈ eligible,
      s.id ∈ (planCoverWithin (eligible.length + 1) eligible restrictToPresent).maximalIds ↔
        Chosen all eligible restrictToPresent s := fun s hs => mem_maximalIds h hclosed hs hturns
  have hcovered : ∀ id, id ∈ (planCoverWithin (eligible.length + 1) eligible restrictToPresent).coveredChunkIds ↔
      ∃ s ∈ eligible, s.id ∈ (planCoverWithin (eligible.length + 1) eligible restrictToPresent).maximalIds ∧
        Under all s id := by
    intro id
    rw [covered_iff h hclosed hturns]
    constructor
    · intro hleaf
      obtain ⟨s, htaken, hunder⟩ := hleaf
      exact ⟨s, htaken.1.1, (hchosen s htaken.1.1).mpr htaken, hunder⟩
    · intro hleaf
      obtain ⟨s, hs, htaken, hunder⟩ := hleaf
      exact ⟨s, (hchosen s hs).mp htaken, hunder⟩
  refine ⟨_, fun turns hmore => planCoverWithin_eq h hclosed hmore hturns restrictToPresent,
    List.filter_sublist.map _, hchosen, ?_, ?_, hcovered, ?_, ?_, ?_⟩
  · intro s hs t ht hstaken httaken hne habove
    have hstop := ((hchosen s hs).mp hstaken).1
    exact hne (hstop.eq_of_above h hclosed ((hchosen t ht).mp httaken).1 habove .refl)
  · intro s hs t ht hstaken httaken hne id hsid htid
    have hstop := ((hchosen s hs).mp hstaken).1
    exact hne (hstop.eq_of_under h hclosed ((hchosen t ht).mp httaken).1 hsid htid)
  · intro hnone id
    subst hnone
    rw [covered_iff h hclosed hturns]
    exact covered_all h hclosed
  · intro present hpresent id hid
    obtain ⟨s, hs, htaken, hunder⟩ := (hcovered id).mp hid
    exact ((hchosen s hs).mp htaken).2 present hpresent id hunder
  · intro present _ id _
    rw [hcovered]
    constructor
    · intro hleaf
      obtain ⟨s, hs, htaken, hunder⟩ := hleaf
      refine ⟨s, ⟨hs, htaken, hunder⟩, ?_⟩
      intro t hmem
      obtain ⟨ht, httaken, htid⟩ := hmem
      exact ((hchosen t ht).mp httaken).1.eq_of_under h hclosed ((hchosen s hs).mp htaken).1 htid hunder
    · intro hunique
      obtain ⟨s, hmem, -⟩ := hunique
      exact ⟨s, hmem.1, hmem.2⟩

/-- Levels that fall keep a summary from being below itself. -/
theorem acyclic_of_levels (hfalls : ∀ p s, Lists all p s → s.level < p.level) (s : SummaryNode) :
    ¬TransGen (Lists all) s s := by
  have hbelow : ∀ t, TransGen (Lists all) s t → t.level < s.level := by
    intro t habove
    induction habove with
    | single hlink => exact hfalls _ _ hlink
    | tail _ hlink ih => exact (hfalls _ _ hlink).trans ih
  exact fun hcycle => (hbelow s hcycle).false

end Plan

/-- A summary over two others. -/
def familyRows : List SummaryNode :=
  [⟨"top", "t", 2, none, ["left", "right"], 1, 0, 0, 0, false, none, none⟩,
    ⟨"left", "t", 1, some "top", ["a", "b"], 1, 0, 0, 0, false, none, none⟩,
    ⟨"right", "t", 1, some "top", ["c"], 1, 0, 0, 0, false, none, none⟩]

/-- The window holds the two below, and one of their chunks is not asked for. -/
theorem planCover_exact_family :
    ∃ plan, (∀ turns, familyRows.tail.length < turns →
        planCoverWithin turns familyRows.tail (some ["a", "c"]) = plan) ∧
      ExactCover familyRows familyRows.tail (some ["a", "c"]) plan := by
  refine planCover_exact ⟨by decide, ?_, by decide, ?_⟩ ⟨by decide, by decide, ?_⟩ _
  · apply acyclic_of_levels
    intro p s hlink
    have hfalls : ∀ p ∈ familyRows, ∀ s ∈ familyRows, s.id ∈ p.childIds → s.level < p.level := by decide
    exact hfalls p hlink.1 s hlink.2.1 hlink.2.2
  · intro p hp q hq id hleaf hpid hqid
    have honce : ∀ p ∈ familyRows, ∀ q ∈ familyRows, ∀ id ∈ p.childIds, id ∈ q.childIds →
        id ∉ familyRows.map SummaryNode.id → p = q := by decide
    exact honce p hp q hq id hpid hqid hleaf
  · intro p hp s hlink
    have hbelow : ∀ p ∈ familyRows.tail, ∀ s ∈ familyRows, s.id ∈ p.childIds → s ∈ familyRows.tail := by decide
    exact hbelow p hp s hlink.2.1 hlink.2.2

end TinyCortex.Retrieval
