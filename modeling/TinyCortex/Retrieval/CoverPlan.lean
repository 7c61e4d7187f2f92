import TinyCortex.Lib.Pruning
import TinyCortex.Retrieval.Cover

/-! What the plan of one tree comes to. Of the rows that fit into the window, some lose against another
row of their document, and whatever is below a loser is cut off. The plan takes the rows that nothing in
the window is above and that do not lose, and leaves raw the chunks that are under none of these and
under no loser. -/

namespace TinyCortex.Retrieval

open Chunks SummaryTree Table Relation Pruning

/-- The links among rows. -/
def Lists (rows : List SummaryNode) (p s : SummaryNode) : Prop :=
  p ∈ rows ∧ s ∈ rows ∧ s.id ∈ p.childIds

/-- The subtree of a row ends in the id, which has no row itself. -/
def Under (rows : List SummaryNode) (s : SummaryNode) (id : String) : Prop :=
  ∃ p, ReflTransGen (Lists rows) s p ∧ id ∈ p.childIds ∧ id ∉ rows.map SummaryNode.id

/-- The row loses against a newer version of its document, or an earlier row of the same version. -/
def Loses (rows : List SummaryNode) (s : SummaryNode) : Prop :=
  s ∈ rows ∧ ∃ docId, s.docId = some docId ∧ ∃ t ∈ rows, t.docId = some docId ∧
    (version s < version t ∨ version s = version t ∧ [t, s].Sublist rows)

/-- No row is above this one. -/
def Exposed (rows : List SummaryNode) (s : SummaryNode) : Prop := s ∈ rows ∧ ∀ p, ¬Lists rows p s

/-- The rows that stand for what is under them: exposed ones that do not lose and, where only some chunks
are asked for, that have no loser and no other chunk under them. -/
def Stands (rows : List SummaryNode) (restrictToPresent : Option (List String)) (s : SummaryNode) :
    Prop :=
  Exposed rows s ∧ ¬Loses rows s ∧ ∀ present, restrictToPresent = some present →
    (∀ l, ReflTransGen (Lists rows) s l → ¬Loses rows l) ∧ ∀ id, Under rows s id → id ∈ present

/-- Rows with distinct ids, with levels that fall on the way down and backlinks to the rows that list
them. -/
structure Forest (rows : List SummaryNode) : Prop where
  nodup : (rows.map SummaryNode.id).Nodup
  falls : ∀ p s, Lists rows p s → s.level < p.level
  parent : ∀ p ∈ rows, ∀ s ∈ rows, s.parentId = some p.id ↔ s.id ∈ p.childIds

section Descent

variable {rows : List SummaryNode} {s t p : SummaryNode} {id : String} {fuel : Nat}

theorem mem_of_above (h : ReflTransGen (Lists rows) s t) (hs : s ∈ rows) : t ∈ rows := by
  rcases h.cases_tail with rfl | ⟨p, -, hlink⟩
  · exact hs
  · exact hlink.2.1

/-- Rows under which a row is, and the row itself. -/
theorem under_of_above (h : ReflTransGen (Lists rows) s t) (hunder : Under rows t id) :
    Under rows s id := by
  obtain ⟨p, habove, hrest⟩ := hunder
  exact ⟨p, h.trans habove, hrest⟩

theorem under_iff (hs : s ∈ rows) :
    Under rows s id ↔ (id ∈ s.childIds ∧ id ∉ rows.map SummaryNode.id) ∨
      ∃ t ∈ rows, t.id ∈ s.childIds ∧ Under rows t id := by
  constructor
  · rintro ⟨p, habove, hrest⟩
    rcases habove.cases_head with rfl | ⟨t, hlink, htail⟩
    · exact Or.inl hrest
    · exact Or.inr ⟨t, hlink.2.1, hlink.2.2, p, htail, hrest⟩
  · rintro (hrest | ⟨t, ht, hchild, hunder⟩)
    · exact ⟨s, .refl, hrest⟩
    · exact under_of_above (.single ⟨hs, ht, hchild⟩) hunder

/-- The walk down collects what is under the row, given a rank that falls on the way and turns for it. -/
theorem mem_collectDescendantChunks_of_rank {rank : SummaryNode → Nat} (hnodup : (rows.map SummaryNode.id).Nodup)
    (hfalls : ∀ p s, Lists rows p s → rank s < rank p) (hs : s ∈ rows) (hfuel : rank s < fuel) :
    id ∈ collectDescendantChunks rows fuel s ↔ Under rows s id := by
  induction fuel generalizing s with
  | zero => omega
  | succ fuel ih =>
      rw [collectDescendantChunks, List.mem_flatMap, under_iff hs]
      constructor
      · rintro ⟨child, hchild, hmem⟩
        cases hrow : lookup SummaryNode.id child rows with
        | none =>
            rw [hrow, List.mem_singleton] at hmem
            subst hmem
            exact Or.inl ⟨hchild, lookup_eq_none_iff.mp hrow⟩
        | some t =>
            rw [hrow] at hmem
            obtain ⟨ht, rfl⟩ := lookup_mem hrow
            have hlt := hfalls s t ⟨hs, ht, hchild⟩
            exact Or.inr ⟨t, ht, hchild, (ih ht (by omega)).mp hmem⟩
      · rintro (⟨hchild, hno⟩ | ⟨t, ht, hchild, hunder⟩)
        · refine ⟨id, hchild, ?_⟩
          rw [lookup_eq_none_iff.mpr hno]
          exact List.mem_singleton_self id
        · refine ⟨t.id, hchild, ?_⟩
          have hlt := hfalls s t ⟨hs, ht, hchild⟩
          rw [lookup_of_mem hnodup ht]
          exact (ih ht (by omega)).mpr hunder

theorem mem_collectDescendantChunks (h : Forest rows) (hs : s ∈ rows) (hfuel : s.level < fuel) :
    id ∈ collectDescendantChunks rows fuel s ↔ Under rows s id :=
  mem_collectDescendantChunks_of_rank h.nodup h.falls hs hfuel

/-- More turns change nothing. -/
theorem collectDescendantChunks_eq_of_rank {rank : SummaryNode → Nat} {more : Nat}
    (hfalls : ∀ p s, Lists rows p s → rank s < rank p) (hs : s ∈ rows) (hfuel : rank s < fuel) (hmore : rank s < more) :
    collectDescendantChunks rows fuel s = collectDescendantChunks rows more s := by
  induction fuel generalizing s more with
  | zero => omega
  | succ fuel ih =>
      obtain ⟨more, rfl⟩ : ∃ turns, more = turns + 1 := ⟨more - 1, by omega⟩
      rw [collectDescendantChunks, collectDescendantChunks]
      apply List.flatMap_congr
      intro child hchild
      cases hrow : lookup SummaryNode.id child rows with
      | none => rfl
      | some t =>
          obtain ⟨ht, rfl⟩ := lookup_mem hrow
          have hlt := hfalls s t ⟨hs, ht, hchild⟩
          exact ih ht (by omega) (by omega)

/-- Both walks down find the same chunks. -/
theorem collectSubtreeIds_snd (fuel : Nat) (s : SummaryNode) :
    (collectSubtreeIds rows fuel s).2 = collectDescendantChunks rows fuel s := by
  induction fuel generalizing s with
  | zero => rfl
  | succ fuel ih =>
      rw [collectSubtreeIds, collectDescendantChunks]
      refine List.flatMap_congr fun child _ => ?_
      cases lookup SummaryNode.id child rows with
      | none => rfl
      | some t => exact ih t

theorem mem_collectSubtreeIds_fst (h : Forest rows) (hs : s ∈ rows) (hfuel : s.level < fuel) :
    id ∈ s.id :: (collectSubtreeIds rows fuel s).1 ↔
      ∃ t, ReflTransGen (Lists rows) s t ∧ t.id = id := by
  induction fuel generalizing s with
  | zero => omega
  | succ fuel ih =>
      rw [List.mem_cons, collectSubtreeIds, List.mem_flatMap]
      constructor
      · rintro (rfl | ⟨child, hchild, hmem⟩)
        · exact ⟨s, .refl, rfl⟩
        · cases hrow : lookup SummaryNode.id child rows with
          | none =>
              rw [hrow] at hmem
              exact absurd hmem List.not_mem_nil
          | some t =>
              rw [hrow] at hmem
              obtain ⟨ht, rfl⟩ := lookup_mem hrow
              have hlink : Lists rows s t := ⟨hs, ht, hchild⟩
              have hlt := h.falls s t hlink
              obtain ⟨u, habove, hid⟩ := (ih ht (by omega)).mp hmem
              exact ⟨u, .head hlink habove, hid⟩
      · rintro ⟨u, habove, rfl⟩
        rcases habove.cases_head with rfl | ⟨t, hlink, htail⟩
        · exact Or.inl rfl
        · refine Or.inr ⟨t.id, hlink.2.2, ?_⟩
          have hlt := h.falls s t hlink
          rw [lookup_of_mem h.nodup hlink.2.1]
          exact (ih hlink.2.1 (by omega)).mpr ⟨u, htail, rfl⟩

end Descent

section Losers

variable {rows : List SummaryNode} {s : SummaryNode}

/-- Of two rows one comes first. -/
theorem pair_sublist {a b : SummaryNode} (ha : a ∈ rows) (hb : b ∈ rows) (hne : a ≠ b) :
    [a, b].Sublist rows ∨ [b, a].Sublist rows := by
  induction rows with
  | nil => cases ha
  | cons r rows ih =>
      rcases List.mem_cons.mp ha with rfl | ha'
      · have hb' := (List.mem_cons.mp hb).resolve_left hne.symm
        exact Or.inl ((List.singleton_sublist.mpr hb').cons_cons a)
      · rcases List.mem_cons.mp hb with rfl | hb'
        · exact Or.inr ((List.singleton_sublist.mpr ha').cons_cons b)
        · exact (ih ha' hb').imp (fun h => h.cons r) fun h => h.cons r

theorem pair_sublist_cons {t r : SummaryNode} :
    [t, s].Sublist (r :: rows) ↔ [t, s].Sublist rows ∨ t = r ∧ s ∈ rows := by
  rw [List.sublist_cons_iff]
  refine or_congr_right ⟨?_, ?_⟩
  · rintro ⟨rest, heq, hrest⟩
    obtain ⟨rfl, rfl⟩ := List.cons.inj heq
    exact ⟨rfl, List.singleton_sublist.mp hrest⟩
  · rintro ⟨rfl, hs⟩
    exact ⟨[s], rfl, List.singleton_sublist.mpr hs⟩

variable {newest : String → Option Int} {winnersSeen : List String}

/-- Older than the newest version, of a document that was won before, or after a row that is of the
newest version. -/
def Beaten (newest : String → Option Int) (winnersSeen : List String) (rows : List SummaryNode)
    (s : SummaryNode) : Prop :=
  ∃ docId, s.docId = some docId ∧ (version s < (newest docId).getD I64.minValue ∨
    docId ∈ winnersSeen ∨ ∃ t, t.docId = some docId ∧
      ¬version t < (newest docId).getD I64.minValue ∧ [t, s].Sublist rows)

/-- A first row that does not win beats nothing. -/
theorem beaten_cons_of_not_winner {r : SummaryNode}
    (hr : ∀ docId, r.docId = some docId →
      version r < (newest docId).getD I64.minValue ∨ docId ∈ winnersSeen) :
    Beaten newest winnersSeen (r :: rows) s ↔ Beaten newest winnersSeen rows s := by
  refine exists_congr fun docId => and_congr_right fun _ => or_congr_right ?_
  constructor
  · rintro (hseen | ⟨t, ht, hnewest, hsub⟩)
    · exact Or.inl hseen
    · rcases pair_sublist_cons.mp hsub with hsub | ⟨rfl, -⟩
      · exact Or.inr ⟨t, ht, hnewest, hsub⟩
      · exact Or.inl ((hr docId ht).resolve_left hnewest)
  · refine Or.imp_right ?_
    rintro ⟨t, ht, hnewest, hsub⟩
    exact ⟨t, ht, hnewest, hsub.cons r⟩

/-- A first row that wins beats the later rows of its document. -/
theorem beaten_cons_of_winner {r : SummaryNode} {won : String} (hdoc : r.docId = some won)
    (hwins : ¬version r < (newest won).getD I64.minValue) (hs : s ∈ rows) :
    Beaten newest winnersSeen (r :: rows) s ↔ Beaten newest (won :: winnersSeen) rows s := by
  refine exists_congr fun docId => and_congr_right fun _ => or_congr_right ?_
  constructor
  · rintro (hseen | ⟨t, ht, hnewest, hsub⟩)
    · exact Or.inl (List.mem_cons_of_mem _ hseen)
    · rcases pair_sublist_cons.mp hsub with hsub | ⟨rfl, -⟩
      · exact Or.inr ⟨t, ht, hnewest, hsub⟩
      · exact Or.inl (Option.some.inj (hdoc.symm.trans ht) ▸ List.mem_cons_self)
  · rintro (hseen | ⟨t, ht, hnewest, hsub⟩)
    · rcases List.mem_cons.mp hseen with rfl | hseen
      · exact Or.inr ⟨r, hdoc, hwins, pair_sublist_cons.mpr (Or.inr ⟨rfl, hs⟩)⟩
      · exact Or.inl hseen
    · exact Or.inr ⟨t, ht, hnewest, hsub.cons r⟩

/-- A row that wins is beaten only by itself, when it comes a second time. -/
theorem mem_of_beaten_cons {r : SummaryNode} {won : String} (hdoc : r.docId = some won)
    (hwins : ¬version r < (newest won).getD I64.minValue) (hseen : won ∉ winnersSeen)
    (h : Beaten newest winnersSeen (r :: rows) r) : r ∈ rows := by
  obtain ⟨docId, hdocId, hwhy⟩ := h
  obtain rfl := Option.some.inj (hdoc.symm.trans hdocId)
  obtain ⟨t, -, -, hsub⟩ := (hwhy.resolve_left hwins).resolve_left hseen
  rcases pair_sublist_cons.mp hsub with hsub | ⟨-, hr⟩
  · exact hsub.subset (by simp)
  · exact hr

theorem mem_losers :
    s ∈ losers newest rows winnersSeen ↔ s ∈ rows ∧ Beaten newest winnersSeen rows s := by
  induction rows generalizing winnersSeen with
  | nil => simp [losers]
  | cons r rows ih =>
      rw [losers]
      cases hdoc : r.docId with
      | none =>
          have hr : ∀ docId, r.docId = some docId →
              version r < (newest docId).getD I64.minValue ∨ docId ∈ winnersSeen := by
            intro docId h
            rw [hdoc] at h
            cases h
          have hnot : ¬Beaten newest winnersSeen rows r := by
            rintro ⟨docId, h, -⟩
            rw [hdoc] at h
            cases h
          rw [beaten_cons_of_not_winner hr, List.mem_cons]
          refine ih.trans ⟨fun h => ⟨Or.inr h.1, h.2⟩, ?_⟩
          rintro ⟨rfl | hs, hbeaten⟩
          · exact absurd hbeaten hnot
          · exact ⟨hs, hbeaten⟩
      | some won =>
          dsimp only
          split_ifs with hlose
          · have hr : ∀ docId, r.docId = some docId →
                version r < (newest docId).getD I64.minValue ∨ docId ∈ winnersSeen := by
              intro docId h
              obtain rfl := Option.some.inj (hdoc.symm.trans h)
              exact hlose
            have hbeaten : Beaten newest winnersSeen rows r :=
              ⟨won, hdoc, hlose.imp_right Or.inl⟩
            rw [beaten_cons_of_not_winner hr, List.mem_cons, List.mem_cons, ih]
            constructor
            · rintro (rfl | ⟨hs, h⟩)
              · exact ⟨Or.inl rfl, hbeaten⟩
              · exact ⟨Or.inr hs, h⟩
            · exact fun h => h.1.imp_right fun hs => ⟨hs, h.2⟩
          · obtain ⟨hwins, hseen⟩ := not_or.mp hlose
            rw [ih, List.mem_cons]
            constructor
            · rintro ⟨hs, h⟩
              exact ⟨Or.inr hs, (beaten_cons_of_winner hdoc hwins hs).mpr h⟩
            · rintro ⟨hs, h⟩
              have hmem : s ∈ rows := by
                rcases hs with rfl | hs
                · exact mem_of_beaten_cons hdoc hwins hseen h
                · exact hs
              exact ⟨hmem, (beaten_cons_of_winner hdoc hwins hmem).mp h⟩

/-- The document and version of a row. -/
def docVersion (s : SummaryNode) : Option (String × Int) := s.docId.map fun docId => (docId, version s)

theorem newestVersions_newest (rows : List SummaryNode) :
    Newest docVersion (fun _ => none) rows (newestVersions rows) := by
  refine .foldl (fun newest s => ?_) rows _
  cases hdoc : s.docId with
  | none => exact .skip (by rw [docVersion, hdoc]; rfl)
  | some docId => exact .raise (by rw [docVersion, hdoc]; rfl)

/-- The losers are the rows that lose. -/
theorem mem_losers_newestVersions : s ∈ losers (newestVersions rows) rows [] ↔ Loses rows s := by
  have hnewest := newestVersions_newest rows
  rw [mem_losers, Loses]
  refine and_congr_right fun hs => exists_congr fun docId => and_congr_right fun hdoc => ?_
  have hversion : ∀ t ∈ rows, t.docId = some docId → ∃ kept, newestVersions rows docId = some kept ∧
      version t ≤ kept := by
    intro t ht htdoc
    exact hnewest.bound t ht docId (version t) (by rw [docVersion, htdoc]; rfl)
  obtain ⟨kept, hkept, hle⟩ := hversion s hs hdoc
  have hbound : ∀ t ∈ rows, t.docId = some docId → version t ≤ kept := by
    intro t ht htdoc
    obtain ⟨kept', hkept', hle'⟩ := hversion t ht htdoc
    obtain rfl := Option.some.inj (hkept.symm.trans hkept')
    exact hle'
  rw [hkept, Option.getD_some]
  constructor
  · rintro (hlt | hnil | ⟨t, ht, hnot, hsub⟩)
    · rcases hnewest.origin docId kept hkept with hnone | ⟨t, ht, hentry⟩
      · cases hnone
      · obtain ⟨_, htdoc, heq⟩ := Option.map_eq_some_iff.mp hentry
        obtain ⟨rfl, rfl⟩ := Prod.mk.inj heq
        exact ⟨t, ht, htdoc, Or.inl hlt⟩
    · cases hnil
    · have htmem : t ∈ rows := hsub.subset List.mem_cons_self
      refine ⟨t, htmem, ht, ?_⟩
      rcases lt_or_eq_of_le (hle.trans (not_lt.mp hnot)) with hlt | heq
      · exact Or.inl hlt
      · exact Or.inr ⟨heq, hsub⟩
  · rintro ⟨t, ht, htdoc, hlt | ⟨heq, hsub⟩⟩
    · exact Or.inl (hlt.trans_le (hbound t ht htdoc))
    · rcases lt_or_ge (version t) kept with hlt | hge
      · exact Or.inl (heq ▸ hlt)
      · exact Or.inr (Or.inr ⟨t, htdoc, not_lt.mpr hge, hsub⟩)

end Losers

section Plan

variable {rows : List SummaryNode} {s t p : SummaryNode} {id : String}

theorem Forest.oneParent (h : Forest rows) : Relator.LeftUnique (Lists rows) := by
  rintro p q s ⟨hp, hs, hps⟩ ⟨hq, -, hqs⟩
  have hpid := (h.parent p hp s hs).mpr hps
  have hqid := (h.parent q hq s hs).mpr hqs
  exact eq_of_pk_eq h.nodup hp hq (Option.some.inj (hpid.symm.trans hqid))

/-- The rows that are cut off for the losers above them. -/
def CutOff (rows : List SummaryNode) : SummaryNode → Prop := Cut (Lists rows) (Loses rows)

theorem CutOff.mem (h : CutOff rows s) : s ∈ rows := by
  obtain ⟨l, hlost, habove⟩ := h
  exact mem_of_above habove hlost.1

/-- What the filter takes out and what it suppresses, also where no row belongs to a document. -/
theorem filterSuperseded_eq (rows : List SummaryNode) :
    filterSupersededDocVersions rows =
      let lost := losers (newestVersions rows) rows []
      (rows.filter fun s => s.id ∉
          lost.flatMap fun l => l.id :: (collectSubtreeIds rows (l.level + 1) l).1,
        lost.flatMap fun l => (collectSubtreeIds rows (l.level + 1) l).2) := by
  unfold filterSupersededDocVersions
  split_ifs with hnone
  · have hlost : losers (newestVersions rows) rows [] = [] := by
      refine List.eq_nil_iff_forall_not_mem.mpr fun s hs => ?_
      obtain ⟨hmem, docId, hdoc, -⟩ := mem_losers_newestVersions.mp hs
      have hno := List.all_eq_true.mp hnone s hmem
      rw [hdoc] at hno
      cases hno
    simp [hlost]
  · rfl

theorem mem_removed (h : Forest rows) :
    (id ∈ (losers (newestVersions rows) rows []).flatMap fun l =>
      l.id :: (collectSubtreeIds rows (l.level + 1) l).1) ↔ ∃ s, CutOff rows s ∧ s.id = id := by
  rw [List.mem_flatMap]
  constructor
  · rintro ⟨l, hl, hid⟩
    have hloses := mem_losers_newestVersions.mp hl
    obtain ⟨s, habove, heq⟩ :=
      (mem_collectSubtreeIds_fst h hloses.1 (Nat.lt_succ_self _)).mp hid
    exact ⟨s, ⟨l, hloses, habove⟩, heq⟩
  · rintro ⟨s, ⟨l, hloses, habove⟩, heq⟩
    refine ⟨l, mem_losers_newestVersions.mpr hloses, ?_⟩
    exact (mem_collectSubtreeIds_fst h hloses.1 (Nat.lt_succ_self _)).mpr ⟨s, habove, heq⟩

/-- The filter takes out the rows that are cut off. -/
theorem mem_filterSuperseded_fst (h : Forest rows) :
    s ∈ (filterSupersededDocVersions rows).1 ↔ s ∈ rows ∧ ¬CutOff rows s := by
  rw [filterSuperseded_eq, List.mem_filter, decide_eq_true_iff, mem_removed h]
  refine and_congr_right fun hs => not_congr ⟨?_, fun hcut => ⟨s, hcut, rfl⟩⟩
  rintro ⟨t, hcut, heq⟩
  rwa [eq_of_pk_eq h.nodup hcut.mem hs heq] at hcut

/-- The filter suppresses the chunks under the losers. -/
theorem mem_filterSuperseded_snd (h : Forest rows) :
    id ∈ (filterSupersededDocVersions rows).2 ↔ ∃ l, Loses rows l ∧ Under rows l id := by
  rw [filterSuperseded_eq, List.mem_flatMap]
  constructor
  · rintro ⟨l, hl, hid⟩
    have hloses := mem_losers_newestVersions.mp hl
    rw [collectSubtreeIds_snd, mem_collectDescendantChunks h hloses.1 (Nat.lt_succ_self _)] at hid
    exact ⟨l, hloses, hid⟩
  · rintro ⟨l, hloses, hunder⟩
    refine ⟨l, mem_losers_newestVersions.mpr hloses, ?_⟩
    rw [collectSubtreeIds_snd]
    exact (mem_collectDescendantChunks h hloses.1 (Nat.lt_succ_self _)).mpr hunder

/-- The rows that the plan of a tree is made for. -/
def keptRows (rows : List SummaryNode) : List SummaryNode := (filterSupersededDocVersions rows).1

theorem keptRows_sublist (rows : List SummaryNode) : (keptRows rows).Sublist rows := by
  rw [keptRows, filterSuperseded_eq]
  exact List.filter_sublist

/-- The links among the kept rows are the links to what is left. -/
theorem lists_keptRows (h : Forest rows) : Lists (keptRows rows) = Left (Lists rows) (Loses rows) := by
  funext p s
  refine propext ⟨?_, ?_⟩
  · rintro ⟨hp, hs, hchild⟩
    have hkept := (mem_filterSuperseded_fst h).mp hs
    exact ⟨⟨((mem_filterSuperseded_fst h).mp hp).1, hkept.1, hchild⟩, hkept.2⟩
  · rintro ⟨hlink, hleft⟩
    have hp : ¬CutOff rows p := fun hcut => hleft (hcut.below (.single hlink))
    exact ⟨(mem_filterSuperseded_fst h).mpr ⟨hlink.1, hp⟩,
      (mem_filterSuperseded_fst h).mpr ⟨hlink.2.1, hleft⟩, hlink.2.2⟩

theorem forest_keptRows (h : Forest rows) : Forest (keptRows rows) where
  nodup := h.nodup.sublist ((keptRows_sublist rows).map _)
  falls := by
    rw [lists_keptRows h]
    exact fun p s hleft => h.falls p s hleft.1
  parent := fun p hp s hs =>
    h.parent p ((keptRows_sublist rows).subset hp) s ((keptRows_sublist rows).subset hs)

theorem isMaximal_iff (h : Forest rows) (hs : s ∈ rows) :
    isMaximal rows s = true ↔ ∀ p, ¬Lists rows p s := by
  unfold isMaximal
  cases hparent : s.parentId with
  | none =>
      refine iff_of_true rfl fun p hlink => ?_
      have heq := (h.parent p hlink.1 s hs).mpr hlink.2.2
      rw [hparent] at heq
      cases heq
  | some parent =>
      rw [decide_eq_true_iff]
      constructor
      · rintro hno p hlink
        have heq := (h.parent p hlink.1 s hs).mpr hlink.2.2
        obtain rfl := Option.some.inj (hparent.symm.trans heq)
        exact hno (List.mem_map_of_mem hlink.1)
      · intro hno hmem
        obtain ⟨p, hp, rfl⟩ := List.mem_map.mp hmem
        exact hno p ⟨hp, hs, (h.parent p hp s hs).mp hparent⟩

/-- The topmost kept rows are the exposed rows that do not lose. -/
theorem maximal_keptRows (h : Forest rows) :
    s ∈ keptRows rows ∧ isMaximal (keptRows rows) s = true ↔ Exposed rows s ∧ ¬Loses rows s := by
  constructor
  · rintro ⟨hs, hmax⟩
    have hkept := (mem_filterSuperseded_fst h).mp hs
    rw [isMaximal_iff (forest_keptRows h) hs, lists_keptRows h] at hmax
    obtain ⟨hlost, htop⟩ := top_left_iff.mp ⟨hkept.2, hmax⟩
    exact ⟨⟨hkept.1, htop⟩, hlost⟩
  · rintro ⟨⟨hs, htop⟩, hlost⟩
    obtain ⟨hcut, hmax⟩ := top_left_iff.mpr ⟨hlost, htop⟩
    have hkept : s ∈ keptRows rows := (mem_filterSuperseded_fst h).mpr ⟨hs, hcut⟩
    rw [← lists_keptRows h] at hmax
    exact ⟨hkept, (isMaximal_iff (forest_keptRows h) hkept).mpr hmax⟩

/-- A chunk under no loser is under a kept row exactly when it was under it before. -/
theorem under_keptRows (h : Forest rows) (hid : id ∉ rows.map SummaryNode.id)
    (hno : ∀ l, Loses rows l → ¬Under rows l id) : Under (keptRows rows) s id ↔ Under rows s id := by
  have hid' : id ∉ (keptRows rows).map SummaryNode.id :=
    fun hmem => hid (((keptRows_sublist rows).map _).subset hmem)
  unfold Under
  rw [lists_keptRows h]
  constructor
  · rintro ⟨p, habove, hchild, -⟩
    exact ⟨p, above_of_left habove, hchild, hid⟩
  · rintro ⟨p, habove, hchild, -⟩
    refine ⟨p, above_left ?_ habove, hchild, hid'⟩
    rintro ⟨l, hloses, hlp⟩
    exact hno l hloses ⟨p, hlp, hchild, hid⟩

/-- All that the walk over the kept rows collects is present exactly when no loser and only present
chunks are under the row. -/
theorem collected_present_iff (h : Forest rows) {present : List String}
    (hpresent : ∀ id ∈ present, id ∉ rows.map SummaryNode.id) (hs : s ∈ keptRows rows) :
    (∀ id, Under (keptRows rows) s id → id ∈ present) ↔
      (∀ l, ReflTransGen (Lists rows) s l → ¬Loses rows l) ∧ ∀ id, Under rows s id → id ∈ present := by
  have hcut := ((mem_filterSuperseded_fst h).mp hs).2
  have hnone : (∀ l, ReflTransGen (Lists rows) s l → ¬Loses rows l) →
      ∀ p, ReflTransGen (Lists rows) s p → ReflTransGen (Lists (keptRows rows)) s p := by
    intro hno p habove
    rw [lists_keptRows h]
    exact above_left (not_cut_below h.oneParent hcut hno habove) habove
  constructor
  · intro hall
    have hno : ∀ l, ReflTransGen (Lists rows) s l → ¬Loses rows l := by
      intro l habove hloses
      obtain ⟨p, r, hsp, hlink, hr⟩ := exists_exit hcut habove hloses
      have hgone : r.id ∉ (keptRows rows).map SummaryNode.id := by
        intro hmem
        obtain ⟨r', hr', heq⟩ := List.mem_map.mp hmem
        obtain ⟨hr'mem, hr'cut⟩ := (mem_filterSuperseded_fst h).mp hr'
        rw [eq_of_pk_eq h.nodup hr'mem hlink.2.1 heq] at hr'cut
        exact hr'cut hr
      rw [← lists_keptRows h] at hsp
      refine hpresent r.id (hall r.id ⟨p, hsp, hlink.2.2, hgone⟩) ?_
      exact List.mem_map_of_mem hlink.2.1
    refine ⟨hno, ?_⟩
    rintro id ⟨p, habove, hchild, hid⟩
    refine hall id ⟨p, hnone hno p habove, hchild, fun hmem => hid ?_⟩
    exact ((keptRows_sublist rows).map _).subset hmem
  · rintro ⟨hno, hall⟩ id ⟨p, habove, hchild, hid⟩
    have habove' : ReflTransGen (Lists rows) s p := by
      rw [lists_keptRows h] at habove
      exact above_of_left habove
    refine hall id ⟨p, habove', hchild, fun hmem => hid ?_⟩
    obtain ⟨t, ht, rfl⟩ := List.mem_map.mp hmem
    have hp := mem_of_above habove' ((keptRows_sublist rows).subset hs)
    have htleft := not_cut_below h.oneParent hcut hno (habove'.tail ⟨hp, ht, hchild⟩)
    exact List.mem_map_of_mem ((mem_filterSuperseded_fst h).mpr ⟨ht, htleft⟩)

/-- The plan takes the rows that stand. -/
theorem mem_maximalRows (h : Forest rows) {restrictToPresent : Option (List String)}
    (hpresent : ∀ present, restrictToPresent = some present → ∀ id ∈ present,
      id ∉ rows.map SummaryNode.id) :
    s ∈ maximalRows (keptRows rows) restrictToPresent ↔ Stands rows restrictToPresent s := by
  have hsplit : s ∈ maximalRows (keptRows rows) restrictToPresent ↔
      (s ∈ keptRows rows ∧ isMaximal (keptRows rows) s = true) ∧
        ∀ present, restrictToPresent = some present →
          ∀ id, Under (keptRows rows) s id → id ∈ present := by
    rw [maximalRows, List.mem_filter, Bool.and_eq_true, ← and_assoc]
    refine and_congr_right fun hs => ?_
    cases restrictToPresent with
    | none => simp
    | some present =>
        simp only [Option.map_some, Option.getD_some, List.all_eq_true, decide_eq_true_iff,
          Option.some.injEq, forall_eq']
        refine forall_congr' fun id => imp_congr_left ?_
        exact mem_collectDescendantChunks (forest_keptRows h) hs.1 (Nat.lt_succ_self _)
  rw [hsplit, Stands, ← and_assoc, ← maximal_keptRows h]
  refine and_congr_right fun hs => forall_congr' fun present => forall_congr' fun heq => ?_
  exact collected_present_iff h (hpresent present heq) hs.1

/-- The plan leaves raw the chunks that are under no loser and under no row that stands. -/
theorem raw_iff (h : Forest rows) {restrictToPresent : Option (List String)}
    (hpresent : ∀ present, restrictToPresent = some present → ∀ id ∈ present,
      id ∉ rows.map SummaryNode.id) (hid : id ∉ rows.map SummaryNode.id) :
    id ∉ (planCover (keptRows rows) restrictToPresent).coveredChunkIds ∧
        id ∉ (filterSupersededDocVersions rows).2 ↔
      (∀ l, Loses rows l → ¬Under rows l id) ∧
        ∀ s, Stands rows restrictToPresent s → ¬Under rows s id := by
  have hcovered : id ∈ (planCover (keptRows rows) restrictToPresent).coveredChunkIds ↔
      ∃ s, Stands rows restrictToPresent s ∧ Under (keptRows rows) s id := by
    rw [planCover, List.mem_flatMap]
    refine exists_congr fun s => ?_
    rw [mem_maximalRows h hpresent]
    refine and_congr_right fun hstands => ?_
    have hs := ((maximal_keptRows h).mpr ⟨hstands.1, hstands.2.1⟩).1
    exact mem_collectDescendantChunks (forest_keptRows h) hs (Nat.lt_succ_self _)
  rw [hcovered, mem_filterSuperseded_snd h, and_comm]
  push Not
  refine and_congr_right fun hno => forall_congr' fun s => imp_congr_right fun _ => ?_
  rw [under_keptRows h hid hno]

/-- A chunk that different rows list belongs to revisions of one document, of which only one does not
lose, so that at most one exposed row is above it. -/
theorem exposed_unique (h : Forest rows)
    (hshared : ∀ p ∈ rows, ∀ q ∈ rows, id ∈ p.childIds → id ∈ q.childIds → p = q ∨
      p.docId.isSome ∧ p.docId = q.docId)
    (hno : ∀ l, Loses rows l → ¬Under rows l id) (hs : Exposed rows s) (ht : Exposed rows t)
    (hsid : Under rows s id) (htid : Under rows t id) : s = t := by
  obtain ⟨p, hsp, hpid, hid⟩ := hsid
  obtain ⟨q, htq, hqid, -⟩ := htid
  have hp := mem_of_above hsp hs.1
  have hq := mem_of_above htq ht.1
  have hwins : ∀ a ∈ rows, id ∈ a.childIds → ¬Loses rows a :=
    fun a _ haid hloses => hno a hloses ⟨a, .refl, haid, hid⟩
  have hsame : p = q := by
    by_contra hne
    obtain ⟨hsome, hdoc⟩ := (hshared p hp q hq hpid hqid).resolve_left hne
    obtain ⟨docId, hpdoc⟩ := Option.isSome_iff_exists.mp hsome
    have hqdoc : q.docId = some docId := hdoc.symm.trans hpdoc
    rcases lt_trichotomy (version p) (version q) with hlt | heq | hlt
    · exact hwins p hp hpid ⟨hp, docId, hpdoc, q, hq, hqdoc, Or.inl hlt⟩
    · rcases pair_sublist hp hq hne with hsub | hsub
      · exact hwins q hq hqid ⟨hq, docId, hqdoc, p, hp, hpdoc, Or.inr ⟨heq.symm, hsub⟩⟩
      · exact hwins p hp hpid ⟨hp, docId, hpdoc, q, hq, hqdoc, Or.inr ⟨heq, hsub⟩⟩
    · exact hwins q hq hqid ⟨hq, docId, hqdoc, p, hp, hpdoc, Or.inl hlt⟩
  exact top_unique h.oneParent hs.2 ht.2 (hsame ▸ hsp) htq

end Plan

end TinyCortex.Retrieval
