import Mathlib

/-! A filter on rows that is put before a filter on what the rows give. -/

namespace TinyCortex.Prefilter

variable {α β : Type*} {f : α → Option β} {p : α → Bool}

theorem filterMap_filter_sublist (f : α → Option β) (p : α → Bool) (rows : List α) :
    ((rows.filter p).filterMap f).Sublist (rows.filterMap f) := List.filter_sublist.filterMap f

/-- The first filter loses nothing exactly when it passes every row that gives something. -/
theorem filterMap_filter_eq_iff {rows : List α} :
    (rows.filter p).filterMap f = rows.filterMap f ↔ ∀ a ∈ rows, (f a).isSome = true → p a = true := by
  induction rows with
  | nil => exact iff_of_true rfl fun _ ha => absurd ha List.not_mem_nil
  | cons a rows ih =>
      rw [List.forall_mem_cons, ← ih]
      by_cases hp : p a = true
      · rw [List.filter_cons_of_pos hp]
        cases hf : f a with
        | none => simp [hf]
        | some b => simp [hf, hp]
      · rw [List.filter_cons_of_neg hp]
        cases hf : f a with
        | none => simp [hf]
        | some b =>
            refine iff_of_false (fun heq => ?_) fun h => hp (h.1 rfl)
            have hlen := (filterMap_filter_sublist f p rows).length_le
            rw [heq, List.filterMap_cons_some hf, List.length_cons] at hlen
            exact absurd hlen (Nat.not_succ_le_self _)

theorem filterMap_filter_perm_iff {rows : List α} :
    ((rows.filter p).filterMap f).Perm (rows.filterMap f) ↔ ∀ a ∈ rows, (f a).isSome = true → p a = true := by
  rw [← filterMap_filter_eq_iff]
  constructor
  · exact fun h => (filterMap_filter_sublist f p rows).eq_of_length h.length_eq
  · exact List.Perm.of_eq

/-- Both filters give what the second one alone gives exactly when the first one passes every row that gives something
that the second one passes. -/
theorem pushdown_perm_iff {q : β → Bool} {rows : List α} :
    (((rows.filter p).filterMap f).filter q).Perm ((rows.filterMap f).filter q) ↔
      ∀ a ∈ rows, ∀ b, f a = some b → q b = true → p a = true := by
  rw [List.filter_filterMap, List.filter_filterMap, filterMap_filter_perm_iff]
  refine forall_congr' fun a => imp_congr_right fun _ => ?_
  cases f a with
  | none => simp
  | some b => simp [Option.filter]

end TinyCortex.Prefilter

/-! A stable sort moves the elements that one looks at the same way whatever stands between them. -/

namespace TinyCortex.StableSort

variable {α : Type*} {le : α → α → Bool}

/-- A list splits in one way at the first element that another one goes before. -/
theorem append_unique {before after before' after' : List α} {a : α}
    (hbefore : ∀ b ∈ before, le a b = false) (hafter : ∀ b ∈ after, le a b = true)
    (hbefore' : ∀ b ∈ before', le a b = false) (hafter' : ∀ b ∈ after', le a b = true)
    (h : before ++ after = before' ++ after') : before = before' ∧ after = after' := by
  have htake : ∀ {xs ys : List α}, (∀ b ∈ xs, le a b = false) → (∀ b ∈ ys, le a b = true) →
      (xs ++ ys).filter (fun b => !le a b) = xs ∧ (xs ++ ys).filter (le a) = ys := by
    intro xs ys hxs hys
    have hnone : ys.filter (fun b => !le a b) = [] :=
      List.filter_eq_nil_iff.mpr fun b hb => by simp [hys b hb]
    have hnone' : xs.filter (le a) = [] := List.filter_eq_nil_iff.mpr fun b hb => by simp [hxs b hb]
    have hall : xs.filter (fun b => !le a b) = xs := List.filter_eq_self.mpr fun b hb => by simp [hxs b hb]
    rw [List.filter_append, List.filter_append, hnone, hnone', hall, List.filter_eq_self.mpr hys]
    exact ⟨List.append_nil xs, List.nil_append ys⟩
  obtain ⟨hleft, hright⟩ := htake hbefore hafter
  obtain ⟨hleft', hright'⟩ := htake hbefore' hafter'
  exact ⟨hleft.symm.trans (h ▸ hleft'), hright.symm.trans (h ▸ hright')⟩

/-- Sorting what is left over gives what is left over of the sorted list. -/
theorem filter_mergeSort (htrans : ∀ a b c, le a b → le b c → le a c) (htotal : ∀ a b, le a b || le b a)
    (p : α → Bool) (l : List α) : (l.mergeSort le).filter p = (l.filter p).mergeSort le := by
  induction l with
  | nil => simp
  | cons a l ih =>
      obtain ⟨before, after, hcons, hsorted, hbefore⟩ := List.mergeSort_cons htrans htotal a l
      have hpairwise := List.pairwise_mergeSort htrans htotal (a :: l)
      rw [hcons, List.pairwise_append, List.pairwise_cons] at hpairwise
      have hafter := hpairwise.2.1.1
      rw [hsorted, List.filter_append] at ih
      rw [hcons, List.filter_append]
      by_cases hp : p a
      · rw [List.filter_cons_of_pos hp, List.filter_cons_of_pos hp]
        obtain ⟨before', after', hcons', hsorted', hbefore'⟩ := List.mergeSort_cons htrans htotal a (l.filter p)
        have hpairwise' := List.pairwise_mergeSort htrans htotal (a :: l.filter p)
        rw [hcons', List.pairwise_append, List.pairwise_cons] at hpairwise'
        have hsplit : before.filter p = before' ∧ after.filter p = after' := by
          refine append_unique (fun b hb => ?_) (fun b hb => ?_) (fun b hb => ?_) hpairwise'.2.1.1
            (ih.trans hsorted')
          · simpa using hbefore b (List.mem_of_mem_filter hb)
          · exact hafter b (List.mem_of_mem_filter hb)
          · simpa using hbefore' b hb
        rw [hcons', hsplit.1, hsplit.2]
      · rw [List.filter_cons_of_neg hp, List.filter_cons_of_neg hp, ih]

/-- Sorting by a key brings back the order in which the keys ascend. -/
theorem mergeSort_of_ascending {κ : Type*} [LinearOrder κ] (key : α → κ) {l sorted : List α} (hperm : l.Perm sorted)
    (hascending : sorted.Pairwise fun a b => key a < key b) : l.mergeSort (fun a b => key a ≤ key b) = sorted := by
  have hsorted : (l.mergeSort fun a b => key a ≤ key b).Pairwise fun a b => key a ≤ key b := by
    refine (List.pairwise_mergeSort (fun a b c hab hbc => ?_) (fun a b => ?_) l).imp fun h => of_decide_eq_true h
    · exact decide_eq_true (le_trans (of_decide_eq_true hab) (of_decide_eq_true hbc))
    · rw [Bool.or_eq_true, decide_eq_true_iff, decide_eq_true_iff]
      exact le_total _ _
  have hinj : ∀ a ∈ sorted, ∀ b ∈ sorted, key a = key b → a = b := by
    have hnodup : (sorted.map key).Nodup :=
      (List.pairwise_map.mpr hascending).imp fun hlt => hlt.ne
    exact fun a ha b hb => List.inj_on_of_nodup_map hnodup ha hb
  refine ((List.mergeSort_perm l _).trans hperm).eq_of_pairwise (fun a b ha hb hab hba => ?_) hsorted
    (hascending.imp le_of_lt)
  exact hinj a (hperm.mem_iff.mp (List.mem_mergeSort.mp ha)) b hb (le_antisymm hab hba)

end TinyCortex.StableSort

/-! The first few elements of a ranking: an element is among them when few enough go before it. -/

namespace TinyCortex.Ranking

variable {α : Type*} {before : α → α → Bool}

/-- No one goes before itself, and of two only one before the other. -/
structure Strict (before : α → α → Bool) : Prop where
  irrefl : ∀ a, before a a = false
  asymm : ∀ a b, before a b = true → before b a = false

theorem mem_take_iff (h : Strict before) {ranking : List α} (hranked : ranking.Pairwise fun a b => before a b = true)
    {n : Nat} {a : α} : a ∈ ranking.take n ↔ a ∈ ranking ∧ ranking.countP (before · a) < n := by
  induction ranking generalizing n with
  | nil => simp
  | cons b rest ih =>
      obtain ⟨hfirst, hrest⟩ := List.pairwise_cons.mp hranked
      cases n with
      | zero => simp
      | succ n =>
          rw [List.take_succ_cons, List.mem_cons, List.mem_cons, List.countP_cons, ih hrest]
          by_cases hab : a = b
          · subst hab
            have hnone : rest.countP (before · a) = 0 := by
              apply List.countP_eq_zero.mpr
              intro c hc
              rw [h.asymm a c (hfirst c hc)]
              exact Bool.false_ne_true
            rw [hnone, h.irrefl]
            simp
          · simp only [hab, false_or]
            apply and_congr_right
            intro ha
            rw [hfirst a ha, if_pos rfl]
            omega

/-- The first few of those that count. -/
theorem mem_take_filter_iff (h : Strict before) {ranking : List α}
    (hranked : ranking.Pairwise fun a b => before a b = true) {p : α → Bool} {n : Nat} {a : α} :
    a ∈ (ranking.filter p).take n ↔
      a ∈ ranking ∧ p a = true ∧ ranking.countP (fun b => p b && before b a) < n := by
  have hcount : (ranking.filter p).countP (before · a) = ranking.countP fun b => p b && before b a := by
    rw [List.countP_filter]
    exact List.countP_congr fun b _ => by rw [Bool.and_comm]
  rw [mem_take_iff h (hranked.filter p), List.mem_filter, hcount, and_assoc]

/-- The first few results that count are those of the first few inputs with such a result. -/
theorem take_filter_filterMap {β : Type*} (f : α → Option β) (p : β → Bool) (l : List α) (n : Nat) :
    ((l.filterMap f).filter p).take n = ((l.filter fun a => (f a).any p).take n).filterMap f := by
  induction l generalizing n with
  | nil => simp
  | cons a l ih =>
      rw [List.filterMap_cons, List.filter_cons]
      cases hfa : f a with
      | none => exact ih n
      | some b =>
          dsimp only
          rw [List.filter_cons, Option.any_some]
          cases hp : p b with
          | false => exact ih n
          | true =>
              cases n with
              | zero => rfl
              | succ n =>
                  rw [if_pos rfl, if_pos rfl, List.take_succ_cons, List.take_succ_cons, List.filterMap_cons, hfa, ih]

end TinyCortex.Ranking
