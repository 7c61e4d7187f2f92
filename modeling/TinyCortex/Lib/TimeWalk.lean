import Mathlib

/-! A log walked by descending time, in an unspecified order where times are equal. The walk shows a part
of the log in reverse order, whatever the order among equals, exactly if the part's times ascend
strictly. -/

namespace TinyCortex

variable {γ : Type*} (time : γ → Int)

/-- A walk shows every entry, later times first. -/
structure TimeWalk (log order : List γ) : Prop where
  perm : order.Perm log
  descending : order.Pairwise fun a b => time b ≤ time a

namespace TimeWalk

variable {time} {log order : List γ} {p q : γ → Bool}

/-- The walk that leaves equals as they are. -/
theorem insertionSort (log : List γ) :
    TimeWalk time log (log.insertionSort fun a b => time b ≤ time a) where
  perm := List.perm_insertionSort _ _
  descending := by
    have htotal : Std.Total fun a b : γ => time b ≤ time a := ⟨fun a b => le_total _ _⟩
    have htrans : IsTrans γ fun a b => time b ≤ time a := ⟨fun a b c hab hbc => hbc.trans hab⟩
    exact List.pairwise_insertionSort _ log

/-- Strictly ascending times leave no choice. -/
theorem filter_eq_reverse (h : TimeWalk time log order)
    (hascending : (log.filter p).Pairwise fun a b => time a < time b) :
    order.filter p = (log.filter p).reverse := by
  have hperm : (order.filter p).Perm (log.filter p).reverse :=
    (h.perm.filter p).trans (List.reverse_perm _).symm
  have hreverse : (log.filter p).reverse.Pairwise fun a b => time b ≤ time a :=
    List.pairwise_reverse.mpr (hascending.imp le_of_lt)
  refine hperm.eq_of_pairwise (fun a b ha hb hab hba => ?_) (h.descending.filter p) hreverse
  by_contra hne
  have hdistinct : (log.filter p).Pairwise fun a b => time a ≠ time b := hascending.imp ne_of_lt
  have hmem : a ∈ log.filter p := List.mem_reverse.mp (hperm.subset ha)
  have hsymm : Std.Symm fun a b : γ => time a ≠ time b := ⟨fun a b => Ne.symm⟩
  exact hdistinct.forall hmem (List.mem_reverse.mp hb) hne (le_antisymm hba hab)

theorem not_swapped {log : List γ} (hnodup : log.Nodup) {a b : γ} (h : [a, b].Sublist log) :
    ¬[b, a].Sublist log := by
  induction log with
  | nil => cases h
  | cons first rest ih =>
      obtain ⟨hfirst, hrest⟩ := List.nodup_cons.mp hnodup
      intro hswapped
      rw [List.cons_sublist_cons'] at h hswapped
      rcases h with h | ⟨rfl, hb⟩
      · rcases hswapped with hswapped | ⟨rfl, -⟩
        · exact ih hrest h hswapped
        · exact hfirst (h.subset (by simp))
      · rcases hswapped with hswapped | ⟨rfl, -⟩
        · exact hfirst (hswapped.subset (by simp))
        · exact hfirst (hb.subset (by simp))

/-- Every walk shows, in reverse order, the part that a predicate marks, by a test of its own, exactly
if the test is right and the part's times ascend strictly. -/
theorem filter_eq_reverse_iff (hnodup : log.Nodup) :
    (∀ order, TimeWalk time log order → order.filter p = (log.filter q).reverse) ↔
      (∀ c ∈ log, p c = q c) ∧ (log.filter q).Pairwise fun a b => time a < time b := by
  constructor
  · intro h
    have hstable := h _ (insertionSort log)
    have hsame : ∀ c ∈ log, p c = q c := by
      intro c hc
      have hmem : c ∈ (log.insertionSort fun a b => time b ≤ time a).filter p ↔
          c ∈ (log.filter q).reverse := by rw [hstable]
      rw [List.mem_filter, List.mem_insertionSort, List.mem_reverse, List.mem_filter,
        and_iff_right hc, and_iff_right hc] at hmem
      exact Bool.eq_iff_iff.mpr hmem
    refine ⟨hsame, List.pairwise_iff_forall_sublist.mpr fun {a b} hpair => ?_⟩
    by_contra hle
    have hlog : [a, b].Sublist log := hpair.trans List.filter_sublist
    have hmarked : ∀ c ∈ [a, b], p c := by
      intro c hc
      obtain ⟨hmem, hq⟩ := List.mem_filter.mp (hpair.subset hc)
      rw [hsame c hmem]
      exact hq
    have hsorted : [a, b].Sublist (log.insertionSort fun a b => time b ≤ time a) :=
      List.pair_sublist_insertionSort (not_lt.mp hle) hlog
    have hfilter := hsorted.filter p
    rw [List.filter_eq_self.mpr hmarked, hstable, ← List.reverse_sublist,
      List.reverse_reverse] at hfilter
    exact not_swapped hnodup hlog (hfilter.trans List.filter_sublist)
  · rintro ⟨hsame, hascending⟩ order horder
    have hfilter : log.filter p = log.filter q := List.filter_congr hsame
    rw [← hfilter] at hascending ⊢
    exact horder.filter_eq_reverse hascending

end TimeWalk
end TinyCortex
