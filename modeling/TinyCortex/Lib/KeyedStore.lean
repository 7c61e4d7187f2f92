import TinyCortex.Lib.Table

/-! Stores that map a namespace and a key to a content, seen through their operations: an exact map, whose rows are
listed in any order. -/

namespace TinyCortex

structure KeyedStore (σ ns κ ν : Type*) [DecidableEq ns] [DecidableEq κ] where
  empty : σ
  get : σ → ns → κ → Option ν
  store : σ → ns → κ → ν → σ
  forget : σ → ns → κ → σ
  list : σ → ns → List (κ × ν)
  namespaces : σ → List ns
  get_empty : ∀ n k, get empty n k = none
  get_store : ∀ s n k v n' k', get (store s n k v) n' k' = if n' = n ∧ k' = k then some v else get s n' k'
  get_forget : ∀ s n k n' k', get (forget s n k) n' k' = if n' = n ∧ k' = k then none else get s n' k'
  mem_list : ∀ s n k v, (k, v) ∈ list s n ↔ get s n k = some v
  nodup_list : ∀ s n, ((list s n).map Prod.fst).Nodup
  mem_namespaces : ∀ s n, n ∈ namespaces s ↔ ∃ k v, get s n k = some v
  nodup_namespaces : ∀ s, (namespaces s).Nodup

namespace KeyedStore

variable {σ ns κ ν : Type*} [DecidableEq ns] [DecidableEq κ]

/-- What every row has when nothing is there, and a stored row brings with it, is had by all rows. -/
theorem get_store_of (m : KeyedStore σ ns κ ν) {Inv : ns → κ → ν → Prop} {s : σ}
    (hinv : ∀ n k v, m.get s n k = some v → Inv n k v) {n : ns} {k : κ} {v : ν} (hnew : Inv n k v) :
    ∀ n' k' v', m.get (m.store s n k v) n' k' = some v' → Inv n' k' v' := by
  intro n' k' v' hget
  rw [m.get_store] at hget
  split_ifs at hget with hsame
  · obtain ⟨rfl, rfl⟩ := hsame
    obtain rfl := Option.some.inj hget
    exact hnew
  · exact hinv n' k' v' hget

theorem get_forget_of (m : KeyedStore σ ns κ ν) {Inv : ns → κ → ν → Prop} {s : σ}
    (hinv : ∀ n k v, m.get s n k = some v → Inv n k v) (n : ns) (k : κ) :
    ∀ n' k' v', m.get (m.forget s n k) n' k' = some v' → Inv n' k' v' := by
  intro n' k' v' hget
  rw [m.get_forget] at hget
  split_ifs at hget
  exact hinv n' k' v' hget

/-! ### Rows in a list -/

section Rows

open Table

variable (ns κ ν) in
/-- Rows with distinct keys. -/
abbrev Rows := { rows : List ((ns × κ) × ν) // (rows.map Prod.fst).Nodup }

/-- The store of the rows themselves. -/
def ofRows : KeyedStore (Rows ns κ ν) ns κ ν where
  empty := ⟨[], List.nodup_nil⟩
  get s n k := (lookup Prod.fst (n, k) s.1).map Prod.snd
  store s n k v := ⟨upsert Prod.fst ((n, k), v) s.1, nodup_upsert s.2⟩
  forget s n k := ⟨s.1.filter fun row => row.1 ≠ (n, k), (List.filter_sublist.map _).nodup s.2⟩
  list s n := (s.1.filter fun row => row.1.1 = n).map fun row => (row.1.2, row.2)
  namespaces s := (s.1.map fun row => row.1.1).dedup
  get_empty _ _ := rfl
  get_store s n k v n' k' := by
    by_cases hsame : n' = n ∧ k' = k
    · obtain ⟨rfl, rfl⟩ := hsame
      have hself := @lookup_upsert_self _ _ _ Prod.fst (((n', k'), v) : (ns × κ) × ν) s.1
      rw [if_pos ⟨Eq.refl _, Eq.refl _⟩]
      exact congrArg (Option.map Prod.snd) hself
    · have hne : (n, k) ≠ (n', k') := fun heq => hsame ⟨(Prod.mk.inj heq).1.symm, (Prod.mk.inj heq).2.symm⟩
      have hother := @lookup_upsert_of_ne _ _ _ Prod.fst (((n, k), v) : (ns × κ) × ν) _ hne s.1
      rw [if_neg hsame]
      exact congrArg (Option.map Prod.snd) hother
  get_forget s n k n' k' := by
    by_cases hsame : n' = n ∧ k' = k
    · obtain ⟨rfl, rfl⟩ := hsame
      have hnone : lookup Prod.fst (n', k') (s.1.filter fun row => row.1 ≠ (n', k')) = none := by
        rw [lookup_eq_none_iff, List.mem_map]
        rintro ⟨row, hrow, hkey⟩
        exact of_decide_eq_true (List.mem_filter.mp hrow).2 hkey
      rw [if_pos ⟨Eq.refl _, Eq.refl _⟩, hnone, Option.map_none]
    · rw [if_neg hsame]
      refine congrArg (Option.map Prod.snd) (lookup_filter_of_keep fun row _ hkey => ?_)
      rw [decide_eq_true_eq, hkey]
      exact fun heq => hsame ⟨(Prod.mk.inj heq).1, (Prod.mk.inj heq).2⟩
  mem_list s n k v := by
    rw [List.mem_map, Option.map_eq_some_iff]
    constructor
    · rintro ⟨row, hrow, heq⟩
      obtain ⟨hmem, hn⟩ := List.mem_filter.mp hrow
      obtain ⟨hk, hv⟩ := Prod.mk.inj heq
      have hkey : row.1 = (n, k) := Prod.ext (of_decide_eq_true hn) hk
      exact ⟨row, by rw [← hkey, lookup_of_mem s.2 hmem], hv⟩
    · rintro ⟨row, hrow, hv⟩
      obtain ⟨hmem, hkey⟩ := lookup_mem hrow
      refine ⟨row, List.mem_filter.mpr ⟨hmem, decide_eq_true (congrArg Prod.fst hkey)⟩, ?_⟩
      exact Prod.ext (congrArg Prod.snd hkey) hv
  nodup_list s n := by
    rw [List.map_map]
    have hkeys : ((s.1.filter fun row => row.1.1 = n).map Prod.fst).Nodup := (List.filter_sublist.map _).nodup s.2
    refine List.Nodup.of_map (fun k => (n, k)) ?_
    rw [List.map_map]
    convert hkeys using 1
    refine List.map_congr_left fun row hrow => ?_
    exact Prod.ext (of_decide_eq_true (List.mem_filter.mp hrow).2).symm (Eq.refl _)
  mem_namespaces s n := by
    rw [List.mem_dedup, List.mem_map]
    constructor
    · rintro ⟨row, hrow, rfl⟩
      exact ⟨row.1.2, row.2, congrArg (Option.map Prod.snd) (lookup_of_mem s.2 hrow)⟩
    · rintro ⟨k, v, hget⟩
      obtain ⟨row, hrow, -⟩ := Option.map_eq_some_iff.mp hget
      obtain ⟨hmem, hkey⟩ := lookup_mem hrow
      exact ⟨row, hmem, congrArg Prod.fst hkey⟩
  nodup_namespaces s := List.nodup_dedup _

end Rows

end KeyedStore
end TinyCortex

/-! Rows pushed one by one into the group of their key, a new one where there is none. -/

namespace TinyCortex.Grouping

variable {κ ρ : Type*} [DecidableEq κ] {key : ρ → κ}

/-- `entry(key).or_default().push(row)`. -/
def push (key : ρ → κ) (row : ρ) : List (κ × List ρ) → List (κ × List ρ)
  | [] => [(key row, [row])]
  | group :: groups =>
      if group.1 = key row then (group.1, group.2 ++ [row]) :: groups else group :: push key row groups

def groups (key : ρ → κ) (rows : List ρ) : List (κ × List ρ) := rows.foldl (fun found row => push key row found) []

theorem groups_concat (rows : List ρ) (row : ρ) : groups key (rows ++ [row]) = push key row (groups key rows) := by
  rw [groups, List.foldl_append]
  rfl

theorem flatMap_push (row : ρ) (found : List (κ × List ρ)) :
    ((push key row found).flatMap Prod.snd).Perm (found.flatMap Prod.snd ++ [row]) := by
  induction found with
  | nil => exact List.Perm.refl _
  | cons group found ih =>
      unfold push
      split_ifs
      · rw [List.flatMap_cons, List.flatMap_cons, List.append_assoc, List.append_assoc]
        exact List.perm_append_comm.append_left _
      · rw [List.flatMap_cons, List.flatMap_cons, List.append_assoc]
        exact ih.append_left _

/-- Every row is in the groups as often as it is pushed. -/
theorem flatMap_groups (key : ρ → κ) (rows : List ρ) : ((groups key rows).flatMap Prod.snd).Perm rows := by
  induction rows using List.reverseRecOn with
  | nil => exact List.Perm.refl _
  | append_singleton rows row ih =>
      rw [groups_concat]
      exact (flatMap_push row _).trans (ih.append_right _)

theorem keys_push (row : ρ) (found : List (κ × List ρ)) :
    (push key row found).map Prod.fst =
      if key row ∈ found.map Prod.fst then found.map Prod.fst else found.map Prod.fst ++ [key row] := by
  induction found with
  | nil => rfl
  | cons group found ih =>
      unfold push
      by_cases hsame : group.1 = key row
      · rw [if_pos hsame, if_pos (by rw [List.map_cons, hsame]; exact List.mem_cons_self)]
        rfl
      · have hmem : key row ∈ (group :: found).map Prod.fst ↔ key row ∈ found.map Prod.fst := by
          rw [List.map_cons, List.mem_cons, or_iff_right fun heq => hsame heq.symm]
        rw [if_neg hsame, List.map_cons, ih, if_congr hmem (Eq.refl _) (Eq.refl _)]
        split_ifs
        · rfl
        · rfl

theorem nodup_keys (key : ρ → κ) (rows : List ρ) : ((groups key rows).map Prod.fst).Nodup := by
  induction rows using List.reverseRecOn with
  | nil => exact List.nodup_nil
  | append_singleton rows row ih =>
      rw [groups_concat, keys_push]
      split_ifs with hmem
      · exact ih
      · rw [← List.concat_eq_append]
        exact ih.concat hmem

theorem mem_keys_groups {rows : List ρ} {k : κ} : k ∈ (groups key rows).map Prod.fst ↔ k ∈ rows.map key := by
  induction rows using List.reverseRecOn with
  | nil => exact Iff.rfl
  | append_singleton rows row ih =>
      rw [groups_concat, keys_push, List.map_append, List.mem_append, List.map_singleton, List.mem_singleton, ← ih]
      split_ifs with hmem
      · exact ⟨Or.inl, fun h => h.elim id fun heq => heq ▸ hmem⟩
      · rw [List.mem_append, List.mem_singleton]

theorem mem_push {row : ρ} {found : List (κ × List ρ)} (hnd : (found.map Prod.fst).Nodup) {k : κ} {group : List ρ}
    (h : (k, group) ∈ push key row found) :
    key row ≠ k ∧ (k, group) ∈ found ∨ key row = k ∧
      ((∃ before, (k, before) ∈ found ∧ group = before ++ [row]) ∨ k ∉ found.map Prod.fst ∧ group = [row]) := by
  induction found with
  | nil =>
      obtain ⟨rfl, rfl⟩ := Prod.mk.inj (List.mem_singleton.mp h)
      exact Or.inr ⟨Eq.refl _, Or.inr ⟨List.not_mem_nil, Eq.refl _⟩⟩
  | cons first found ih =>
      rw [List.map_cons, List.nodup_cons] at hnd
      unfold push at h
      split_ifs at h with hsame
      · rcases List.mem_cons.mp h with heq | hrest
        · obtain ⟨rfl, rfl⟩ := Prod.mk.inj heq
          exact Or.inr ⟨hsame.symm, Or.inl ⟨first.2, List.mem_cons_self, Eq.refl _⟩⟩
        · refine Or.inl ⟨fun hk => hnd.1 ?_, List.mem_cons_of_mem _ hrest⟩
          rw [hsame, hk]
          exact List.mem_map_of_mem hrest
      · rcases List.mem_cons.mp h with heq | hrest
        · exact Or.inl ⟨fun hk => hsame (by rw [← heq, hk]), heq ▸ List.mem_cons_self⟩
        · rcases ih hnd.2 hrest with ⟨hne, hmem⟩ | ⟨hk, ⟨before, hmem, hgroup⟩ | ⟨hnone, hgroup⟩⟩
          · exact Or.inl ⟨hne, List.mem_cons_of_mem _ hmem⟩
          · exact Or.inr ⟨hk, Or.inl ⟨before, List.mem_cons_of_mem _ hmem, hgroup⟩⟩
          · refine Or.inr ⟨hk, Or.inr ⟨?_, hgroup⟩⟩
            rw [List.map_cons, List.mem_cons, not_or]
            exact ⟨fun heq => hsame (heq.symm.trans hk.symm), hnone⟩

/-- A group holds the rows of its key, in their order. -/
theorem mem_groups {rows : List ρ} {k : κ} {group : List ρ} (h : (k, group) ∈ groups key rows) :
    group = rows.filter fun row => key row = k := by
  induction rows using List.reverseRecOn generalizing group with
  | nil => exact absurd h List.not_mem_nil
  | append_singleton rows row ih =>
      rw [groups_concat] at h
      rw [List.filter_append]
      rcases mem_push (nodup_keys key rows) h with ⟨hne, hmem⟩ | ⟨hk, ⟨before, hmem, hgroup⟩ | ⟨hnone, hgroup⟩⟩
      · rw [List.filter_singleton, decide_eq_false hne, ih hmem]
        exact (List.append_nil _).symm
      · rw [List.filter_singleton, decide_eq_true hk, hgroup, ih hmem]
        rfl
      · have hempty : (rows.filter fun row => key row = k) = [] := by
          refine List.filter_eq_nil_iff.mpr fun other hother heq => hnone (mem_keys_groups.mpr ?_)
          exact of_decide_eq_true heq ▸ List.mem_map_of_mem hother
        rw [List.filter_singleton, decide_eq_true hk, hgroup, hempty]
        rfl

end TinyCortex.Grouping
