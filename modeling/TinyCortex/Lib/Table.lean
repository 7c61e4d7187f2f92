import Mathlib

/-! Tables as lists of rows: updates by a predicate, and partial unique indexes. An index maps a row
to the key it enters the index with, or to `none` when the row stands outside the index; the index
holds when no key is entered twice. -/

namespace TinyCortex.Table

variable {ρ ι κ : Type*}

/-- `UPDATE … SET f WHERE p`. -/
def update (p : ρ → Bool) (f : ρ → ρ) (rows : List ρ) : List ρ :=
  rows.map fun r => if p r then f r else r

theorem mem_update {p : ρ → Bool} {f : ρ → ρ} {rows : List ρ} {r : ρ} :
    r ∈ update p f rows ↔ (∃ s ∈ rows, p s ∧ f s = r) ∨ (r ∈ rows ∧ ¬p r) := by
  simp only [update, List.mem_map]
  constructor
  · rintro ⟨s, hs, rfl⟩
    by_cases hp : p s
    · exact Or.inl ⟨s, hs, hp, by rw [if_pos hp]⟩
    · rw [if_neg hp]
      exact Or.inr ⟨hs, hp⟩
  · rintro (⟨s, hs, hp, rfl⟩ | ⟨hr, hp⟩)
    · exact ⟨s, hs, if_pos hp⟩
    · exact ⟨r, hr, if_neg hp⟩

theorem mem_update_of_mem {p : ρ → Bool} {f : ρ → ρ} {rows : List ρ} {r : ρ} (hr : r ∈ rows)
    (hp : p r) : f r ∈ update p f rows :=
  mem_update.mpr (Or.inl ⟨r, hr, hp, rfl⟩)

theorem update_of_forall_not {p : ρ → Bool} {f : ρ → ρ} {rows : List ρ} (h : ∀ r ∈ rows, ¬p r) :
    update p f rows = rows := by
  rw [update]
  conv_rhs => rw [← List.map_id rows]
  exact List.map_congr_left fun r hr => if_neg (h r hr)

theorem map_update {pk : ρ → ι} {p : ρ → Bool} {f : ρ → ρ} (h : ∀ r, pk (f r) = pk r)
    (rows : List ρ) : (update p f rows).map pk = rows.map pk := by
  rw [update, List.map_map]
  refine List.map_congr_left fun r _ => ?_
  dsimp only [Function.comp]
  split_ifs
  · exact h r
  · rfl

@[simp] theorem length_update (p : ρ → Bool) (f : ρ → ρ) (rows : List ρ) :
    (update p f rows).length = rows.length := List.length_map _

/-- Two rows of a table with distinct primary keys are equal when their keys are. -/
theorem eq_of_pk_eq {pk : ρ → ι} {rows : List ρ} (hnd : (rows.map pk).Nodup) {r s : ρ}
    (hr : r ∈ rows) (hs : s ∈ rows) (h : pk r = pk s) : r = s :=
  List.inj_on_of_nodup_map hnd hr hs h

/-- The keys the rows of a table enter an index with. -/
def keys (key : ρ → Option κ) (rows : List ρ) : List κ := rows.filterMap key

/-- The partial unique index holds: no key is entered by two rows. -/
def UniqueOn (key : ρ → Option κ) (rows : List ρ) : Prop := (keys key rows).Nodup

instance [DecidableEq κ] (key : ρ → Option κ) (rows : List ρ) : Decidable (UniqueOn key rows) :=
  inferInstanceAs (Decidable (keys key rows).Nodup)

theorem mem_keys {key : ρ → Option κ} {rows : List ρ} {k : κ} :
    k ∈ keys key rows ↔ ∃ r ∈ rows, key r = some k := List.mem_filterMap

theorem keys_append (key : ρ → Option κ) (rows rows' : List ρ) :
    keys key (rows ++ rows') = keys key rows ++ keys key rows' := List.filterMap_append

/-- An update that leaves every row's key alone leaves the index alone. -/
theorem keys_update_of_eq {key : ρ → Option κ} {p : ρ → Bool} {f : ρ → ρ} {rows : List ρ}
    (h : ∀ r ∈ rows, p r → key (f r) = key r) : keys key (update p f rows) = keys key rows := by
  rw [keys, update, List.filterMap_map]
  refine List.filterMap_congr fun r hr => ?_
  dsimp only [Function.comp]
  split_ifs with hp
  · exact h r hr hp
  · rfl

/-- An update that moves rows out of the index, or leaves their keys alone, only drops entries. -/
theorem keys_update_sublist {key : ρ → Option κ} {p : ρ → Bool} {f : ρ → ρ} {rows : List ρ}
    (h : ∀ r ∈ rows, p r → key (f r) = none ∨ key (f r) = key r) :
    (keys key (update p f rows)).Sublist (keys key rows) := by
  induction rows with
  | nil => exact List.Sublist.refl _
  | cons r rows ih =>
      have hrest := ih fun s hs => h s (List.mem_cons_of_mem _ hs)
      have hhead : key (if p r then f r else r) = none ∨
          key (if p r then f r else r) = key r := by
        split_ifs with hp
        · exact h r List.mem_cons_self hp
        · exact Or.inr rfl
      simp only [keys, update, List.map_cons, List.filterMap_cons] at hrest ⊢
      rcases hhead with hnone | hsame
      · rw [hnone]
        cases key r with
        | none => exact hrest
        | some k => exact hrest.cons k
      · rw [hsame]
        cases key r with
        | none => exact hrest
        | some k => exact hrest.cons_cons k

theorem UniqueOn.update_of_drop {key : ρ → Option κ} {p : ρ → Bool} {f : ρ → ρ} {rows : List ρ}
    (huniq : UniqueOn key rows) (h : ∀ r ∈ rows, p r → key (f r) = none ∨ key (f r) = key r) :
    UniqueOn key (update p f rows) :=
  huniq.sublist (keys_update_sublist h)

theorem uniqueOn_concat {key : ρ → Option κ} {rows : List ρ} {r : ρ} :
    UniqueOn key (rows ++ [r]) ↔ UniqueOn key rows ∧ ∀ k, key r = some k → k ∉ keys key rows := by
  rw [UniqueOn, keys_append, keys, keys]
  cases hk : key r with
  | none => simp [UniqueOn, keys, hk]
  | some k =>
      simp only [List.filterMap_cons, hk, List.filterMap_nil, List.nodup_append, UniqueOn, keys]
      constructor
      · rintro ⟨hnd, -, hdis⟩
        refine ⟨hnd, fun k' hk' hmem => ?_⟩
        obtain rfl := Option.some.inj hk'
        exact hdis _ hmem _ List.mem_cons_self rfl
      · rintro ⟨hnd, hnew⟩
        refine ⟨hnd, List.nodup_singleton k, fun a ha b hb => ?_⟩
        rw [List.mem_singleton] at hb
        rintro rfl
        exact hnew _ (by rw [hb]) ha

/-- At most one row matches a primary key, so a table splits around it. -/
theorem exists_split {pk : ρ → ι} {rows : List ρ} (hnd : (rows.map pk).Nodup) {r : ρ}
    (hr : r ∈ rows) : ∃ above below, rows = above ++ r :: below ∧
      (∀ s ∈ above, pk s ≠ pk r) ∧ ∀ s ∈ below, pk s ≠ pk r := by
  obtain ⟨above, below, rfl⟩ := List.append_of_mem hr
  simp only [List.map_append, List.map_cons, List.nodup_append, List.nodup_cons] at hnd
  obtain ⟨-, ⟨hbelow, -⟩, habove⟩ := hnd
  refine ⟨above, below, rfl, fun s hs heq => ?_, fun s hs heq => ?_⟩
  · exact habove _ (List.mem_map_of_mem hs) _ List.mem_cons_self heq
  · exact hbelow (heq ▸ List.mem_map_of_mem hs)

/-- Updating the one row that matches replaces it in place. -/
theorem update_split {p : ρ → Bool} {f : ρ → ρ} {above below : List ρ} {r : ρ} (hp : p r)
    (habove : ∀ s ∈ above, ¬p s) (hbelow : ∀ s ∈ below, ¬p s) :
    update p f (above ++ r :: below) = above ++ f r :: below := by
  have hcons : update p f (r :: below) = f r :: update p f below := by
    simp only [update, List.map_cons, if_pos hp]
  have happ : update p f (above ++ r :: below) = update p f above ++ update p f (r :: below) := by
    simp only [update, List.map_append]
  rw [happ, hcons, update_of_forall_not habove, update_of_forall_not hbelow]

/-- Bringing one row into the index keeps it exactly when no row holds the key yet. -/
theorem uniqueOn_enter_iff {pk : ρ → ι} {key : ρ → Option κ} {p : ρ → Bool} {f : ρ → ρ}
    {rows : List ρ} {r : ρ} {k : κ} (hnd : (rows.map pk).Nodup) (huniq : UniqueOn key rows)
    (hr : r ∈ rows) (hp : p r) (hpk : ∀ s ∈ rows, p s → pk s = pk r) (hout : key r = none)
    (hin : key (f r) = some k) :
    UniqueOn key (update p f rows) ↔ k ∉ keys key rows := by
  obtain ⟨above, below, rfl, habove, hbelow⟩ := exists_split hnd hr
  rw [update_split hp
    (fun s hs hps => habove s hs (hpk s (List.mem_append_left _ hs) hps))
    (fun s hs hps => hbelow s hs
      (hpk s (List.mem_append_right _ (List.mem_cons_of_mem _ hs)) hps))]
  have hkeys : keys key (above ++ r :: below) = keys key above ++ keys key below := by
    simp [keys, hout]
  have hkeys' : keys key (above ++ f r :: below) = keys key above ++ k :: keys key below := by
    simp [keys, hin]
  rw [UniqueOn, hkeys] at huniq
  rw [UniqueOn, hkeys', hkeys, List.nodup_middle, List.nodup_cons]
  exact and_iff_left huniq

/-! ### Rows under a primary key -/

section Keyed

variable [DecidableEq κ] {key : ρ → κ}

/-- `SELECT … WHERE key = ?`. -/
def lookup (key : ρ → κ) (k : κ) : List ρ → Option ρ
  | [] => none
  | r :: rows => if key r = k then some r else lookup key k rows

/-- `INSERT … ON CONFLICT DO UPDATE`. -/
def upsert (key : ρ → κ) (row : ρ) : List ρ → List ρ
  | [] => [row]
  | r :: rows => if key r = key row then row :: rows else r :: upsert key row rows

/-- `INSERT OR IGNORE`. -/
def insertOrIgnore (key : ρ → κ) (row : ρ) (rows : List ρ) : List ρ :=
  if key row ∈ rows.map key then rows else rows ++ [row]

theorem lookup_mem {k : κ} {rows : List ρ} {r : ρ} (h : lookup key k rows = some r) :
    r ∈ rows ∧ key r = k := by
  induction rows with
  | nil => cases h
  | cons s rows ih =>
      unfold lookup at h
      split_ifs at h with hk
      · obtain rfl := Option.some.inj h
        exact ⟨List.mem_cons_self, hk⟩
      · obtain ⟨hr, hkey⟩ := ih h
        exact ⟨List.mem_cons_of_mem _ hr, hkey⟩

theorem lookup_eq_none_iff {k : κ} {rows : List ρ} : lookup key k rows = none ↔ k ∉ rows.map key := by
  induction rows with
  | nil => simp [lookup]
  | cons s rows ih =>
      unfold lookup
      split_ifs with hk
      · simp [hk]
      · rw [ih, List.map_cons, List.mem_cons, not_or]
        exact ⟨fun h => ⟨fun heq => hk heq.symm, h⟩, And.right⟩

theorem lookup_isSome_iff {k : κ} {rows : List ρ} : (lookup key k rows).isSome ↔ k ∈ rows.map key := by
  rw [Option.isSome_iff_ne_none, ne_eq, lookup_eq_none_iff, not_not]

theorem lookup_of_mem {rows : List ρ} (hnd : (rows.map key).Nodup) {r : ρ} (hr : r ∈ rows) :
    lookup key (key r) rows = some r := by
  have hsome := lookup_isSome_iff.mpr (List.mem_map_of_mem (f := key) hr)
  obtain ⟨s, hs⟩ := Option.isSome_iff_exists.mp hsome
  obtain ⟨hmem, hkey⟩ := lookup_mem hs
  rw [hs, eq_of_pk_eq hnd hmem hr hkey]

theorem lookup_update {k : κ} {p : ρ → Bool} {f : ρ → ρ} {rows : List ρ}
    (hkey : ∀ r, key (f r) = key r) :
    lookup key k (update p f rows) = (lookup key k rows).map fun r => if p r then f r else r := by
  induction rows with
  | nil => rfl
  | cons s rows ih =>
      have hs : key (if p s then f s else s) = key s := by split_ifs <;> simp [hkey]
      have hcons : update p f (s :: rows) = (if p s then f s else s) :: update p f rows := rfl
      rw [hcons, lookup, lookup, hs, ih, apply_ite (Option.map _)]
      rfl

theorem lookup_map {σ : Type*} {key' : σ → κ} {f : ρ → σ} {k : κ} (hkey : ∀ r, key' (f r) = key r)
    (rows : List ρ) : lookup key' k (rows.map f) = (lookup key k rows).map f := by
  induction rows with
  | nil => rfl
  | cons r rows ih => rw [List.map_cons, lookup, lookup, hkey, ih, apply_ite (Option.map f), Option.map_some]

theorem lookup_upsert_self (row : ρ) (rows : List ρ) :
    lookup key (key row) (upsert key row rows) = some row := by
  induction rows with
  | nil => exact if_pos rfl
  | cons r rows ih =>
      unfold upsert
      split_ifs with h
      · exact if_pos rfl
      · rw [lookup, if_neg h, ih]

theorem lookup_upsert_of_ne {row : ρ} {k : κ} (hne : key row ≠ k) (rows : List ρ) :
    lookup key k (upsert key row rows) = lookup key k rows := by
  induction rows with
  | nil => exact if_neg hne
  | cons r rows ih =>
      unfold upsert
      split_ifs with h
      · rw [lookup, lookup, if_neg hne, if_neg (h ▸ hne)]
      · rw [lookup, lookup, ih]

theorem lookup_append (k : κ) (rows more : List ρ) :
    lookup key k (rows ++ more) = (lookup key k rows).or (lookup key k more) := by
  induction rows with
  | nil => rfl
  | cons s rows ih =>
      rw [List.cons_append, lookup, lookup, ih]
      split_ifs
      · rfl
      · rfl

theorem lookup_append_of_some {k : κ} {rows : List ρ} {r : ρ} (h : lookup key k rows = some r)
    (more : List ρ) : lookup key k (rows ++ more) = some r := by
  rw [lookup_append, h, Option.some_or]

theorem lookup_filter_of_keep {k : κ} {rows : List ρ} {p : ρ → Bool}
    (h : ∀ r ∈ rows, key r = k → p r) : lookup key k (rows.filter p) = lookup key k rows := by
  induction rows with
  | nil => rfl
  | cons s rows ih =>
      have hrest := ih fun r hr => h r (List.mem_cons_of_mem _ hr)
      by_cases hs : key s = k
      · rw [List.filter_cons_of_pos (h s List.mem_cons_self hs), lookup, lookup, if_pos hs, if_pos hs]
      · rw [lookup, if_neg hs, ← hrest, List.filter_cons]
        split_ifs
        · rw [lookup, if_neg hs]
        · rfl

/-- Rows that are fetched by their keys. -/
theorem lookup_filterMap {fetch : κ → Option ρ} (hfetch : ∀ k r, fetch k = some r → key r = k) {k : κ} (ks : List κ) :
    lookup key k (ks.filterMap fetch) = if k ∈ ks then fetch k else none := by
  induction ks with
  | nil => exact (if_neg List.not_mem_nil).symm
  | cons k' ks ih =>
      rw [List.filterMap_cons]
      cases hrow : fetch k' with
      | none =>
          dsimp only
          rw [ih]
          by_cases hk : k = k'
          · subst hk
            rw [hrow, ite_self, ite_self]
          · simp only [List.mem_cons, hk, false_or]
      | some r =>
          dsimp only
          rw [lookup, ih, hfetch k' r hrow]
          by_cases hk : k' = k
          · subst hk
            rw [if_pos rfl, if_pos List.mem_cons_self, hrow]
          · simp only [List.mem_cons, hk, Ne.symm hk, if_false, false_or]

/-- A map after rows were written over it: the last row with a key stands. -/
def overwrite {α : Type*} (key : ρ → κ) (value : ρ → α) (rows : List ρ) (old : κ → α) (k : κ) : α :=
  ((lookup key k rows.reverse).map value).getD (old k)

theorem overwrite_of_some {α : Type*} {value : ρ → α} {rows : List ρ} {old : κ → α} {k : κ} {row : ρ}
    (h : lookup key k rows.reverse = some row) : overwrite key value rows old k = value row := by
  rw [overwrite, h]
  rfl

theorem overwrite_of_none {α : Type*} {value : ρ → α} {rows : List ρ} {old : κ → α} {k : κ}
    (h : lookup key k rows.reverse = none) : overwrite key value rows old k = old k := by
  rw [overwrite, h]
  rfl

theorem mem_upsert {row r : ρ} {rows : List ρ} (h : r ∈ upsert key row rows) :
    r = row ∨ r ∈ rows := by
  induction rows with
  | nil => exact Or.inl (List.mem_singleton.mp h)
  | cons s rows ih =>
      unfold upsert at h
      split_ifs at h
      · exact (List.mem_cons.mp h).imp id (List.mem_cons_of_mem _)
      · rcases List.mem_cons.mp h with rfl | h
        · exact Or.inr List.mem_cons_self
        · exact (ih h).imp id (List.mem_cons_of_mem _)

theorem mem_keys_upsert {row : ρ} {k : κ} {rows : List ρ} :
    k ∈ (upsert key row rows).map key ↔ k = key row ∨ k ∈ rows.map key := by
  induction rows with
  | nil => simp [upsert]
  | cons s rows ih =>
      unfold upsert
      split_ifs with h
      · simp [h]
      · rw [List.map_cons, List.mem_cons, ih, List.map_cons, List.mem_cons]
        exact or_left_comm

theorem nodup_upsert {row : ρ} {rows : List ρ} (hnd : (rows.map key).Nodup) :
    ((upsert key row rows).map key).Nodup := by
  induction rows with
  | nil => exact List.nodup_singleton _
  | cons s rows ih =>
      rw [List.map_cons, List.nodup_cons] at hnd
      unfold upsert
      split_ifs with h
      · rw [List.map_cons, ← h]
        exact List.nodup_cons.mpr hnd
      · rw [List.map_cons, List.nodup_cons, mem_keys_upsert, not_or]
        exact ⟨⟨h, hnd.1⟩, ih hnd.2⟩

/-- With distinct keys, an upsert replaces the row of its key and leaves the others. -/
theorem mem_upsert_iff {row r : ρ} {rows : List ρ} (hnd : (rows.map key).Nodup) :
    r ∈ upsert key row rows ↔ r = row ∨ (r ∈ rows ∧ key r ≠ key row) := by
  induction rows with
  | nil => simp [upsert]
  | cons s rows ih =>
      rw [List.map_cons, List.nodup_cons] at hnd
      unfold upsert
      split_ifs with h
      · rw [List.mem_cons, List.mem_cons]
        refine or_congr_right ⟨fun hr => ⟨Or.inr hr, fun heq => ?_⟩, fun hr => ?_⟩
        · exact hnd.1 (h.trans heq.symm ▸ List.mem_map_of_mem hr)
        · exact hr.1.resolve_left fun heq => hr.2 (heq ▸ h)
      · rw [List.mem_cons, ih hnd.2, List.mem_cons]
        constructor
        · rintro (rfl | rfl | hr)
          · exact Or.inr ⟨Or.inl rfl, h⟩
          · exact Or.inl rfl
          · exact Or.inr ⟨Or.inr hr.1, hr.2⟩
        · rintro (rfl | ⟨rfl | hr, hne⟩)
          · exact Or.inr (Or.inl rfl)
          · exact Or.inl rfl
          · exact Or.inr (Or.inr ⟨hr, hne⟩)

/-- Upserts in a row: of several rows with one key, the last one stays. -/
theorem lookup_foldl_upsert (k : κ) (staged rows : List ρ) :
    lookup key k (staged.foldl (fun rows row => upsert key row rows) rows) =
      (lookup key k staged.reverse).or (lookup key k rows) := by
  induction staged generalizing rows with
  | nil => rfl
  | cons row staged ih =>
      rw [List.foldl_cons, ih, List.reverse_cons, lookup_append, Option.or_assoc, lookup]
      by_cases hrow : key row = k
      · rw [if_pos hrow, Option.some_or, ← hrow, lookup_upsert_self]
      · rw [if_neg hrow, lookup_upsert_of_ne hrow]
        rfl

theorem mem_insertOrIgnore {row r : ρ} {rows : List ρ} (h : r ∈ insertOrIgnore key row rows) :
    r ∈ rows ∨ r = row := by
  unfold insertOrIgnore at h
  split_ifs at h
  · exact Or.inl h
  · rcases List.mem_append.mp h with hold | hnew
    · exact Or.inl hold
    · exact Or.inr (List.mem_singleton.mp hnew)

theorem subset_insertOrIgnore (row : ρ) (rows : List ρ) : rows ⊆ insertOrIgnore key row rows := by
  unfold insertOrIgnore
  split_ifs
  · exact List.Subset.refl _
  · exact List.subset_append_left _ _

theorem lookup_insertOrIgnore (row : ρ) (rows : List ρ) (k : κ) :
    lookup key k (insertOrIgnore key row rows) = (lookup key k rows).or (if key row = k then some row else none) := by
  rw [insertOrIgnore]
  by_cases htaken : key row ∈ rows.map key
  · rw [if_pos htaken]
    by_cases hk : key row = k
    · obtain ⟨held, hheld⟩ := Option.isSome_iff_exists.mp (lookup_isSome_iff.mpr htaken)
      rw [← hk, hheld, Option.some_or]
    · rw [if_neg hk, Option.or_none]
  · rw [if_neg htaken, lookup_append]
    rfl

theorem insertOrIgnore_of_fresh {row : ρ} {rows : List ρ} (h : key row ∉ rows.map key) :
    insertOrIgnore key row rows = rows ++ [row] := if_neg h

end Keyed

end TinyCortex.Table
