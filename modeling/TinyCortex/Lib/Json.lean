import TinyCortex.Lib.JsonString

/-! JSON values over a type of numbers. Two values are the same when they differ in the order of keys alone. -/

namespace TinyCortex

inductive Json (ν : Type)
  | null
  | bool (b : Bool)
  | number (n : ν)
  | string (s : String)
  | array (items : List (Json ν))
  | object (entries : List (String × Json ν))

namespace Json

variable {ν : Type} {v w : Json ν}

/-- Induction with the members of arrays and objects. -/
@[elab_as_elim]
theorem induct {motive : Json ν → Prop} (null : motive .null) (bool : ∀ b, motive (.bool b))
    (number : ∀ n, motive (.number n)) (string : ∀ s, motive (.string s))
    (array : ∀ items, (∀ v ∈ items, motive v) → motive (.array items))
    (object : ∀ entries, (∀ e ∈ entries, motive e.2) → motive (.object entries)) (v : Json ν) : motive v :=
  Json.rec (motive_1 := motive) (motive_2 := fun items => ∀ v ∈ items, motive v)
    (motive_3 := fun entries => ∀ e ∈ entries, motive e.2) (motive_4 := fun e => motive e.2)
    null bool number string (fun items ih => array items ih) (fun entries ih => object entries ih)
    (fun _ h => absurd h List.not_mem_nil)
    (fun _ _ hv hitems => List.forall_mem_cons.mpr ⟨hv, hitems⟩)
    (fun _ h => absurd h List.not_mem_nil)
    (fun _ _ he hentries => List.forall_mem_cons.mpr ⟨he, hentries⟩)
    (fun _ _ hv => hv) v

/-- No object has a key twice. -/
inductive Proper : Json ν → Prop
  | null : Proper .null
  | bool (b : Bool) : Proper (.bool b)
  | number (n : ν) : Proper (.number n)
  | string (s : String) : Proper (.string s)
  | array {items : List (Json ν)} (hitems : ∀ v ∈ items, Proper v) : Proper (.array items)
  | object {entries : List (String × Json ν)} (hkeys : (entries.map Prod.fst).Nodup)
      (hentries : ∀ e ∈ entries, Proper e.2) : Proper (.object entries)

/-- The same value: the keys of objects, at any depth, may stand in another order. -/
inductive Same : Json ν → Json ν → Prop
  | refl (v : Json ν) : Same v v
  | trans {u v w : Json ν} : Same u v → Same v w → Same u w
  | perm {entries entries' : List (String × Json ν)} : entries.Perm entries' → Same (.object entries) (.object entries')
  | item {v w : Json ν} (before after : List (Json ν)) :
      Same v w → Same (.array (before ++ v :: after)) (.array (before ++ w :: after))
  | entry {v w : Json ν} (before : List (String × Json ν)) (key : String) (after : List (String × Json ν)) :
      Same v w → Same (.object (before ++ (key, v) :: after)) (.object (before ++ (key, w) :: after))

theorem Same.array {items items' : List (Json ν)} (h : List.Forall₂ Same items items') :
    Same (.array items) (.array items') := by
  have hgrow : ∀ before : List (Json ν), Same (.array (before ++ items)) (.array (before ++ items')) := by
    induction h with
    | nil => exact fun before => Same.refl _
    | @cons v w items items' hv _ ih =>
        intro before
        have hrest := ih (before ++ [w])
        rw [List.append_assoc, List.append_assoc] at hrest
        exact (Same.item before items hv).trans hrest
  exact hgrow []

theorem Same.entries {entries entries' : List (String × Json ν)}
    (h : List.Forall₂ (fun e e' => e.1 = e'.1 ∧ Same e.2 e'.2) entries entries') :
    Same (.object entries) (.object entries') := by
  have hgrow : ∀ before : List (String × Json ν), Same (.object (before ++ entries)) (.object (before ++ entries')) := by
    induction h with
    | nil => exact fun before => Same.refl _
    | @cons e e' entries entries' he _ ih =>
        intro before
        obtain ⟨key, v⟩ := e
        obtain ⟨key', w⟩ := e'
        obtain ⟨hkey, hsame⟩ := he
        cases hkey
        have hrest := ih (before ++ [(key, w)])
        rw [List.append_assoc, List.append_assoc] at hrest
        exact (Same.entry before key entries hsame).trans hrest
  exact hgrow []

/-- Sameness keeps the keys apart. -/
theorem Same.proper (h : Same v w) (hv : Proper v) : Proper w := by
  induction h with
  | refl v => exact hv
  | trans _ _ ih ih' => exact ih' (ih hv)
  | perm hperm =>
      obtain _ | _ | _ | _ | _ | ⟨hkeys, hentries⟩ := hv
      refine Proper.object ((hperm.map Prod.fst).nodup_iff.mp hkeys) ?_
      intro e he
      exact hentries e (hperm.mem_iff.mpr he)
  | item before after _ ih =>
      obtain _ | _ | _ | _ | hitems | _ := hv
      refine Proper.array ?_
      intro u hu
      rcases List.mem_append.mp hu with hbefore | hrest
      · exact hitems u (List.mem_append_left _ hbefore)
      · rcases List.mem_cons.mp hrest with hu | hafter
        · rw [hu]
          exact ih (hitems _ (List.mem_append_right _ List.mem_cons_self))
        · exact hitems u (List.mem_append_right _ (List.mem_cons_of_mem _ hafter))
  | entry before key after _ ih =>
      obtain _ | _ | _ | _ | _ | ⟨hkeys, hentries⟩ := hv
      refine Proper.object ?_ ?_
      · rw [List.map_append, List.map_cons] at hkeys ⊢
        exact hkeys
      · intro e he
        rcases List.mem_append.mp he with hbefore | hrest
        · exact hentries e (List.mem_append_left _ hbefore)
        · rcases List.mem_cons.mp hrest with he | hafter
          · rw [he]
            exact ih (hentries _ (List.mem_append_right _ List.mem_cons_self))
          · exact hentries e (List.mem_append_right _ (List.mem_cons_of_mem _ hafter))

/-! ### Members -/

def lookup (key : String) (entries : List (String × Json ν)) : Option (Json ν) :=
  (entries.find? fun e => e.1 = key).map Prod.snd

/-- `Value::get` with a key. -/
def get (key : String) : Json ν → Option (Json ν)
  | .object entries => lookup key entries
  | _ => none

/-- `Value::pointer`, with names that are no numbers. -/
def pointer (v : Json ν) (path : List String) : Option (Json ν) :=
  match path with
  | [] => some v
  | key :: path => (v.get key).bind fun member => member.pointer path

theorem lookup_eq_some_iff {key : String} {entries : List (String × Json ν)} (hkeys : (entries.map Prod.fst).Nodup) :
    lookup key entries = some v ↔ (key, v) ∈ entries := by
  rw [lookup, Option.map_eq_some_iff]
  constructor
  · intro ⟨e, he, hv⟩
    have hkey : e.1 = key := by
      have hfound := List.find?_some (p := fun e : String × Json ν => decide (e.1 = key)) he
      rwa [decide_eq_true_eq] at hfound
    have hmem := List.mem_of_find?_eq_some he
    rw [← hkey, ← hv]
    exact hmem
  · intro hmem
    have hsome : (entries.find? fun e => e.1 = key).isSome := by
      rw [List.find?_isSome]
      exact ⟨(key, v), hmem, decide_eq_true (Eq.refl _)⟩
    obtain ⟨e, he⟩ := Option.isSome_iff_exists.mp hsome
    have hkey : e.1 = key := by
      have hfound := List.find?_some (p := fun e : String × Json ν => decide (e.1 = key)) he
      rwa [decide_eq_true_eq] at hfound
    have heq := List.inj_on_of_nodup_map hkeys (List.mem_of_find?_eq_some he) hmem hkey
    exact ⟨e, he, congrArg Prod.snd heq⟩

theorem lookup_perm {key : String} {entries entries' : List (String × Json ν)} (hkeys : (entries.map Prod.fst).Nodup)
    (h : entries.Perm entries') : lookup key entries = lookup key entries' := by
  have hkeys' := (h.map Prod.fst).nodup_iff.mp hkeys
  apply Option.ext
  intro v
  rw [lookup_eq_some_iff hkeys, lookup_eq_some_iff hkeys', h.mem_iff]

theorem lookup_append_cons {key key' : String} {before after : List (String × Json ν)} :
    lookup key (before ++ (key', v) :: after) =
      (lookup key before).or (if key' = key then some v else lookup key after) := by
  rw [lookup, List.find?_append, Option.map_or, List.find?_cons]
  by_cases h : key' = key
  · simp only [h, decide_true, if_true]
    rfl
  · simp only [h, decide_false, if_false]
    rfl

/-- Members under one key are the same. -/
theorem Same.get (h : Same v w) (hv : Proper v) (key : String) : Option.Rel Same (v.get key) (w.get key) := by
  have hrefl : ∀ o : Option (Json ν), Option.Rel Same o o := by
    intro o
    cases o with
    | none => exact Option.Rel.none
    | some v => exact Option.Rel.some (Same.refl v)
  induction h with
  | refl v => exact hrefl _
  | @trans u v w huv _ ih ih' =>
      have hleft := ih hv
      have hright := ih' (huv.proper hv)
      revert hleft hright
      generalize u.get key = a
      generalize v.get key = b
      generalize w.get key = c
      intro hleft hright
      cases hleft with
      | none => exact hright
      | some hab =>
          cases hright with
          | some hbc => exact Option.Rel.some (hab.trans hbc)
  | perm hperm =>
      obtain _ | _ | _ | _ | _ | ⟨hkeys, _⟩ := hv
      show Option.Rel Same (lookup key _) (lookup key _)
      rw [lookup_perm hkeys hperm]
      exact hrefl _
  | item before after _ _ => exact Option.Rel.none
  | @entry v w before key' after hvw _ =>
      show Option.Rel Same (lookup key _) (lookup key _)
      rw [lookup_append_cons, lookup_append_cons]
      cases lookup key before with
      | some v => exact hrefl _
      | none =>
          by_cases hkey : key' = key
          · rw [if_pos hkey, if_pos hkey]
            exact Option.Rel.some hvw
          · rw [if_neg hkey, if_neg hkey]
            exact hrefl _

theorem proper_get {key : String} {member : Json ν} (hv : Proper v) (h : v.get key = some member) : Proper member := by
  obtain _ | _ | _ | _ | _ | ⟨hkeys, hentries⟩ := hv
  all_goals try cases h
  exact hentries _ ((lookup_eq_some_iff hkeys).mp h)

theorem Same.pointer (h : Same v w) (hv : Proper v) (path : List String) :
    Option.Rel Same (v.pointer path) (w.pointer path) := by
  induction path generalizing v w with
  | nil => exact Option.Rel.some h
  | cons key path ih =>
      have hget := h.get hv key
      rw [Json.pointer, Json.pointer]
      cases hv' : v.get key with
      | none =>
          rw [hv'] at hget
          cases hw : w.get key with
          | none => exact Option.Rel.none
          | some b =>
              rw [hw] at hget
              cases hget
      | some a =>
          rw [hv'] at hget
          cases hw : w.get key with
          | none =>
              rw [hw] at hget
              cases hget
          | some b =>
              rw [hw] at hget
              cases hget with
              | some hab => exact ih hab (proper_get hv hv')

end Json

end TinyCortex

/-! Lists of texts between a separator and a closing symbol: they are told apart when their members are. -/

namespace TinyCortex.Delimited

variable {σ α β : Type*} {sep close : σ}

theorem intercalate_cons (x : List σ) (xs : List (List σ)) :
    [sep].intercalate (x :: xs) = x ++ xs.flatMap (sep :: ·) := by
  induction xs generalizing x with
  | nil => simp
  | cons y xs ih =>
      rw [List.intercalate_cons_cons, ih, List.flatMap_cons, List.append_assoc]
      rfl

/-- What may follow a member. -/
def Ends (stops : σ → Prop) (rest : List σ) : Prop := ∀ c ∈ rest.head?, stops c

theorem ends_cons {stops : σ → Prop} {c : σ} (h : stops c) (rest : List σ) : Ends stops (c :: rest) := by
  intro d hd
  rwa [← Option.some.inj hd]

variable {stops : σ → Prop} {f : α → List σ} {g : β → List σ} {R : α → β → Prop}

/-- Members that are told apart whatever may follow them. -/
def Apart (stops : σ → Prop) (f : α → List σ) (g : β → List σ) (R : α → β → Prop) (x : α) (y : β) : Prop :=
  ∀ rest rest', Ends stops rest → Ends stops rest' → f x ++ rest = g y ++ rest' → R x y ∧ rest = rest'

/-- Texts without a stopping symbol end at the first one. -/
theorem append_inj_of_ends {xs ys rest rest' : List σ} (hxs : ∀ c ∈ xs, ¬stops c) (hys : ∀ c ∈ ys, ¬stops c)
    (hrest : Ends stops rest) (hrest' : Ends stops rest') (h : xs ++ rest = ys ++ rest') : xs = ys ∧ rest = rest' := by
  induction xs generalizing ys with
  | nil =>
      cases ys with
      | nil => exact ⟨Eq.refl _, h⟩
      | cons y ys =>
          rw [List.nil_append] at h
          exact absurd (hrest y (by rw [h]; rfl)) (hys y List.mem_cons_self)
  | cons x xs ih =>
      cases ys with
      | nil =>
          rw [List.nil_append] at h
          exact absurd (hrest' x (by rw [← h]; rfl)) (hxs x List.mem_cons_self)
      | cons y ys =>
          obtain ⟨hxy, hmore⟩ := List.cons.inj h
          obtain ⟨hall, htail⟩ := ih (fun c hc => hxs c (List.mem_cons_of_mem x hc))
            (fun c hc => hys c (List.mem_cons_of_mem y hc)) hmore
          rw [hxy, hall]
          exact ⟨Eq.refl _, htail⟩

theorem ends_members (hsep : stops sep) (hclose : stops close) (texts : List (List σ)) (rest : List σ) :
    Ends stops (texts.flatMap (sep :: ·) ++ close :: rest) := by
  cases texts with
  | nil => exact ends_cons hclose rest
  | cons text texts =>
      rw [List.flatMap_cons, List.cons_append, List.cons_append]
      exact ends_cons hsep _

theorem forall₂_of_members (hne : sep ≠ close) (hsep : stops sep) (hclose : stops close) {xs : List α} {ys : List β}
    (hapart : ∀ x ∈ xs, ∀ y ∈ ys, Apart stops f g R x y) {rest rest' : List σ}
    (h : (xs.map f).flatMap (sep :: ·) ++ close :: rest = (ys.map g).flatMap (sep :: ·) ++ close :: rest') :
    List.Forall₂ R xs ys ∧ rest = rest' := by
  induction xs generalizing ys with
  | nil =>
      cases ys with
      | nil => exact ⟨List.Forall₂.nil, (List.cons.inj h).2⟩
      | cons y ys => exact absurd (List.cons.inj h).1.symm hne
  | cons x xs ih =>
      cases ys with
      | nil => exact absurd (List.cons.inj h).1 hne
      | cons y ys =>
          rw [List.map_cons, List.map_cons, List.flatMap_cons, List.flatMap_cons, List.append_assoc,
            List.append_assoc] at h
          obtain ⟨hxy, hmore⟩ := hapart x List.mem_cons_self y List.mem_cons_self _ _
            (ends_members hsep hclose _ rest) (ends_members hsep hclose _ rest') (List.cons.inj h).2
          obtain ⟨hall, hrest⟩ := ih
            (fun x' hx y' hy => hapart x' (List.mem_cons_of_mem x hx) y' (List.mem_cons_of_mem y hy)) hmore
          exact ⟨List.Forall₂.cons hxy hall, hrest⟩

/-- Two written lists are equal, with what follows them, only if their members belong together. -/
theorem forall₂_of_intercalate (hne : sep ≠ close) (hsep : stops sep) (hclose : stops close) {xs : List α} {ys : List β}
    (hapart : ∀ x ∈ xs, ∀ y ∈ ys, Apart stops f g R x y) (hx : ∀ x ∈ xs, ∀ t t', f x ++ t ≠ close :: t')
    (hy : ∀ y ∈ ys, ∀ t t', g y ++ t ≠ close :: t') {rest rest' : List σ}
    (h : [sep].intercalate (xs.map f) ++ close :: rest = [sep].intercalate (ys.map g) ++ close :: rest') :
    List.Forall₂ R xs ys ∧ rest = rest' := by
  cases xs with
  | nil =>
      cases ys with
      | nil => exact ⟨List.Forall₂.nil, (List.cons.inj h).2⟩
      | cons y ys =>
          rw [List.map_cons, intercalate_cons, List.append_assoc] at h
          exact absurd h.symm (hy y List.mem_cons_self _ _)
  | cons x xs =>
      cases ys with
      | nil =>
          rw [List.map_cons, intercalate_cons, List.append_assoc] at h
          exact absurd h (hx x List.mem_cons_self _ _)
      | cons y ys =>
          rw [List.map_cons, intercalate_cons, List.append_assoc, List.map_cons, intercalate_cons, List.append_assoc] at h
          obtain ⟨hxy, hmore⟩ := hapart x List.mem_cons_self y List.mem_cons_self _ _
            (ends_members hsep hclose _ rest) (ends_members hsep hclose _ rest') h
          obtain ⟨hall, hrest⟩ := forall₂_of_members hne hsep hclose
            (fun x' hx y' hy => hapart x' (List.mem_cons_of_mem x hx) y' (List.mem_cons_of_mem y hy)) hmore
          exact ⟨List.Forall₂.cons hxy hall, hrest⟩

end TinyCortex.Delimited
