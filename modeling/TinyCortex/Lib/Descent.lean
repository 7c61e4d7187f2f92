import Mathlib

/-! Descents along a children function, level by level. Below a start whose nodes have one parent each,
and ranks that fall on the way down, every node is met once, at one depth. -/

namespace TinyCortex.Descent

variable {ι : Type*} {children : ι → List ι} {rank : ι → Nat} {start x p : ι} {depth other : Nat}

/-- The nodes a given number of steps below a node, in order, with repeats. -/
def descend (children : ι → List ι) : Nat → ι → List ι
  | 0, x => [x]
  | depth + 1, x => (children x).flatMap (descend children depth)

/-- A descent by one more level goes on from where it was. -/
theorem descend_succ (depth : Nat) (x : ι) :
    descend children (depth + 1) x = (descend children depth x).flatMap children := by
  induction depth generalizing x with
  | zero => simp [descend]
  | succ depth ih =>
      rw [descend, List.flatMap_congr fun y _ => ih y, descend, List.flatMap_assoc]

theorem descend_congr {children' : ι → List ι} (h : ∀ x, children' x = children x) (depth : Nat)
    (x : ι) : descend children' depth x = descend children depth x := by
  rw [show children' = children from funext h]

theorem mem_descend_succ :
    x ∈ descend children (depth + 1) start ↔ ∃ p ∈ descend children depth start, x ∈ children p := by
  rw [descend_succ, List.mem_flatMap]

/-- The node is some number of steps below the start, or is the start. -/
def Below (children : ι → List ι) (start x : ι) : Prop := ∃ depth, x ∈ descend children depth start

theorem below_of_mem (h : x ∈ descend children depth start) : Below children start x := ⟨depth, h⟩

/-- Below the start every node has one parent, which lists it once, and ranks fall. -/
structure Treelike (children : ι → List ι) (rank : ι → Nat) (start : ι) : Prop where
  parent : ∀ p q x, Below children start p → Below children start q → x ∈ children p → x ∈ children q →
    p = q
  nodup : ∀ p, Below children start p → (children p).Nodup
  falls : ∀ p x, Below children start p → x ∈ children p → rank x < rank p

theorem Treelike.rank_le (h : Treelike children rank start) (hx : x ∈ descend children depth start) :
    rank x + depth ≤ rank start := by
  induction depth generalizing x with
  | zero => exact (List.mem_singleton.mp hx) ▸ Nat.le_refl _
  | succ depth ih =>
      obtain ⟨p, hp, hchild⟩ := mem_descend_succ.mp hx
      have hlt := h.falls p x (below_of_mem hp) hchild
      have hle := ih hp
      omega

/-- A node is met at one depth only. -/
theorem Treelike.depth_unique (h : Treelike children rank start)
    (hx : x ∈ descend children depth start) (hx' : x ∈ descend children other start) : depth = other := by
  induction depth generalizing x other with
  | zero =>
      obtain rfl := List.mem_singleton.mp hx
      have hle := h.rank_le hx'
      omega
  | succ depth ih =>
      cases other with
      | zero =>
          obtain rfl := List.mem_singleton.mp hx'
          have hle := h.rank_le hx
          omega
      | succ other =>
          obtain ⟨p, hp, hchild⟩ := mem_descend_succ.mp hx
          obtain ⟨q, hq, hchild'⟩ := mem_descend_succ.mp hx'
          obtain rfl := h.parent p q x (below_of_mem hp) (below_of_mem hq) hchild hchild'
          rw [ih hp hq]

theorem Treelike.descend_nodup (h : Treelike children rank start) (depth : Nat) :
    (descend children depth start).Nodup := by
  induction depth with
  | zero => exact List.nodup_singleton _
  | succ depth ih =>
      rw [descend_succ, List.nodup_flatMap]
      refine ⟨fun p hp => h.nodup p (below_of_mem hp), ih.imp_of_mem ?_⟩
      intro p q hp hq hne x hx hx'
      exact hne (h.parent p q x (below_of_mem hp) (below_of_mem hq) hx hx')

/-- The nodes of the first levels below the start, each once. -/
theorem Treelike.levels_nodup (h : Treelike children rank start) (depths : Nat) :
    ((List.range depths).flatMap fun depth => descend children depth start).Nodup := by
  rw [List.nodup_flatMap]
  refine ⟨fun depth _ => h.descend_nodup depth, List.nodup_range.imp fun {depth other} hne x hx hx' => ?_⟩
  exact hne (h.depth_unique hx hx')

/-- Levels as many as the rank of the start are all there are. -/
theorem Treelike.below_iff (h : Treelike children rank start) {depths : Nat} (hrank : rank start < depths) :
    Below children start x ↔ x ∈ (List.range depths).flatMap fun depth => descend children depth start := by
  rw [List.mem_flatMap]
  constructor
  · rintro ⟨depth, hx⟩
    have hle := h.rank_le hx
    exact ⟨depth, List.mem_range.mpr (by omega), hx⟩
  · rintro ⟨depth, -, hx⟩
    exact below_of_mem hx

/-! ### A queue of nodes with their depths, first in, first out -/

section Queue

variable {β : Type*} (visit : ι → Nat → List β) (next : ι → Nat → List ι)

/-- `while let Some((x, depth)) = queue.pop_front()`: what the visits put out, when the queue runs dry in time. -/
def drain : Nat → List (ι × Nat) → Option (List β)
  | _, [] => some []
  | 0, _ :: _ => none
  | fuel + 1, (x, depth) :: queue =>
      (drain fuel (queue ++ (next x depth).map (·, depth + 1))).map (visit x depth ++ ·)

/-- What the queue holds of each depth. -/
def layer (first : List ι) : Nat → List ι
  | 0 => first
  | depth + 1 => (layer first depth).flatMap (next · depth)

/-- The nodes of one depth are served before what they put into the queue. -/
theorem drain_layer (current later : List ι) (depth fuel : Nat) :
    drain visit next (current.length + fuel) (current.map (·, depth) ++ later.map (·, depth + 1)) =
      (drain visit next fuel ((later ++ current.flatMap (next · depth)).map (·, depth + 1))).map
        (current.flatMap (visit · depth) ++ ·) := by
  induction current generalizing later with
  | nil => simp
  | cons x current ih =>
      have hqueue : current.map (·, depth) ++ later.map (·, depth + 1) ++ (next x depth).map (·, depth + 1) =
          current.map (·, depth) ++ (later ++ next x depth).map (·, depth + 1) := by
        rw [List.map_append, List.append_assoc]
      rw [List.length_cons, Nat.add_right_comm, List.map_cons, List.cons_append, drain, hqueue, ih, Option.map_map,
        List.flatMap_cons, List.append_assoc, List.flatMap_cons]
      congr 1
      funext rest
      exact (List.append_assoc _ _ _).symm

/-- The queue meets the depths in order, each as a whole. -/
theorem drain_layers (first : List ι) (depths fuel : Nat) :
    drain visit next (((List.range depths).map fun depth => (layer next first depth).length).sum + fuel)
        (first.map (·, 0)) =
      (drain visit next fuel ((layer next first depths).map (·, depths))).map
        ((List.range depths).flatMap (fun depth => (layer next first depth).flatMap (visit · depth)) ++ ·) := by
  induction depths generalizing fuel with
  | zero => simp [layer]
  | succ depths ih =>
      have hlayer := drain_layer visit next (layer next first depths) [] depths fuel
      rw [List.map_nil, List.append_nil, List.nil_append] at hlayer
      rw [List.range_succ, List.map_append, List.sum_append, List.map_singleton, List.sum_singleton, Nat.add_assoc,
        ih, hlayer, Option.map_map, List.flatMap_append, List.flatMap_singleton, layer]
      congr 1
      funext rest
      exact (List.append_assoc _ _ _).symm

/-- While every node puts its children into the queue, the depths are the levels of the descent. -/
theorem layer_eq_descend {next : ι → Nat → List ι} (bound : Nat)
    (h : ∀ x depth, depth < bound → next x depth = children x) (hle : depth ≤ bound) :
    layer next [start] depth = descend children depth start := by
  induction depth with
  | zero => rfl
  | succ depth ih =>
      rw [layer, ih (by omega), descend_succ]
      exact List.flatMap_congr fun x _ => h x depth (by omega)

end Queue

end TinyCortex.Descent
