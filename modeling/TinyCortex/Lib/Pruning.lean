import Mathlib

/-! Pruning a forest that is given by its links from parent to child: lost nodes are cut off together with
everything below them. -/

namespace TinyCortex.Pruning

open Relation

variable {α : Type*} {link : α → α → Prop} {lost : α → Prop} {x y z : α}

/-- A lost node, or one below it. -/
def Cut (link : α → α → Prop) (lost : α → Prop) (x : α) : Prop := ∃ l, lost l ∧ ReflTransGen link l x

/-- The links to what is left. -/
def Left (link : α → α → Prop) (lost : α → Prop) (p x : α) : Prop := link p x ∧ ¬Cut link lost x

theorem cut_of_lost (h : lost x) : Cut link lost x := ⟨x, h, .refl⟩

theorem Cut.below (h : Cut link lost x) (hbelow : ReflTransGen link x y) : Cut link lost y := by
  obtain ⟨l, hlost, habove⟩ := h
  exact ⟨l, hlost, habove.trans hbelow⟩

theorem above_of_left (h : ReflTransGen (Left link lost) x y) : ReflTransGen link x y :=
  ReflTransGen.mono (fun _ _ hleft => hleft.1) _ _ h

/-- Nothing above a node that is left is cut off. -/
theorem above_left (hleft : ¬Cut link lost y) (h : ReflTransGen link x y) :
    ReflTransGen (Left link lost) x y := by
  induction h with
  | refl => exact .refl
  | tail _ hlink ih => exact (ih fun hcut => hleft (hcut.below (.single hlink))).tail ⟨hlink, hleft⟩

/-- The topmost nodes of what is left are the topmost nodes that are not lost. -/
theorem top_left_iff : (¬Cut link lost x ∧ ∀ p, ¬Left link lost p x) ↔ ¬lost x ∧ ∀ p, ¬link p x := by
  constructor
  · rintro ⟨hleft, htop⟩
    exact ⟨fun h => hleft (cut_of_lost h), fun p hlink => htop p ⟨hlink, hleft⟩⟩
  · rintro ⟨hlost, htop⟩
    refine ⟨?_, fun p hlink => htop p hlink.1⟩
    rintro ⟨l, hl, habove⟩
    rcases habove.cases_tail with rfl | ⟨p, -, hlink⟩
    · exact hlost hl
    · exact htop p hlink

/-- A way down to a lost node leaves what is left over some link. -/
theorem exists_exit (hleft : ¬Cut link lost x) (h : ReflTransGen link x y) (hlost : lost y) :
    ∃ p r, ReflTransGen (Left link lost) x p ∧ link p r ∧ Cut link lost r := by
  have hcut : Cut link lost y := cut_of_lost hlost
  clear hlost
  induction h with
  | refl => exact absurd hcut hleft
  | @tail p r habove hlink ih =>
      by_cases hp : Cut link lost p
      · exact ih hp
      · exact ⟨p, r, above_left hp habove, hlink, hcut⟩

section OneParent

variable (hparent : Relator.LeftUnique link)
include hparent

/-- Of two nodes above a third, one is above the other. -/
theorem above_total (hx : ReflTransGen link x z) (hy : ReflTransGen link y z) :
    ReflTransGen link x y ∨ ReflTransGen link y x := by
  have hright : Relator.RightUnique (Function.swap link) := fun _ _ _ h h' => hparent h h'
  refine (ReflTransGen.total_of_right_unique hright hx.swap hy.swap).symm.imp ?_ ?_
  · exact fun h => h.swap
  · exact fun h => h.swap

/-- A node has one topmost node above it. -/
theorem top_unique (hx : ∀ p, ¬link p x) (hy : ∀ p, ¬link p y) (hxz : ReflTransGen link x z)
    (hyz : ReflTransGen link y z) : x = y := by
  rcases above_total hparent hxz hyz with h | h
  · rcases h.cases_tail with heq | ⟨p, -, hlink⟩
    · exact heq.symm
    · exact absurd hlink (hy p)
  · rcases h.cases_tail with heq | ⟨p, -, hlink⟩
    · exact heq
    · exact absurd hlink (hx p)

/-- Below a node that is left, and above no lost one, nothing is cut off. -/
theorem not_cut_below (hleft : ¬Cut link lost x) (hno : ∀ l, ReflTransGen link x l → ¬lost l)
    (h : ReflTransGen link x y) : ¬Cut link lost y := by
  rintro ⟨l, hlost, habove⟩
  rcases above_total hparent h habove with hxl | hlx
  · exact hno l hxl hlost
  · exact hleft ⟨l, hlost, hlx⟩

end OneParent

end TinyCortex.Pruning

/-! Links on finitely many nodes that never lead back: a rank falls along them, and above every node there is one that no
link leads to. -/

namespace TinyCortex.Acyclic

open Relation

variable {α : Type*} {link : α → α → Prop} {nodes : List α}

/-- The number of nodes below a node. -/
noncomputable def rank (link : α → α → Prop) (nodes : List α) (x : α) : Nat := by
  classical exact (nodes.toFinset.filter (TransGen link x)).card

theorem rank_le (x : α) : rank link nodes x ≤ nodes.length := by
  classical
  rw [rank]
  calc (nodes.toFinset.filter (TransGen link x)).card
      ≤ nodes.toFinset.card := Finset.card_filter_le _ _
    _ ≤ nodes.length := List.toFinset_card_le _

variable (hmem : ∀ x y, link x y → y ∈ nodes) (hacyclic : ∀ x, ¬TransGen link x x)
include hmem hacyclic

theorem rank_lt {x y : α} (h : link x y) : rank link nodes y < rank link nodes x := by
  classical
  rw [rank, rank]
  apply Finset.card_lt_card
  rw [Finset.ssubset_iff_of_subset]
  · refine ⟨y, ?_, ?_⟩
    · rw [Finset.mem_filter, List.mem_toFinset]
      exact ⟨hmem x y h, .single h⟩
    · rw [Finset.mem_filter]
      exact fun hy => hacyclic y hy.2
  · intro z hz
    rw [Finset.mem_filter] at hz ⊢
    exact ⟨hz.1, .head h hz.2⟩

/-- The climb is by induction on how far the rank is from its bound. -/
theorem exists_top (x : α) : ∃ top, (∀ p, ¬link p top) ∧ ReflTransGen link top x := by
  induction hgap : nodes.length - rank link nodes x using Nat.strong_induction_on generalizing x with
  | _ gap ih =>
      by_cases htop : ∃ p, link p x
      · obtain ⟨p, hlink⟩ := htop
        have hlt := rank_lt hmem hacyclic hlink
        have hle : rank link nodes p ≤ nodes.length := rank_le p
        obtain ⟨top, hnone, habove⟩ := ih (nodes.length - rank link nodes p) (by omega) p rfl
        exact ⟨top, hnone, habove.tail hlink⟩
      · exact ⟨x, not_exists.mp htop, .refl⟩

end TinyCortex.Acyclic
