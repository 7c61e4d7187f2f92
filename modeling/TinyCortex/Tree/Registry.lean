import TinyCortex.Lib.Machine
import TinyCortex.Tree.Workspace

/-! The tree registry (`tree/registry.rs`): get-or-create as its callers run it, one statement at a time, with the
statements of other callers and the transactions that seal and delete trees in between. -/

namespace TinyCortex.SummaryTree

open Table

def TreeKind.asStr : TreeKind → String
  | .source => "source"
  | .topic => "topic"
  | .global => "global"
  | .flavoured => "flavoured"

/-- A row of `mem_tree_trees` with the columns that only its insertion sets. -/
structure TreeRow where
  tree : Tree
  createdAtMs : Int
  ask : Option String
  deriving DecidableEq, Repr

/-- The columns that later transactions write. -/
def TreeRow.withHeader (row : TreeRow) (rootId : Option String) (maxLevel : Nat) (status : TreeStatus)
    (lastSealedAtMs : Option Int) : TreeRow :=
  { row with
    tree := { row.tree with
      rootId := rootId, maxLevel := maxLevel, status := status, lastSealedAtMs := lastSealedAtMs } }

@[simp] theorem TreeRow.id_withHeader (row : TreeRow) (rootId : Option String) (maxLevel : Nat) (status : TreeStatus)
    (lastSealedAtMs : Option Int) : (row.withHeader rootId maxLevel status lastSealedAtMs).tree.id = row.tree.id := rfl

@[simp] theorem TreeRow.scoped_withHeader (row : TreeRow) (rootId : Option String) (maxLevel : Nat)
    (status : TreeStatus) (lastSealedAtMs : Option Int) :
    (row.withHeader rootId maxLevel status lastSealedAtMs).tree.scoped = row.tree.scoped := rfl

def newTreeId (kind : TreeKind) (uuid : String) : String := kind.asStr ++ ":" ++ uuid

def rowByScope (rows : List TreeRow) (kind : TreeKind) (scope : String) : Option TreeRow :=
  lookup (fun row : TreeRow => row.tree.scoped) (kind, scope) rows

/-- The insertion, which the primary key or the unique index may refuse. -/
def insertTree (row : TreeRow) (rows : List TreeRow) : Option (List TreeRow) :=
  if row.tree.id ∈ rows.map (·.tree.id) ∨ row.tree.scoped ∈ rows.map (·.tree.scoped) then none
  else some (rows ++ [row])

/-- `UNIQUE violation on insert but no row found on re-query for kind={} scope={}`. -/
inductive RegistryError
  | vanished (kind : TreeKind) (scope : String)
  deriving DecidableEq, Repr

/-- Which statement a call runs next, or what it returned. -/
inductive CallPhase
  | looking
  | inserting (treeId : String) (nowMs : Int)
  | requerying
  | returned (result : Except RegistryError TreeRow)
  deriving DecidableEq, Repr

structure RegistryCall where
  kind : TreeKind
  scope : String
  ask : Option String
  phase : CallPhase
  deriving DecidableEq, Repr

namespace RegistryCall

def row (call : RegistryCall) (treeId : String) (nowMs : Int) : TreeRow :=
  ⟨Tree.fresh treeId call.kind call.scope, nowMs, call.ask⟩

/-- The next statement of the call; a fresh tree takes its id and its time from outside. -/
def turn (call : RegistryCall) (uuid : String) (nowMs : Int) (rows : List TreeRow) : List TreeRow × CallPhase :=
  match call.phase with
  | .looking =>
      match rowByScope rows call.kind call.scope with
      | some existing => (rows, .returned (.ok existing))
      | none => (rows, .inserting (newTreeId call.kind uuid) nowMs)
  | .inserting treeId createdAtMs =>
      match insertTree (call.row treeId createdAtMs) rows with
      | some inserted => (inserted, .returned (.ok (call.row treeId createdAtMs)))
      | none => (rows, .requerying)
  | .requerying =>
      match rowByScope rows call.kind call.scope with
      | some winner => (rows, .returned (.ok winner))
      | none => (rows, .returned (.error (.vanished call.kind call.scope)))
  | .returned result => (rows, .returned result)

end RegistryCall

/-- The rows of the trees and the calls, in the order in which they began. -/
structure Registry where
  rows : List TreeRow
  calls : List RegistryCall
  deriving DecidableEq, Repr

/-- Calls begin and run; a seal or an archival writes the other columns of a tree; a tree is deleted. -/
inductive RegistryLabel
  | getOrCreate (kind : TreeKind) (scope : String) (ask : Option String)
  | turn (i : Nat) (uuid : String) (nowMs : Int)
  | writeHeader (treeId : String) (rootId : Option String) (maxLevel : Nat) (status : TreeStatus)
      (lastSealedAtMs : Option Int)
  | delete (treeId : String)
  deriving DecidableEq, Repr

/-- The call whose statement a step is. -/
def RegistryLabel.turnOf : RegistryLabel → Option Nat
  | .turn i _ _ => some i
  | .getOrCreate _ _ _ | .writeHeader _ _ _ _ _ | .delete _ => none

namespace Registry

def advance (w : Registry) : RegistryLabel → Registry
  | .getOrCreate kind scope ask => { w with calls := w.calls ++ [⟨kind, scope, ask, .looking⟩] }
  | .turn i uuid nowMs =>
      match w.calls[i]? with
      | some call =>
          ⟨(call.turn uuid nowMs w.rows).1, w.calls.set i { call with phase := (call.turn uuid nowMs w.rows).2 }⟩
      | none => w
  | .writeHeader treeId rootId maxLevel status lastSealedAtMs =>
      { w with
        rows := update (·.tree.id == treeId) (·.withHeader rootId maxLevel status lastSealedAtMs) w.rows }
  | .delete treeId => { w with rows := w.rows.filter fun row => row.tree.id ≠ treeId }

end Registry

def treeRegistry : Machine Registry RegistryLabel := ⟨⟨[], []⟩, Registry.advance⟩

/-! ### The insertion -/

variable {rows rows' : List TreeRow} {row : TreeRow} {kind : TreeKind} {scope : String}

theorem insertTree_some (h : insertTree row rows = some rows') :
    row.tree.id ∉ rows.map (·.tree.id) ∧ row.tree.scoped ∉ rows.map (·.tree.scoped) ∧ rows' = rows ++ [row] := by
  rw [insertTree] at h
  split_ifs at h with htaken
  rw [not_or] at htaken
  exact ⟨htaken.1, htaken.2, (Option.some.inj h).symm⟩

theorem insertTree_none (h : insertTree row rows = none) :
    row.tree.id ∈ rows.map (·.tree.id) ∨ row.tree.scoped ∈ rows.map (·.tree.scoped) := by
  rw [insertTree] at h
  split_ifs at h with htaken
  exact htaken

theorem rowByScope_inserted (h : insertTree row rows = some rows') :
    rowByScope rows' kind scope =
      if row.tree.scoped = (kind, scope) then some row else rowByScope rows kind scope := by
  obtain ⟨-, hscope, rfl⟩ := insertTree_some h
  rw [rowByScope, lookup_append, lookup]
  by_cases hsame : row.tree.scoped = (kind, scope)
  · rw [hsame] at hscope
    rw [if_pos hsame, if_pos hsame, lookup_eq_none_iff.mpr hscope, Option.none_or]
  · rw [if_neg hsame, if_neg hsame, lookup, Option.or_none]
    rfl

/-- The insertion of a fresh tree is the creation that the workspace of the trees takes in one step. -/
theorem map_tree_insertTree (call : RegistryCall) (treeId : String) (nowMs : Int) (db : Db)
    (hrows : rows.map TreeRow.tree = db.trees) :
    ((insertTree (call.row treeId nowMs) rows).getD rows).map TreeRow.tree =
      (Workspace.createTree treeId call.kind call.scope db).trees := by
  have hids : rows.map (·.tree.id) = db.trees.map Tree.id := by
    rw [← hrows, List.map_map]
    rfl
  have hscopes : rows.map (·.tree.scoped) = db.trees.map Tree.scoped := by
    rw [← hrows, List.map_map]
    rfl
  have hfound : (getTreeByScope db call.kind call.scope).isSome ↔
      (call.kind, call.scope) ∈ db.trees.map Tree.scoped := by
    rw [getTreeByScope, List.find?_isSome, List.mem_map]
    refine exists_congr fun tree => and_congr_right fun _ => ?_
    rw [Tree.scoped, Prod.mk.injEq, Bool.and_eq_true, beq_iff_eq, beq_iff_eq]
  have htaken : ((call.row treeId nowMs).tree.id ∈ rows.map (·.tree.id) ∨
      (call.row treeId nowMs).tree.scoped ∈ rows.map (·.tree.scoped)) ↔
      ((getTreeByScope db call.kind call.scope).isSome ∨ treeId ∈ db.trees.map Tree.id) := by
    rw [hids, hscopes, hfound, or_comm]
    rfl
  rw [insertTree, Workspace.createTree]
  by_cases hcreated : (getTreeByScope db call.kind call.scope).isSome ∨ treeId ∈ db.trees.map Tree.id
  · rw [if_pos (htaken.mpr hcreated), if_pos hcreated]
    exact hrows
  · rw [if_neg (htaken.not.mpr hcreated), if_neg hcreated]
    dsimp only
    rw [Option.getD_some, List.map_append, hrows]
    rfl

/-! ### The calls of a run -/

namespace RegistryCall

variable {call : RegistryCall} {uuid : String} {nowMs : Int} {result : Except RegistryError TreeRow}

/-- What the table says of the call's scope. -/
def answer (call : RegistryCall) (rows : List TreeRow) : Except RegistryError TreeRow :=
  match rowByScope rows call.kind call.scope with
  | some row => .ok row
  | none => .error (.vanished call.kind call.scope)

/-- The last statement of a call leaves the table with the answer that the call returns. -/
theorem turn_returns (hopen : ∀ done, call.phase ≠ .returned done)
    (h : (call.turn uuid nowMs rows).2 = .returned result) : result = call.answer (call.turn uuid nowMs rows).1 := by
  rw [answer]
  cases hphase : call.phase with
  | looking =>
      simp only [turn, hphase] at h ⊢
      cases hfound : rowByScope rows call.kind call.scope with
      | none =>
          rw [hfound] at h
          cases h
      | some existing =>
          rw [hfound] at h
          dsimp only at h ⊢
          rw [hfound, ← CallPhase.returned.inj h]
  | inserting treeId createdAtMs =>
      simp only [turn, hphase] at h ⊢
      cases hinsert : insertTree (call.row treeId createdAtMs) rows with
      | none =>
          rw [hinsert] at h
          cases h
      | some inserted =>
          rw [hinsert] at h
          dsimp only at h ⊢
          have hscoped : (call.row treeId createdAtMs).tree.scoped = (call.kind, call.scope) := rfl
          rw [rowByScope_inserted hinsert, if_pos hscoped,
            ← CallPhase.returned.inj h]
  | requerying =>
      simp only [turn, hphase] at h ⊢
      cases hfound : rowByScope rows call.kind call.scope with
      | none =>
          rw [hfound] at h
          dsimp only at h ⊢
          rw [hfound, ← CallPhase.returned.inj h]
      | some winner =>
          rw [hfound] at h
          dsimp only at h ⊢
          rw [hfound, ← CallPhase.returned.inj h]
  | returned done => exact absurd hphase (hopen done)

end RegistryCall

/-- How many statements a call may still run. -/
def CallPhase.rank : CallPhase → Nat
  | .looking => 3
  | .inserting _ _ => 2
  | .requerying => 1
  | .returned _ => 0

theorem RegistryCall.rank_turn (call : RegistryCall) (uuid : String) (nowMs : Int) (rows : List TreeRow) :
    (call.turn uuid nowMs rows).2.rank ≤ call.phase.rank - 1 := by
  cases hphase : call.phase with
  | looking =>
      simp only [turn, hphase]
      cases rowByScope rows call.kind call.scope <;> simp [CallPhase.rank]
  | inserting treeId createdAtMs =>
      simp only [turn, hphase]
      cases insertTree (call.row treeId createdAtMs) rows <;> simp [CallPhase.rank]
  | requerying =>
      simp only [turn, hphase]
      cases rowByScope rows call.kind call.scope <;> simp [CallPhase.rank]
  | returned done => simp [turn, hphase, CallPhase.rank]

theorem exists_of_rank_eq_zero {phase : CallPhase} (h : phase.rank = 0) : ∃ result, phase = .returned result := by
  cases phase with
  | returned result => exact ⟨result, rfl⟩
  | looking => cases h
  | inserting treeId nowMs => cases h
  | requerying => cases h

namespace Registry

variable {w : Registry} {label : RegistryLabel} {i j : Nat} {call next : RegistryCall}

/-- A call that is there after a step was there before, has begun, or has run a statement. -/
theorem calls_advance (h : (w.advance label).calls[i]? = some next) :
    (w.calls[i]? = some next ∧ ∀ uuid nowMs, label ≠ .turn i uuid nowMs) ∨
      (w.calls[i]? = none ∧ next.phase = .looking ∧ (w.advance label).rows = w.rows) ∨
      ∃ uuid nowMs call, label = .turn i uuid nowMs ∧ w.calls[i]? = some call ∧
        next = { call with phase := (call.turn uuid nowMs w.rows).2 } ∧
        (w.advance label).rows = (call.turn uuid nowMs w.rows).1 := by
  cases label with
  | getOrCreate kind scope ask =>
      rw [advance, List.getElem?_append] at h
      split_ifs at h with hlt
      · exact Or.inl ⟨h, nofun⟩
      · have hnew := List.mem_of_getElem? h
        rw [List.mem_singleton] at hnew
        exact Or.inr (Or.inl ⟨List.getElem?_eq_none (Nat.le_of_not_lt hlt), by rw [hnew], rfl⟩)
  | turn k uuid nowMs =>
      rw [advance] at h ⊢
      cases hcall : w.calls[k]? with
      | none =>
          rw [hcall] at h
          refine Or.inl ⟨h, fun uuid' nowMs' heq => ?_⟩
          obtain ⟨rfl, -, -⟩ := RegistryLabel.turn.inj heq
          rw [hcall] at h
          cases h
      | some call =>
          rw [hcall] at h
          dsimp only at h ⊢
          rw [List.getElem?_set] at h
          by_cases hik : k = i
          · subst hik
            rw [if_pos rfl, if_pos (List.getElem?_eq_some_iff.mp hcall).1] at h
            exact Or.inr (Or.inr ⟨uuid, nowMs, call, rfl, hcall, (Option.some.inj h).symm, rfl⟩)
          · rw [if_neg hik] at h
            exact Or.inl ⟨h, fun uuid' nowMs' heq => hik (RegistryLabel.turn.inj heq).1⟩
  | writeHeader treeId rootId maxLevel status lastSealedAtMs => exact Or.inl ⟨h, nofun⟩
  | delete treeId => exact Or.inl ⟨h, nofun⟩

/-- A call stays, with its scope and its question, and a statement of its own brings it nearer to its end. -/
theorem calls_kept (h : w.calls[i]? = some call) (label : RegistryLabel) :
    ∃ phase, (w.advance label).calls[i]? = some { call with phase := phase } ∧
      phase.rank ≤ call.phase.rank - (if label.turnOf = some i then 1 else 0) := by
  have hlt : i < w.calls.length := (List.getElem?_eq_some_iff.mp h).1
  cases label with
  | getOrCreate kind scope ask =>
      refine ⟨call.phase, ?_, Nat.le_refl _⟩
      rw [advance, List.getElem?_append_left hlt, h]
  | turn k uuid nowMs =>
      by_cases hk : k = i
      · subst hk
        refine ⟨(call.turn uuid nowMs w.rows).2, ?_, ?_⟩
        · rw [advance, h]
          dsimp only
          rw [List.getElem?_set_self hlt]
        · rw [if_pos (show (RegistryLabel.turn k uuid nowMs).turnOf = some k from rfl)]
          exact call.rank_turn uuid nowMs w.rows
      · refine ⟨call.phase, ?_, ?_⟩
        · rw [advance]
          cases hother : w.calls[k]? with
          | none => exact h
          | some other =>
              dsimp only
              rw [List.getElem?_set_ne hk, h]
        · rw [if_neg (show (RegistryLabel.turn k uuid nowMs).turnOf ≠ some i from fun heq => hk (Option.some.inj heq))]
          exact Nat.le_refl _
  | writeHeader treeId rootId maxLevel status lastSealedAtMs => exact ⟨call.phase, h, Nat.le_refl _⟩
  | delete treeId => exact ⟨call.phase, h, Nat.le_refl _⟩

theorem calls_kept_run (h : w.calls[i]? = some call) (labels : List RegistryLabel) :
    ∃ phase, (labels.foldl advance w).calls[i]? = some { call with phase := phase } ∧
      phase.rank ≤ call.phase.rank - labels.countP (·.turnOf = some i) := by
  induction labels generalizing w call with
  | nil => exact ⟨call.phase, h, Nat.le_refl _⟩
  | cons label labels ih =>
      obtain ⟨phase, hphase, hrank⟩ := calls_kept h label
      obtain ⟨last, hlast, hlastRank⟩ := ih hphase
      refine ⟨last, hlast, hlastRank.trans ?_⟩
      rw [List.countP_cons]
      dsimp only at hrank ⊢
      by_cases hown : label.turnOf = some i
      · rw [if_pos hown] at hrank
        rw [if_pos (decide_eq_true hown)]
        omega
      · rw [if_neg hown] at hrank
        rw [if_neg (by rw [decide_eq_true_eq]; exact hown)]
        omega

/-- The primary key and the unique index. -/
structure Keyed (w : Registry) : Prop where
  ids : (w.rows.map (·.tree.id)).Nodup
  scopes : (w.rows.map (·.tree.scoped)).Nodup

theorem Keyed.inserted {inserted : List TreeRow} {calls : List RegistryCall} (h : w.Keyed)
    (hinsert : insertTree row w.rows = some inserted) : Keyed ⟨inserted, calls⟩ := by
  obtain ⟨hid, hscope, rfl⟩ := insertTree_some hinsert
  refine ⟨?_, ?_⟩
  · rw [List.map_append, List.map_singleton, ← List.concat_eq_append]
    exact h.ids.concat hid
  · rw [List.map_append, List.map_singleton, ← List.concat_eq_append]
    exact h.scopes.concat hscope

/-- A statement of a call inserts its row, and the call returns it, or leaves the rows. -/
theorem rows_turn (call : RegistryCall) (uuid : String) (nowMs : Int) (rows : List TreeRow) :
    (call.turn uuid nowMs rows).1 = rows ∨
      ∃ treeId createdAtMs inserted, call.phase = .inserting treeId createdAtMs ∧
        insertTree (call.row treeId createdAtMs) rows = some inserted ∧
        call.turn uuid nowMs rows = (inserted, .returned (.ok (call.row treeId createdAtMs))) := by
  cases hphase : call.phase with
  | looking =>
      refine Or.inl ?_
      simp only [RegistryCall.turn, hphase]
      cases rowByScope rows call.kind call.scope <;> rfl
  | inserting treeId createdAtMs =>
      cases hinsert : insertTree (call.row treeId createdAtMs) rows with
      | none =>
          refine Or.inl ?_
          simp only [RegistryCall.turn, hphase, hinsert]
      | some inserted =>
          refine Or.inr ⟨treeId, createdAtMs, inserted, rfl, hinsert, ?_⟩
          simp only [RegistryCall.turn, hphase, hinsert]
  | requerying =>
      refine Or.inl ?_
      simp only [RegistryCall.turn, hphase]
      cases rowByScope rows call.kind call.scope <;> rfl
  | returned done =>
      refine Or.inl ?_
      simp only [RegistryCall.turn, hphase]

theorem Keyed.advance (h : w.Keyed) (label : RegistryLabel) : (w.advance label).Keyed := by
  cases label with
  | getOrCreate kind scope ask => exact ⟨h.ids, h.scopes⟩
  | turn i uuid nowMs =>
      rw [Registry.advance]
      cases w.calls[i]? with
      | none => exact h
      | some call =>
          dsimp only
          rcases rows_turn call uuid nowMs w.rows with hsame | ⟨treeId, createdAtMs, inserted, -, hinsert, hturn⟩
          · rw [hsame]
            exact ⟨h.ids, h.scopes⟩
          · rw [hturn]
            exact h.inserted hinsert
  | writeHeader treeId rootId maxLevel status lastSealedAtMs =>
      refine ⟨?_, ?_⟩
      · rw [Registry.advance, map_update fun row => row.id_withHeader rootId maxLevel status lastSealedAtMs]
        exact h.ids
      · rw [Registry.advance, map_update fun row => row.scoped_withHeader rootId maxLevel status lastSealedAtMs]
        exact h.scopes
  | delete treeId =>
      exact ⟨(List.filter_sublist.map _).nodup h.ids, (List.filter_sublist.map _).nodup h.scopes⟩

end Registry

theorem keyed_treeRegistry (labels : List RegistryLabel) : (treeRegistry.run labels).Keyed :=
  treeRegistry.invariant ⟨List.nodup_nil, List.nodup_nil⟩ (fun _ label h => h.advance label) labels

/-- What a call has returned is what the table said right after its last statement. -/
theorem returned_answer (labels : List RegistryLabel) {i : Nat} {call : RegistryCall}
    {result : Except RegistryError TreeRow} (hcall : (treeRegistry.run labels).calls[i]? = some call)
    (hresult : call.phase = .returned result) :
    ∃ done uuid nowMs rest, labels = done ++ .turn i uuid nowMs :: rest ∧
      result = call.answer (treeRegistry.run (done ++ [.turn i uuid nowMs])).rows := by
  induction labels using List.reverseRecOn generalizing call with
  | nil => cases hcall
  | append_singleton labels label ih =>
      have hkeep {done uuid nowMs rest} (hsplit : labels = done ++ .turn i uuid nowMs :: rest) :
          labels ++ [label] = done ++ .turn i uuid nowMs :: (rest ++ [label]) := by
        rw [hsplit, List.append_assoc, List.cons_append]
      rw [Machine.run_concat] at hcall
      rcases Registry.calls_advance hcall with
        ⟨hbefore, -⟩ | ⟨-, hlooking, -⟩ | ⟨uuid, nowMs, before, rfl, hbefore, rfl, hrows⟩
      · obtain ⟨done, uuid, nowMs, rest, hsplit, hanswer⟩ := ih hbefore hresult
        exact ⟨done, uuid, nowMs, rest ++ [label], hkeep hsplit, hanswer⟩
      · rw [hlooking] at hresult
        cases hresult
      · by_cases hopen : ∀ done, before.phase ≠ .returned done
        · refine ⟨labels, uuid, nowMs, [], rfl, ?_⟩
          rw [Machine.run_concat, show treeRegistry.step = Registry.advance from rfl, hrows]
          exact RegistryCall.turn_returns hopen hresult
        · obtain ⟨done', hdone'⟩ := not_forall_not.mp hopen
          dsimp only at hresult
          rw [RegistryCall.turn, hdone'] at hresult
          obtain rfl := CallPhase.returned.inj hresult
          obtain ⟨done, uuid', nowMs', rest, hsplit, hanswer⟩ := ih hbefore hdone'
          exact ⟨done, uuid', nowMs', rest ++ [_], hkeep hsplit, hanswer⟩

/-- Every run keeps one row for a scope. A call ends within three of its statements, whatever runs in between, and then
it has returned what the table said of its scope right after the last of them. -/
theorem getOrCreate_linearizes (labels : List RegistryLabel) :
    ((treeRegistry.run labels).rows.map (·.tree.scoped)).Nodup ∧
      ∀ (i : Nat) (call : RegistryCall), (treeRegistry.run labels).calls[i]? = some call →
        (∀ more : List RegistryLabel, 3 ≤ more.countP (·.turnOf = some i) →
          ∃ result, (treeRegistry.run (labels ++ more)).calls[i]? = some { call with phase := .returned result }) ∧
        ∀ result, call.phase = .returned result →
          ∃ done uuid nowMs rest, labels = done ++ .turn i uuid nowMs :: rest ∧
            result = call.answer (treeRegistry.run (done ++ [.turn i uuid nowMs])).rows := by
  refine ⟨(keyed_treeRegistry labels).scopes, fun i call hcall => ⟨fun more hmore => ?_, fun result hresult => ?_⟩⟩
  · obtain ⟨phase, hphase, hrank⟩ := Registry.calls_kept_run hcall more
    have hthree : call.phase.rank ≤ 3 := by
      cases call.phase <;> simp [CallPhase.rank]
    obtain ⟨result, rfl⟩ := exists_of_rank_eq_zero (show phase.rank = 0 by omega)
    refine ⟨result, ?_⟩
    rw [Machine.run, List.foldl_append]
    exact hphase
  · exact returned_answer labels hcall hresult

/-! ### Callers of one scope -/

/-- What no later transaction changes of a row. -/
def TreeRow.stamp (row : TreeRow) : String × Int × Option String := (row.tree.id, row.createdAtMs, row.ask)

def RegistryCall.For (call : RegistryCall) (kind : TreeKind) (scope : String) : Prop :=
  call.kind = kind ∧ call.scope = scope

namespace Registry

/-- The ids that calls have minted and not yet inserted. -/
def pendingIds (w : Registry) : List String :=
  w.calls.filterMap fun call =>
    match call.phase with
    | .inserting treeId _ => some treeId
    | .looking | .requerying | .returned _ => none

/-- A fresh tree gets an id of its own. -/
def MintsId (w : Registry) : RegistryLabel → Prop
  | .turn i uuid _ =>
      ∀ call ∈ w.calls[i]?, call.phase = .looking →
        newTreeId call.kind uuid ∉ w.rows.map (·.tree.id) ∧ newTreeId call.kind uuid ∉ w.pendingIds
  | .getOrCreate _ _ _ | .writeHeader _ _ _ _ _ | .delete _ => True

/-- The tree of the scope is not deleted. -/
def Spares (kind : TreeKind) (scope : String) (w : Registry) : RegistryLabel → Prop
  | .delete treeId => ∀ row ∈ rowByScope w.rows kind scope, row.tree.id ≠ treeId
  | .getOrCreate _ _ _ | .turn _ _ _ | .writeHeader _ _ _ _ _ => True

instance (w : Registry) : ∀ label, Decidable (w.MintsId label)
  | .turn i uuid _ =>
      inferInstanceAs (Decidable (∀ call ∈ w.calls[i]?, call.phase = .looking →
        newTreeId call.kind uuid ∉ w.rows.map (·.tree.id) ∧ newTreeId call.kind uuid ∉ w.pendingIds))
  | .getOrCreate _ _ _ | .writeHeader _ _ _ _ _ | .delete _ => isTrue trivial

instance (kind : TreeKind) (scope : String) (w : Registry) : ∀ label, Decidable (w.Spares kind scope label)
  | .delete treeId => inferInstanceAs (Decidable (∀ row ∈ rowByScope w.rows kind scope, row.tree.id ≠ treeId))
  | .getOrCreate _ _ _ | .turn _ _ _ | .writeHeader _ _ _ _ _ => isTrue trivial

/-- The stamp of the scope's row. -/
def stampOf (rows : List TreeRow) (kind : TreeKind) (scope : String) : Option (String × Int × Option String) :=
  (rowByScope rows kind scope).map TreeRow.stamp

end Registry

open Registry

/-- The minted id is not taken, a call that is about to look again finds a row, and one that has returned has returned
the row of the scope. -/
def RegistryCall.Ok (kind : TreeKind) (scope : String) (rows : List TreeRow) (call : RegistryCall) : Prop :=
  match call.phase with
  | .looking => True
  | .inserting treeId _ => treeId ∉ rows.map (·.tree.id)
  | .requerying => call.For kind scope → (stampOf rows kind scope).isSome
  | .returned result => call.For kind scope → ∃ row, result = .ok row ∧ stampOf rows kind scope = some row.stamp

namespace RegistryCall

variable {call : RegistryCall} {uuid : String} {nowMs : Int}

theorem Ok.mono (h : call.Ok kind scope rows)
    (hids : ∀ treeId nowMs, call.phase = .inserting treeId nowMs → treeId ∉ rows.map (·.tree.id) →
      treeId ∉ rows'.map (·.tree.id))
    (hstamp : ∀ stamp, stampOf rows kind scope = some stamp → stampOf rows' kind scope = some stamp) :
    call.Ok kind scope rows' := by
  unfold Ok at h ⊢
  cases hphase : call.phase with
  | looking => trivial
  | inserting treeId nowMs =>
      rw [hphase] at h
      exact hids treeId nowMs hphase h
  | requerying =>
      rw [hphase] at h
      intro hfor
      obtain ⟨stamp, hsome⟩ := Option.isSome_iff_exists.mp (h hfor)
      exact Option.isSome_iff_exists.mpr ⟨stamp, hstamp stamp hsome⟩
  | returned result =>
      rw [hphase] at h
      intro hfor
      obtain ⟨row, hrow, hsome⟩ := h hfor
      exact ⟨row, hrow, hstamp _ hsome⟩

theorem stampOf_of_found (call : RegistryCall) (hfor : call.For kind scope)
    (hfound : rowByScope rows call.kind call.scope = some row) : stampOf rows kind scope = some row.stamp := by
  obtain ⟨rfl, rfl⟩ := hfor
  rw [stampOf, hfound, Option.map_some]

/-- The next statement of a call. -/
theorem Ok.turn (h : call.Ok kind scope rows)
    (hmints : call.phase = .looking → newTreeId call.kind uuid ∉ rows.map (·.tree.id)) :
    Ok kind scope (call.turn uuid nowMs rows).1 { call with phase := (call.turn uuid nowMs rows).2 } := by
  unfold Ok at h
  cases hphase : call.phase with
  | looking =>
      simp only [RegistryCall.turn, hphase]
      cases hfound : rowByScope rows call.kind call.scope with
      | none => exact hmints hphase
      | some existing => exact fun hfor => ⟨existing, rfl, stampOf_of_found call hfor hfound⟩
  | inserting treeId createdAtMs =>
      rw [hphase] at h
      simp only [RegistryCall.turn, hphase]
      cases hinsert : insertTree (call.row treeId createdAtMs) rows with
      | none =>
          intro hfor
          obtain ⟨rfl, rfl⟩ := hfor
          rcases insertTree_none hinsert with hid | hscope
          · exact absurd hid h
          · rw [stampOf, Option.isSome_map]
            exact lookup_isSome_iff.mpr hscope
      | some inserted =>
          intro hfor
          obtain ⟨rfl, rfl⟩ := hfor
          refine ⟨call.row treeId createdAtMs, rfl, ?_⟩
          rw [stampOf, rowByScope_inserted hinsert,
            if_pos (show (call.row treeId createdAtMs).tree.scoped = (call.kind, call.scope) from rfl), Option.map_some]
  | requerying =>
      rw [hphase] at h
      simp only [RegistryCall.turn, hphase]
      cases hfound : rowByScope rows call.kind call.scope with
      | none =>
          intro hfor
          obtain ⟨rfl, rfl⟩ := hfor
          have hsome := h ⟨rfl, rfl⟩
          rw [stampOf, hfound] at hsome
          cases hsome
      | some existing => exact fun hfor => ⟨existing, rfl, stampOf_of_found call hfor hfound⟩
  | returned result =>
      rw [hphase] at h
      simp only [RegistryCall.turn, hphase]
      exact h

end RegistryCall

namespace Registry

variable {w : Registry} {label : RegistryLabel} {i : Nat} {call : RegistryCall}

/-- The calls stand well with the rows, minted ids are apart, and a row of the scope was inserted by a call. -/
structure Agreed (kind : TreeKind) (scope : String) (w : Registry) : Prop where
  ok : ∀ (i : Nat) (call : RegistryCall), w.calls[i]? = some call → call.Ok kind scope w.rows
  apart : ∀ (i j : Nat) (call other : RegistryCall) (treeId : String) (nowMs nowMs' : Int),
    w.calls[i]? = some call → w.calls[j]? = some other → call.phase = .inserting treeId nowMs →
    other.phase = .inserting treeId nowMs' → i = j
  winner : ∀ stamp, stampOf w.rows kind scope = some stamp → ∃ (i : Nat) (call : RegistryCall) (row : TreeRow),
    w.calls[i]? = some call ∧ call.For kind scope ∧ call.phase = .returned (.ok row) ∧ row.stamp = stamp ∧
      row.ask = call.ask

/-- A step of nobody's. -/
theorem Agreed.frame {w' : Registry} (h : w.Agreed kind scope)
    (hcalls : ∀ (i : Nat) (call : RegistryCall), w'.calls[i]? = some call →
      w.calls[i]? = some call ∨ call.phase = .looking)
    (hkept : ∀ (i : Nat) (call : RegistryCall), w.calls[i]? = some call → w'.calls[i]? = some call)
    (hids : ∀ treeId, treeId ∈ w'.rows.map (·.tree.id) → treeId ∈ w.rows.map (·.tree.id))
    (hstamp : stampOf w'.rows kind scope = stampOf w.rows kind scope) : w'.Agreed kind scope where
  ok i call hcall := by
    rcases hcalls i call hcall with hold | hlooking
    · exact (h.ok i call hold).mono (fun treeId _ _ hfresh hmem => hfresh (hids treeId hmem))
        fun stamp hsome => hstamp.trans hsome
    · rw [RegistryCall.Ok, hlooking]
      trivial
  apart i j call other treeId nowMs nowMs' hcall hother hphase hphase' := by
    rcases hcalls i call hcall with hold | hlooking
    · rcases hcalls j other hother with hold' | hlooking
      · exact h.apart i j call other treeId nowMs nowMs' hold hold' hphase hphase'
      · rw [hlooking] at hphase'
        cases hphase'
    · rw [hlooking] at hphase
      cases hphase
  winner stamp hsome := by
    obtain ⟨i, call, row, hcall, hrest⟩ := h.winner stamp (hstamp ▸ hsome)
    exact ⟨i, call, row, hkept i call hcall, hrest⟩

theorem mem_pendingIds {treeId : String} {nowMs : Int} (hcall : w.calls[i]? = some call)
    (hphase : call.phase = .inserting treeId nowMs) : treeId ∈ w.pendingIds := by
  refine List.mem_filterMap.mpr ⟨call, List.mem_of_getElem? hcall, ?_⟩
  rw [hphase]

theorem stampOf_inserted (hinsert : insertTree row rows = some rows') :
    stampOf rows' kind scope = if row.tree.scoped = (kind, scope) then some row.stamp else stampOf rows kind scope := by
  rw [stampOf, rowByScope_inserted hinsert, apply_ite (Option.map TreeRow.stamp), Option.map_some]
  rfl

/-- The row of a scope that has one stays through a statement. -/
theorem stampOf_turn {uuid : String} {nowMs : Int} {stamp : String × Int × Option String}
    (h : stampOf rows kind scope = some stamp) :
    stampOf (call.turn uuid nowMs rows).1 kind scope = some stamp := by
  rcases rows_turn call uuid nowMs rows with hsame | ⟨treeId, createdAtMs, inserted, -, hinsert, hturn⟩
  · rw [hsame]
    exact h
  · rw [hturn]
    dsimp only
    rw [stampOf_inserted hinsert]
    split_ifs with hscoped
    · obtain ⟨-, hfresh, -⟩ := insertTree_some hinsert
      rw [hscoped] at hfresh
      rw [stampOf, rowByScope, lookup_eq_none_iff.mpr hfresh] at h
      cases h
    · exact h

theorem Agreed.turn (h : w.Agreed kind scope) {uuid : String} {nowMs : Int} (hcall : w.calls[i]? = some call)
    (hmints : call.phase = .looking →
      newTreeId call.kind uuid ∉ w.rows.map (·.tree.id) ∧ newTreeId call.kind uuid ∉ w.pendingIds) :
    Agreed kind scope ⟨(call.turn uuid nowMs w.rows).1,
      w.calls.set i { call with phase := (call.turn uuid nowMs w.rows).2 }⟩ := by
  have hlt : i < w.calls.length := (List.getElem?_eq_some_iff.mp hcall).1
  -- what the new call mints is nobody else's
  have hminted {treeId : String} {createdAtMs : Int}
      (hphase : (call.turn uuid nowMs w.rows).2 = .inserting treeId createdAtMs) : treeId ∉ w.pendingIds := by
    cases hbefore : call.phase with
    | looking =>
        simp only [RegistryCall.turn, hbefore] at hphase
        cases hfound : rowByScope w.rows call.kind call.scope with
        | none =>
            rw [hfound] at hphase
            rw [← (CallPhase.inserting.inj hphase).1]
            exact (hmints hbefore).2
        | some existing =>
            rw [hfound] at hphase
            cases hphase
    | inserting treeId' createdAtMs' =>
        simp only [RegistryCall.turn, hbefore] at hphase
        cases hinsert : insertTree (call.row treeId' createdAtMs') w.rows <;>
          simp only [hinsert, reduceCtorEq] at hphase
    | requerying =>
        simp only [RegistryCall.turn, hbefore] at hphase
        cases hfound : rowByScope w.rows call.kind call.scope <;> simp only [hfound, reduceCtorEq] at hphase
    | returned result =>
        simp only [RegistryCall.turn, hbefore, reduceCtorEq] at hphase
  have hget (j : Nat) : (w.calls.set i { call with phase := (call.turn uuid nowMs w.rows).2 })[j]? =
      if i = j then some { call with phase := (call.turn uuid nowMs w.rows).2 } else w.calls[j]? := by
    rw [List.getElem?_set]
    by_cases hij : i = j
    · rw [if_pos hij, if_pos hij, if_pos hlt]
    · rw [if_neg hij, if_neg hij]
  refine ⟨fun j other hother => ?_, fun j k one two treeId at' at'' hone htwo hphase hphase' => ?_,
    fun stamp hstamp => ?_⟩
  · rw [hget] at hother
    split_ifs at hother with hij
    · rw [← Option.some.inj hother]
      exact (h.ok i call hcall).turn fun hlooking => (hmints hlooking).1
    · refine (h.ok j other hother).mono (fun treeId at' hphase hfresh hmem => ?_) fun stamp hsome => stampOf_turn hsome
      rcases rows_turn call uuid nowMs w.rows with hsame | ⟨treeId', createdAtMs, inserted, hbefore, hinsert, hturn⟩
      · exact hfresh (hsame ▸ hmem)
      · obtain ⟨-, -, rfl⟩ := insertTree_some hinsert
        rw [hturn] at hmem
        dsimp only at hmem
        rw [List.map_append, List.mem_append] at hmem
        rcases hmem with hold | hnew
        · exact hfresh hold
        · have hsame : treeId = treeId' := List.mem_singleton.mp hnew
          rw [← hsame] at hbefore
          exact hij (h.apart i j call other treeId createdAtMs at' hcall hother hbefore hphase)
  · rw [hget] at hone htwo
    split_ifs at hone htwo with hij hik hik
    · exact hij.symm.trans hik
    · rw [← Option.some.inj hone] at hphase
      exact absurd (mem_pendingIds htwo hphase') (hminted hphase)
    · rw [← Option.some.inj htwo] at hphase'
      exact absurd (mem_pendingIds hone hphase) (hminted hphase')
    · exact h.apart j k one two treeId at' at'' hone htwo hphase hphase'
  · dsimp only at hstamp ⊢
    -- a call that has returned is not the one that runs, or stays as it is
    have hold (hsome : stampOf w.rows kind scope = some stamp) : ∃ (k : Nat) (winner : RegistryCall) (row : TreeRow),
        (w.calls.set i { call with phase := (call.turn uuid nowMs w.rows).2 })[k]? = some winner ∧
          winner.For kind scope ∧ winner.phase = .returned (.ok row) ∧ row.stamp = stamp ∧ row.ask = winner.ask := by
      obtain ⟨k, winner, row, hwinner, hfor, hphase, hrow⟩ := h.winner stamp hsome
      refine ⟨k, winner, row, ?_, hfor, hphase, hrow⟩
      rw [hget]
      split_ifs with hik
      · subst hik
        rw [hcall] at hwinner
        obtain rfl := Option.some.inj hwinner
        have hsame : (call.turn uuid nowMs w.rows).2 = call.phase := by
          rw [RegistryCall.turn, hphase]
        rw [hsame]
      · exact hwinner
    rcases rows_turn call uuid nowMs w.rows with hsame | ⟨treeId, createdAtMs, inserted, hbefore, hinsert, hturn⟩
    · exact hold (hsame ▸ hstamp)
    · by_cases hscoped : (call.row treeId createdAtMs).tree.scoped = (kind, scope)
      · have hfor : call.For kind scope := Prod.mk.inj hscoped
        have hnew : stampOf inserted kind scope = some (call.row treeId createdAtMs).stamp :=
          (stampOf_inserted hinsert).trans (if_pos hscoped)
        rw [hturn] at hstamp
        refine ⟨i, { call with phase := (call.turn uuid nowMs w.rows).2 }, call.row treeId createdAtMs, ?_, hfor, ?_,
          ?_, rfl⟩
        · rw [hget, if_pos rfl]
        · dsimp only
          rw [hturn]
        · exact Option.some.inj (hnew.symm.trans hstamp)
      · rw [hturn, stampOf_inserted hinsert, if_neg hscoped] at hstamp
        exact hold hstamp

theorem Agreed.advance (h : w.Agreed kind scope) (hkeyed : w.Keyed) (hmints : w.MintsId label)
    (hspares : w.Spares kind scope label) : (w.advance label).Agreed kind scope := by
  cases label with
  | getOrCreate kind' scope' ask =>
      refine h.frame (fun i call hcall => ?_) (fun i call hcall => ?_) (fun _ hmem => hmem) rfl
      · rcases calls_advance hcall with ⟨hold, -⟩ | ⟨-, hlooking, -⟩ | ⟨uuid, nowMs, before, hlabel, -⟩
        · exact Or.inl hold
        · exact Or.inr hlooking
        · cases hlabel
      · rw [Registry.advance, List.getElem?_append_left (List.getElem?_eq_some_iff.mp hcall).1]
        exact hcall
  | turn i uuid nowMs =>
      rw [Registry.advance]
      cases hcall : w.calls[i]? with
      | none => exact h
      | some call => exact h.turn hcall (hmints call hcall)
  | writeHeader treeId rootId maxLevel status lastSealedAtMs =>
      refine h.frame (fun _ _ hcall => Or.inl hcall) (fun _ _ hcall => hcall) (fun id hmem => ?_) ?_
      · rw [Registry.advance, map_update fun row => row.id_withHeader rootId maxLevel status lastSealedAtMs] at hmem
        exact hmem
      · rw [Registry.advance, stampOf, rowByScope,
          lookup_update fun row => row.scoped_withHeader rootId maxLevel status lastSealedAtMs, Option.map_map, stampOf,
          rowByScope]
        congr 1
        funext row
        rw [Function.comp_apply]
        split_ifs <;> rfl
  | delete treeId =>
      refine h.frame (fun _ _ hcall => Or.inl hcall) (fun _ _ hcall => hcall) (fun id hmem => ?_) ?_
      · exact (List.filter_sublist.map _).subset hmem
      · rw [Registry.advance, stampOf, stampOf, rowByScope, rowByScope]
        refine congrArg (Option.map TreeRow.stamp) (lookup_filter_of_keep fun row hrow hscoped => ?_)
        have hfound := lookup_of_mem hkeyed.scopes hrow
        rw [hscoped] at hfound
        exact decide_eq_true (hspares row hfound)

end Registry

theorem agreed_start (kind : TreeKind) (scope : String) : Registry.Agreed kind scope ⟨[], []⟩ where
  ok i call hcall := by
    rw [List.getElem?_nil] at hcall
    cases hcall
  apart i j call other treeId nowMs nowMs' hcall := by
    rw [List.getElem?_nil] at hcall
    cases hcall
  winner stamp hstamp := by cases hstamp

theorem agreed_run {labels : List RegistryLabel} (hmints : treeRegistry.AllSteps Registry.MintsId labels)
    (hspares : treeRegistry.AllSteps (Registry.Spares kind scope) labels) :
    (treeRegistry.run labels).Agreed kind scope ∧ (treeRegistry.run labels).Keyed := by
  have hboth : treeRegistry.AllSteps (fun w label => w.MintsId label ∧ w.Spares kind scope label) labels :=
    fun done label rest hsplit => ⟨hmints done label rest hsplit, hspares done label rest hsplit⟩
  have hstart : treeRegistry.start.Agreed kind scope ∧ treeRegistry.start.Keyed :=
    ⟨agreed_start kind scope, List.nodup_nil, List.nodup_nil⟩
  have hstep : ∀ (w : Registry) (label : RegistryLabel), w.Agreed kind scope ∧ w.Keyed →
      w.MintsId label ∧ w.Spares kind scope label →
      (w.advance label).Agreed kind scope ∧ (w.advance label).Keyed :=
    fun w label h hok => ⟨h.1.advance h.2 hok.1 hok.2, h.2.advance label⟩
  exact treeRegistry.invariant_of_steps hstart hstep hboth

/-- While the tree of a scope is not deleted, every call for the scope that returns has the tree that is registered: they
agree on its id, its time and its question, and the question is that of a call. -/
theorem getOrCreate_agrees {labels : List RegistryLabel} (hmints : treeRegistry.AllSteps Registry.MintsId labels)
    (hspares : treeRegistry.AllSteps (Registry.Spares kind scope) labels) {i : Nat} {call : RegistryCall}
    {result : Except RegistryError TreeRow} (hcall : (treeRegistry.run labels).calls[i]? = some call)
    (hfor : call.For kind scope) (hresult : call.phase = .returned result) :
    ∃ row, result = .ok row ∧ stampOf (treeRegistry.run labels).rows kind scope = some row.stamp ∧
      ∃ (j : Nat) (first : RegistryCall) (inserted : TreeRow),
        (treeRegistry.run labels).calls[j]? = some first ∧ first.For kind scope ∧
          first.phase = .returned (.ok inserted) ∧ inserted.stamp = row.stamp ∧ row.ask = first.ask := by
  obtain ⟨hagreed, -⟩ := agreed_run hmints hspares
  have hok := hagreed.ok i call hcall
  rw [RegistryCall.Ok, hresult] at hok
  obtain ⟨row, hrow, hstamp⟩ := hok hfor
  obtain ⟨j, first, inserted, hfirst, hfirstFor, hphase, hsame, hask⟩ := hagreed.winner _ hstamp
  refine ⟨row, hrow, hstamp, j, first, inserted, hfirst, hfirstFor, hphase, hsame, ?_⟩
  rw [← hask]
  exact (Prod.mk.inj (Prod.mk.inj hsame).2).2.symm

/-- Two calls that both find no tree; the second one inserts first. -/
def racingCalls : List RegistryLabel :=
  [.getOrCreate .flavoured "health" (some "sleep?"), .getOrCreate .flavoured "health" (some "diet?"),
    .turn 0 "a" 10, .turn 1 "b" 11, .turn 1 "" 12, .turn 0 "" 13, .writeHeader "flavoured:b" none 1 .active (some 14),
    .turn 0 "" 15]

theorem getOrCreate_agrees_racing :
    (((treeRegistry.run racingCalls).calls.map (·.phase)) =
      [.returned (.ok ⟨⟨"flavoured:b", .flavoured, "health", none, 1, .active, some 14⟩, 11, some "diet?"⟩),
        .returned (.ok ⟨⟨"flavoured:b", .flavoured, "health", none, 0, .active, none⟩, 11, some "diet?"⟩)]) ∧
      stampOf (treeRegistry.run racingCalls).rows .flavoured "health" = some ("flavoured:b", 11, some "diet?") := by
  have hmints : treeRegistry.AllSteps Registry.MintsId racingCalls := treeRegistry.allSteps_iff_stepsFrom.mpr (by decide)
  have hspares : treeRegistry.AllSteps (Registry.Spares .flavoured "health") racingCalls :=
    treeRegistry.allSteps_iff_stepsFrom.mpr (by decide)
  have hcall : (treeRegistry.run racingCalls).calls[0]? = some ⟨.flavoured, "health", some "sleep?", .returned
      (.ok ⟨⟨"flavoured:b", .flavoured, "health", none, 1, .active, some 14⟩, 11, some "diet?"⟩)⟩ := by decide
  obtain ⟨row, hrow, hstamp, -⟩ := getOrCreate_agrees hmints hspares hcall ⟨rfl, rfl⟩ rfl
  refine ⟨by decide, ?_⟩
  rw [hstamp, ← Except.ok.inj hrow]
  rfl

end TinyCortex.SummaryTree
