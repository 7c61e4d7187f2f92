import TinyCortex.Graph.Bfs

/-! The loop of `graph/bfs.rs` as it is written: one queue of entities with their distances, a cache of neighbours and a
set of emitted pairs that all sources share. It computes what the search by distances computes. -/

namespace TinyCortex.Graph.Bfs

open Table

/-- What the loop changes; the cache, the emitted pairs and the output stay from one source to the next. -/
structure Visit where
  cache : List (String × List String)
  emitted : List (String × String)
  output : List PairDistance
  remaining : List String
  visited : List String
  queue : List (String × Nat)
  deriving DecidableEq, Repr

section Loop

variable (edges : List EdgeRow) (source : String) (maxH : Nat)

def Visit.meet (distance : Nat) (v : Visit) (neighbor : String) : Visit :=
  if neighbor ∈ v.visited then v
  else
    let pair := endpoints source neighbor
    let emits := decide (neighbor ∈ v.remaining) && decide (pair ∉ v.emitted)
    { v with
      visited := neighbor :: v.visited
      remaining := v.remaining.erase neighbor
      emitted := if emits then v.emitted ++ [pair] else v.emitted
      output := if emits then v.output ++ [⟨pair.1, pair.2, distance + 1⟩] else v.output
      queue := v.queue ++ [(neighbor, distance + 1)] }

def fill (node : String) (cache : List (String × List String)) : List (String × List String) :=
  if node ∈ cache.map Prod.fst then cache else upsert Prod.fst (node, (edgeNeighbors edges node).map Prod.fst) cache

/-- One turn of the loop, on the entity that was popped. -/
def Visit.turn (node : String) (distance : Nat) (v : Visit) : Visit :=
  if maxH ≤ distance ∨ v.remaining = [] then v
  else
    let cache := fill edges node v.cache
    (((lookup Prod.fst node cache).map Prod.snd).getD []).foldl (Visit.meet source distance) { v with cache := cache }

/-- `while let Some((node, distance)) = queue.pop_front()`. -/
def Visit.loop : Nat → Visit → Option Visit
  | fuel, v =>
    match v.queue, fuel with
    | [], _ => some v
    | _ :: _, 0 => none
    | (node, distance) :: queue, fuel + 1 => loop fuel (Visit.turn edges source maxH node distance { v with queue := queue })

end Loop

def pairDistances (fuel : Nat) (edges : List EdgeRow) (entityIds : List String) (maxH : Nat) :
    Option (List PairDistance) :=
  if maxH = 0 ∨ entityIds.length < 2 then some []
  else do
    let unique := entityIds.dedup.insertionSort (· ≤ ·)
    let last ← unique.foldlM (fun v source => Visit.loop edges source maxH fuel
      { v with remaining := unique.erase source, visited := [source], queue := [(source, 0)] }) ⟨[], [], [], [], [], []⟩
    some (last.output.insertionSort fun x y => x.before y)

/-! ### The loop next to the search by distances -/

variable {edges : List EdgeRow} {source : String} {maxH k : Nat} {v : Visit} {s : Search}

/-- The same search, with what has been queued for the next distance at the end of the queue. -/
structure Sim (edges : List EdgeRow) (k : Nat) (current : List String) (v : Visit) (s : Search) : Prop where
  visited : v.visited = s.visited
  remaining : v.remaining = s.remaining
  output : v.output = s.output
  emitted : v.emitted = s.output.map PairDistance.pair
  cache : ∀ entry ∈ v.cache, entry.2 = neighbors edges entry.1
  queue : v.queue = current.map (·, k) ++ s.queue.map (·, k + 1)

theorem Sim.meet {current : List String} (h : Sim edges k current v s) (neighbor : String) :
    Sim edges k current (Visit.meet source k v neighbor) (Search.meet source (k + 1) s neighbor) := by
  rw [Visit.meet, Search.meet, h.visited]
  by_cases hvisited : neighbor ∈ s.visited
  · rw [if_pos hvisited, if_pos hvisited]
    exact h
  rw [if_neg hvisited, if_neg hvisited]
  have hemits : (decide (neighbor ∈ v.remaining) && decide (endpoints source neighbor ∉ v.emitted)) = true ↔
      neighbor ∈ s.remaining ∧
        (s.output.any fun other => (other.a, other.b) == endpoints source neighbor) = false := by
    rw [Bool.and_eq_true, decide_eq_true_eq, decide_eq_true_eq, h.remaining, h.emitted, ← Bool.not_eq_true,
      any_emitted_iff]
  refine ⟨rfl, congrArg (List.erase · neighbor) h.remaining, ?_, ?_, h.cache, ?_⟩
  · show (if _ then _ else _) = if _ then _ else _
    simp only [hemits, h.output]
  · show (if _ then _ else _) = List.map _ (if _ then _ else _)
    simp only [hemits]
    rw [h.emitted]
    split_ifs
    · rw [List.map_append]
      rfl
    · rfl
  · show v.queue ++ _ = _ ++ List.map _ (s.queue ++ _)
    rw [h.queue, List.map_append, List.append_assoc]
    rfl

theorem mem_fill {node : String} {cache : List (String × List String)} {entry : String × List String}
    (hcache : ∀ entry ∈ cache, entry.2 = neighbors edges entry.1) (h : entry ∈ fill edges node cache) :
    entry.2 = neighbors edges entry.1 := by
  rw [fill] at h
  split_ifs at h
  · exact hcache entry h
  · rcases mem_upsert h with rfl | hold
    · rfl
    · exact hcache entry hold

theorem lookup_fill {cache : List (String × List String)} (hcache : ∀ entry ∈ cache, entry.2 = neighbors edges entry.1)
    (node : String) :
    ((lookup Prod.fst node (fill edges node cache)).map Prod.snd).getD [] = neighbors edges node := by
  have hsome : (lookup Prod.fst node (fill edges node cache)).isSome = true := by
    rw [lookup_isSome_iff, fill]
    split_ifs with hmem
    · exact hmem
    · exact mem_keys_upsert.mpr (Or.inl rfl)
  obtain ⟨entry, hentry⟩ := Option.isSome_iff_exists.mp hsome
  obtain ⟨hmem, hnode⟩ := lookup_mem hentry
  rw [hentry, ← hnode]
  exact mem_fill hcache hmem

/-- One turn is the expansion of one entity. -/
theorem Sim.turn {current : List String} {node : String} (h : Sim edges k (node :: current) v s) (source : String)
    (hnear : k < maxH) :
    ∃ queue, v.queue = (node, k) :: queue ∧
      Sim edges k current (Visit.turn edges source maxH node k { v with queue := queue })
        (Search.expand edges source (k + 1) s node) := by
  refine ⟨current.map (·, k) ++ s.queue.map (·, k + 1), h.queue, ?_⟩
  have hpopped : Sim edges k current { v with queue := current.map (·, k) ++ s.queue.map (·, k + 1) } s :=
    ⟨h.visited, h.remaining, h.output, h.emitted, h.cache, rfl⟩
  rw [Visit.turn, Search.expand]
  by_cases hdone : s.remaining = []
  · rw [if_pos (Or.inr (h.remaining.trans hdone)), if_pos hdone]
    exact hpopped
  · have hgo : ¬(maxH ≤ k ∨ v.remaining = []) := by
      rw [h.remaining, not_or, not_le]
      exact ⟨hnear, hdone⟩
    rw [if_neg hgo, if_neg hdone, ← neighbors]
    dsimp only
    rw [lookup_fill h.cache]
    have hfilled : Sim edges k current { v with
        cache := fill edges node v.cache
        queue := current.map (·, k) ++ s.queue.map (·, k + 1) } s :=
      { hpopped with cache := fun _ hentry => mem_fill h.cache hentry }
    generalize neighbors edges node = list
    revert hfilled
    generalize ({ v with
        cache := fill edges node v.cache
        queue := current.map (·, k) ++ s.queue.map (·, k + 1) } : Visit) = start
    clear hpopped hdone h
    intro hfilled
    induction list generalizing start s with
    | nil => exact hfilled
    | cons neighbor list ih => exact ih _ (hfilled.meet neighbor)

/-! ### Termination -/

theorem loop_nil (h : v.queue = []) (fuel : Nat) : Visit.loop edges source maxH fuel v = some v := by
  obtain ⟨cache, emitted, output, remaining, visited, queue⟩ := v
  subst h
  cases fuel with
  | zero => rfl
  | succ fuel => rfl

theorem loop_cons {node : String} {distance : Nat} {queue : List (String × Nat)} (h : v.queue = (node, distance) :: queue)
    (fuel : Nat) : Visit.loop edges source maxH (fuel + 1) v =
      Visit.loop edges source maxH fuel (Visit.turn edges source maxH node distance { v with queue := queue }) := by
  obtain ⟨cache, emitted, output, remaining, visited, _⟩ := v
  subst h
  rfl

/-- The entities of the table. -/
def entities (edges : List EdgeRow) : List String := (edges.flatMap fun edge => [edge.entityA, edge.entityB]).dedup

/-- What is left to do: the entities that wait and those that are not visited. -/
def budget (edges : List EdgeRow) (s : Search) : Nat :=
  s.queue.length + ((entities edges).filter (· ∉ s.visited)).length

theorem mem_entities_of_neighbors {node neighbor : String} (h : neighbor ∈ neighbors edges node) :
    neighbor ∈ entities edges := by
  obtain ⟨edge, hedge, hends⟩ := mem_neighbors.mp h
  rw [entities, List.mem_dedup, List.mem_flatMap]
  refine ⟨edge, hedge, ?_⟩
  rcases hends with ⟨-, rfl⟩ | ⟨rfl, -⟩
  · exact List.mem_cons_of_mem _ List.mem_cons_self
  · exact List.mem_cons_self

/-- A new entity waits instead of being not visited. -/
theorem budget_meet {distance : Nat} {neighbor : String} (h : neighbor ∈ entities edges) :
    budget edges (Search.meet source distance s neighbor) ≤ budget edges s := by
  rw [Search.meet]
  split_ifs with hvisited
  · exact le_rfl
  rw [budget, budget]
  dsimp only
  have hless : ((entities edges).filter (· ∉ neighbor :: s.visited)).length <
      ((entities edges).filter (· ∉ s.visited)).length := by
    have hsplit : (entities edges).filter (· ∉ neighbor :: s.visited) =
        ((entities edges).filter (· ∉ s.visited)).filter (· ≠ neighbor) := by
      rw [List.filter_filter]
      refine List.filter_congr fun x _ => ?_
      simp [not_or]
    rw [hsplit, List.length_filter_lt_length_iff_exists]
    exact ⟨neighbor, by simpa using ⟨h, hvisited⟩, by simp⟩
  rw [List.length_append, List.length_singleton]
  omega

theorem budget_expand {distance : Nat} {node : String} :
    budget edges (Search.expand edges source distance s node) ≤ budget edges s := by
  rw [Search.expand, ← neighbors]
  split_ifs
  · exact le_rfl
  · refine List.foldlRecOn _ (Search.meet source distance) (motive := fun next : Search => budget edges next ≤ budget edges s)
      le_rfl fun next hnext neighbor hneighbor => ?_
    exact (budget_meet (mem_entities_of_neighbors hneighbor)).trans hnext

theorem budget_level (edges : List EdgeRow) (source : String) (distance : Nat) (queue : List String) (s : Search) :
    budget edges (queue.foldl (Search.expand edges source distance) s) ≤ budget edges s := by
  refine List.foldlRecOn queue (Search.expand edges source distance)
    (motive := fun next : Search => budget edges next ≤ budget edges s) le_rfl fun next hnext node _ => ?_
  exact budget_expand.trans hnext

/-- The loop through the entities of one distance. -/
theorem Sim.level {current : List String} (h : Sim edges k current v s) (source : String) (hnear : k < maxH)
    (fuel : Nat) :
    ∃ next, Visit.loop edges source maxH (fuel + current.length) v = Visit.loop edges source maxH fuel next ∧
      Sim edges k [] next (current.foldl (Search.expand edges source (k + 1)) s) := by
  induction current generalizing v s with
  | nil => exact ⟨v, rfl, h⟩
  | cons node current ih =>
      obtain ⟨queue, hqueue, hturn⟩ := h.turn source hnear
      obtain ⟨next, hloop, hnext⟩ := ih hturn
      refine ⟨next, ?_, hnext⟩
      rw [← hloop, List.length_cons, ← Nat.add_assoc, loop_cons hqueue]

/-- Past the last distance the loop only empties the queue. -/
theorem loop_drain (edges : List EdgeRow) (source : String) {fuel : Nat} (hfuel : v.queue.length ≤ fuel)
    (hfar : ∀ entry ∈ v.queue, maxH ≤ entry.2) :
    Visit.loop edges source maxH fuel v = some { v with queue := [] } := by
  generalize hqueue : v.queue = queue at hfuel hfar
  induction queue generalizing v fuel with
  | nil =>
      rw [loop_nil hqueue, ← hqueue]
  | cons entry queue ih =>
      obtain ⟨fuel, rfl⟩ := Nat.exists_eq_add_one_of_ne_zero (Nat.ne_of_gt (Nat.lt_of_lt_of_le (Nat.succ_pos _) hfuel))
      rw [loop_cons hqueue, Visit.turn, if_pos (Or.inl (hfar entry List.mem_cons_self))]
      exact ih rfl (Nat.le_of_succ_le_succ hfuel) fun other hother => hfar other (List.mem_cons_of_mem _ hother)

/-- What a queue holds for the next distance is what waits at the next distance. -/
theorem Sim.advance (h : Sim edges k [] v s) : Sim edges (k + 1) s.queue v { s with queue := [] } :=
  ⟨h.visited, h.remaining, h.output, h.emitted, h.cache, h.queue.trans (List.append_nil _).symm⟩

/-- The loop ends with the output of the search by distances, by induction on the distances that are left. -/
theorem Sim.run {hops fuel : Nat} (h : Sim edges k s.queue v { s with queue := [] }) (hnear : k + hops = maxH)
    (hfuel : budget edges s ≤ fuel) :
    ∃ last, Visit.loop edges source maxH fuel v = some last ∧
      last.output = (Search.run edges source hops k s).output ∧
      last.emitted = last.output.map PairDistance.pair ∧ ∀ entry ∈ last.cache, entry.2 = neighbors edges entry.1 := by
  induction hops generalizing k v s fuel with
  | zero =>
      have hqueue : v.queue = s.queue.map (·, k) := h.queue.trans (List.append_nil _)
      have hlen : v.queue.length ≤ fuel := by
        rw [hqueue, List.length_map]
        exact (Nat.le_add_right _ _).trans hfuel
      refine ⟨_, loop_drain edges source hlen fun entry hentry => ?_, h.output, ?_, h.cache⟩
      · rw [hqueue, List.mem_map] at hentry
        obtain ⟨node, -, rfl⟩ := hentry
        exact hnear.ge
      · rw [h.emitted, ← h.output]
  | succ hops ih =>
      have hsplit : budget edges s = s.queue.length + budget edges { s with queue := [] } := by
        rw [budget, budget, List.length_nil, Nat.zero_add]
      obtain ⟨next, hloop, hnext⟩ := h.level source (Nat.lt_of_lt_of_eq (Nat.lt_add_of_pos_right (Nat.succ_pos hops)) hnear)
        (fuel - s.queue.length)
      rw [Nat.sub_add_cancel (by omega)] at hloop
      have hbudget := budget_level edges source (k + 1) s.queue { s with queue := [] }
      have hrest : budget edges { s with queue := [] } ≤ fuel - s.queue.length := by omega
      obtain ⟨last, hlast, hrest⟩ := ih hnext.advance (by omega) (hbudget.trans hrest)
      exact ⟨last, hloop.trans hlast, hrest⟩

/-- All sources, by induction: with fuel for every entity each loop ends, and the output is that of the searches. -/
theorem loops_eq (unique sources : List String) (maxH : Nat) {fuel : Nat} (hfuel : (entities edges).length < fuel)
    (hemitted : v.emitted = v.output.map PairDistance.pair)
    (hcache : ∀ entry ∈ v.cache, entry.2 = neighbors edges entry.1) :
    ∃ last, sources.foldlM (fun v source => Visit.loop edges source maxH fuel
        { v with remaining := unique.erase source, visited := [source], queue := [(source, 0)] }) v = some last ∧
      last.output = sources.foldl (fun output source => searchFrom edges source unique maxH output) v.output := by
  induction sources generalizing v with
  | nil => exact ⟨v, rfl, rfl⟩
  | cons source sources ih =>
      have hstart : Sim edges 0 [source]
          { v with remaining := unique.erase source, visited := [source], queue := [(source, 0)] }
          ⟨[source], unique.erase source, [], v.output⟩ := ⟨rfl, rfl, rfl, hemitted, hcache, rfl⟩
      have hbudget : budget edges ⟨[source], unique.erase source, [source], v.output⟩ ≤ fuel := by
        have hfilter := List.length_filter_le (· ∉ [source]) (entities edges)
        exact (Nat.add_le_add_left hfilter 1).trans (Nat.add_comm _ _ ▸ hfuel)
      obtain ⟨next, hloop, houtput, hnext, hfilled⟩ :=
        Sim.run (s := ⟨[source], unique.erase source, [source], v.output⟩) hstart (Nat.zero_add maxH) hbudget
      obtain ⟨last, hlast, hfinal⟩ := ih hnext hfilled
      refine ⟨last, ?_, ?_⟩
      · rw [List.foldlM_cons, hloop]
        exact hlast
      · rw [hfinal, houtput, List.foldl_cons, searchFrom]

/-- With fuel for every entity of the table the loops compute what the search by distances computes. -/
theorem pairDistances_eq {fuel : Nat} (hfuel : (entities edges).length < fuel) (ids : List String) (maxH : Nat) :
    pairDistances fuel edges ids maxH = some (Graph.pairDistances edges ids maxH) := by
  rw [pairDistances, Graph.pairDistances]
  split_ifs
  · rfl
  · obtain ⟨last, hlast, houtput⟩ := loops_eq (v := ⟨[], [], [], [], [], []⟩)
      (ids.dedup.insertionSort (· ≤ ·)) (ids.dedup.insertionSort (· ≤ ·)) maxH hfuel rfl
      fun _ h => absurd h List.not_mem_nil
    dsimp only
    rw [hlast, ← houtput]
    rfl

/-- On every table the loops end, and the result is the shortest distances within the hops, each once and in order. -/
theorem pairDistances_terminates (edges : List EdgeRow) (ids : List String) (maxH : Nat) :
    ∃ enough, ∀ fuel, enough ≤ fuel → ∃ output, pairDistances fuel edges ids maxH = some output ∧
      Shortest edges ids maxH output :=
  ⟨(entities edges).length + 1, fun _ hfuel =>
    ⟨_, pairDistances_eq hfuel ids maxH, pairDistances_shortest edges ids maxH⟩⟩

end TinyCortex.Graph.Bfs
