import TinyCortex.Graph.EdgeStore
import TinyCortex.Lib.Spheres

/-! Bounded shortest paths over the co-occurrence edges (`graph/bfs.rs`), one distance after the other and
without the cache of neighbours; `BfsQueue` has the loop as it is written. -/

namespace TinyCortex.Graph

structure PairDistance where
  a : String
  b : String
  dist : Nat
  deriving DecidableEq, Repr

/-- The neighbours in both directions, `ORDER BY weight DESC`. -/
def edgeNeighbors (edges : List EdgeRow) (entityId : String) : List (String × Nat) :=
  let forward := (edges.filter (·.entityA = entityId)).map fun edge => (edge.entityB, edge.weight)
  let backward := (edges.filter (·.entityB = entityId)).map fun edge => (edge.entityA, edge.weight)
  (forward ++ backward).insertionSort fun x y => y.2 ≤ x.2

/-- The search from one source. The queue holds the entities of one distance; the pairs are those of all sources. -/
structure Search where
  visited : List String
  remaining : List String
  queue : List String
  output : List PairDistance
  deriving DecidableEq, Repr

variable (edges : List EdgeRow) (source : String)

def endpoints (neighbor : String) : String × String :=
  if source < neighbor then (source, neighbor) else (neighbor, source)

/-- One neighbour at a distance from the source; each pair is emitted once. -/
def Search.meet (distance : Nat) (s : Search) (neighbor : String) : Search :=
  if neighbor ∈ s.visited then s
  else
    let pair := endpoints source neighbor
    let emitted := s.output.any fun other => (other.a, other.b) == pair
    { visited := neighbor :: s.visited
      remaining := s.remaining.erase neighbor
      queue := s.queue ++ [neighbor]
      output :=
        if neighbor ∈ s.remaining ∧ emitted = false then s.output ++ [⟨pair.1, pair.2, distance⟩] else s.output }

/-- An entity whose neighbours are at that distance. -/
def Search.expand (distance : Nat) (s : Search) (node : String) : Search :=
  if s.remaining = [] then s
  else ((edgeNeighbors edges node).map Prod.fst).foldl (Search.meet source distance) s

/-- The queue, one distance after the other. -/
def Search.run : Nat → Nat → Search → Search
  | 0, _, s => s
  | hops + 1, distance, s =>
      run hops (distance + 1) (s.queue.foldl (Search.expand edges source (distance + 1)) { s with queue := [] })

/-- The pairs of the sources before and those that the search from this one adds. -/
def searchFrom (unique : List String) (maxH : Nat) (output : List PairDistance) : List PairDistance :=
  (Search.run edges source maxH 0 ⟨[source], unique.erase source, [source], output⟩).output

/-- Nearest first, then by the two identifiers. -/
def PairDistance.before (x y : PairDistance) : Bool :=
  decide (x.dist < y.dist) || (x.dist == y.dist && (decide (x.a < y.a) || (x.a == y.a && decide (x.b ≤ y.b))))

def pairDistances (edges : List EdgeRow) (entityIds : List String) (maxH : Nat) : List PairDistance :=
  if maxH = 0 ∨ entityIds.length < 2 then []
  else
    let unique := entityIds.dedup.insertionSort (· ≤ ·)
    (unique.foldl (fun output source => searchFrom edges source unique maxH output) []).insertionSort
      fun x y => x.before y

end TinyCortex.Graph

/-! The bounded search finds shortest paths: what it has visited is a ball around the source and what it has queued is
a sphere, until nothing more is looked for. -/

namespace TinyCortex.Graph

/-- The undirected graph of the edge table. -/
def entityGraph (edges : List EdgeRow) : SimpleGraph String where
  Adj a b := a ≠ b ∧ ∃ edge ∈ edges, (edge.entityA = a ∧ edge.entityB = b) ∨ (edge.entityA = b ∧ edge.entityB = a)
  symm := ⟨fun _ _ h => ⟨h.1.symm, h.2.imp fun _ he => ⟨he.1, he.2.symm⟩⟩⟩
  loopless := ⟨fun _ h => h.1 rfl⟩

def neighbors (edges : List EdgeRow) (node : String) : List String := (edgeNeighbors edges node).map Prod.fst

variable {edges : List EdgeRow} {source : String} {maxH k : Nat} {ids targets : List String}
variable {s : Search} {met : List String}

theorem mem_neighbors {node neighbor : String} : neighbor ∈ neighbors edges node ↔
    ∃ edge ∈ edges, (edge.entityA = node ∧ edge.entityB = neighbor) ∨ (edge.entityA = neighbor ∧ edge.entityB = node) := by
  rw [neighbors, List.mem_map]
  simp only [edgeNeighbors, List.mem_insertionSort, List.mem_append, List.mem_map, List.mem_filter, decide_eq_true_eq]
  constructor
  · intro h
    obtain ⟨entry, ⟨edge, ⟨hedge, hnode⟩, rfl⟩ | ⟨edge, ⟨hedge, hnode⟩, rfl⟩, rfl⟩ := h
    · exact ⟨edge, hedge, Or.inl ⟨hnode, rfl⟩⟩
    · exact ⟨edge, hedge, Or.inr ⟨rfl, hnode⟩⟩
  · intro h
    obtain ⟨edge, hedge, ⟨hnode, rfl⟩ | ⟨rfl, hnode⟩⟩ := h
    · exact ⟨_, Or.inl ⟨edge, ⟨hedge, hnode⟩, rfl⟩, rfl⟩
    · exact ⟨_, Or.inr ⟨edge, ⟨hedge, hnode⟩, rfl⟩, rfl⟩

theorem adj_iff {node neighbor : String} :
    (entityGraph edges).Adj node neighbor ↔ node ≠ neighbor ∧ neighbor ∈ neighbors edges node :=
  and_congr_right fun _ => mem_neighbors.symm

/-- The next sphere, also where the table joins an entity with itself. -/
theorem edist_eq_succ_iff {node : String} : (entityGraph edges).edist source node = (k + 1 : ℕ) ↔
    ¬(entityGraph edges).edist source node ≤ k ∧
      ∃ prior, (entityGraph edges).edist source prior = k ∧ node ∈ neighbors edges prior := by
  rw [Spheres.edist_eq_succ_iff_adj]
  refine and_congr_right fun hout => exists_congr fun prior => and_congr_right fun hprior => ?_
  rw [adj_iff]
  refine and_iff_right ?_
  intro heq
  rw [← heq, hprior] at hout
  exact hout le_rfl

/-! ### What the search keeps -/

/-- Two entities and the distance between them. -/
structure PairDistance.Exact (edges : List EdgeRow) (ids : List String) (maxH : Nat) (pair : PairDistance) : Prop where
  ordered : pair.a < pair.b
  left : pair.a ∈ ids
  right : pair.b ∈ ids
  near : pair.dist ≤ maxH
  distance : (entityGraph edges).edist pair.a pair.b = pair.dist

def PairDistance.pair (entry : PairDistance) : String × String := (entry.a, entry.b)

/-- The pair of the source and the entity has been emitted. -/
def Covered (output : List PairDistance) (source entity : String) : Prop :=
  endpoints source entity ∈ output.map PairDistance.pair

instance (output : List PairDistance) (source entity : String) : Decidable (Covered output source entity) :=
  inferInstanceAs (Decidable (_ ∈ _))

/-- After some neighbours of the sphere have been met: unless nothing remains, the visited entities are the ball and
those neighbours, and the queued ones are those outside the ball. -/
structure Search.Exact (edges : List EdgeRow) (source : String) (ids targets : List String) (maxH k : Nat)
    (met : List String) (s : Search) : Prop where
  frontier : s.remaining = [] ∨
    (∀ x, x ∈ s.visited ↔ (entityGraph edges).edist source x ≤ k ∨ x ∈ met) ∧
      ∀ x, x ∈ s.queue ↔ ¬(entityGraph edges).edist source x ≤ k ∧ x ∈ met
  nodup : s.remaining.Nodup
  remaining : ∀ t ∈ s.remaining, t ∈ targets ∧ t ∉ s.visited
  found : ∀ t ∈ targets, t ∈ s.remaining ∨ Covered s.output source t
  output : ∀ entry ∈ s.output, entry.Exact edges ids maxH
  once : (s.output.map PairDistance.pair).Nodup

theorem exact_endpoints {entity : String} (hsource : source ∈ ids) (hentity : entity ∈ ids) (hne : entity ≠ source)
    (hnear : k ≤ maxH) (hdist : (entityGraph edges).edist source entity = k) :
    PairDistance.Exact edges ids maxH ⟨(endpoints source entity).1, (endpoints source entity).2, k⟩ := by
  rw [endpoints]
  split_ifs with hlt
  · exact ⟨hlt, hsource, hentity, hnear, hdist⟩
  · refine ⟨lt_of_le_of_ne (not_lt.mp hlt) hne, hentity, hsource, hnear, ?_⟩
    rw [SimpleGraph.edist_comm]
    exact hdist

theorem any_emitted_iff {output : List PairDistance} {pair : String × String} :
    (output.any fun other => (other.a, other.b) == pair) = true ↔ pair ∈ output.map PairDistance.pair := by
  rw [List.any_eq_true, List.mem_map]
  simp only [beq_iff_eq, PairDistance.pair]

/-- The output after one neighbour: one more pair, if it is looked for and was not emitted. -/
theorem meet_output {distance : Nat} {neighbor : String} (hnew : neighbor ∉ s.visited) :
    (Search.meet source distance s neighbor).output =
      if neighbor ∈ s.remaining ∧ ¬Covered s.output source neighbor then
        s.output ++ [⟨(endpoints source neighbor).1, (endpoints source neighbor).2, distance⟩]
      else s.output := by
  rw [Search.meet, if_neg hnew]
  refine if_congr (and_congr_right fun _ => ?_) rfl rfl
  rw [← Bool.not_eq_true, any_emitted_iff]
  rfl

theorem covered_meet {distance : Nat} {neighbor entity : String} (hnew : neighbor ∉ s.visited)
    (h : Covered s.output source entity) : Covered (Search.meet source distance s neighbor).output source entity := by
  rw [meet_output hnew]
  split_ifs
  · rw [Covered, List.map_append]
    exact List.mem_append_left _ h
  · exact h

theorem covered_meet_self {distance : Nat} {neighbor : String} (hnew : neighbor ∉ s.visited)
    (hremains : neighbor ∈ s.remaining) :
    Covered (Search.meet source distance s neighbor).output source neighbor := by
  by_cases hcovered : Covered s.output source neighbor
  · exact covered_meet hnew hcovered
  · rw [meet_output hnew, if_pos ⟨hremains, hcovered⟩, Covered, List.map_append]
    exact List.mem_append_right _ (List.mem_singleton_self _)

/-- One more neighbour of the sphere is met. -/
theorem Search.Exact.meet (h : s.Exact edges source ids targets maxH k met) (hsource : source ∈ ids)
    (htargets : ∀ t ∈ targets, t ∈ ids ∧ t ≠ source) (hnear : k + 1 ≤ maxH) {neighbor : String}
    (hmet : ∃ prior, (entityGraph edges).edist source prior = k ∧ neighbor ∈ neighbors edges prior) :
    (Search.meet source (k + 1) s neighbor).Exact edges source ids targets maxH k (met ++ [neighbor]) := by
  by_cases hvisited : neighbor ∈ s.visited
  · have hsame : Search.meet source (k + 1) s neighbor = s := if_pos hvisited
    rw [hsame]
    refine { h with frontier := h.frontier.imp_right fun hfrontier => ?_ }
    obtain ⟨hball, hsphere⟩ := hfrontier
    have hin := (hball neighbor).mp hvisited
    simp only [List.mem_append, List.mem_singleton]
    refine ⟨fun x => ?_, fun x => ?_⟩
    · rw [hball]
      by_cases hx : x = neighbor
      · rw [hx]
        tauto
      · tauto
    · rw [hsphere]
      by_cases hx : x = neighbor
      · rw [hx]
        tauto
      · tauto
  have hstep : Search.meet source (k + 1) s neighbor =
      { visited := neighbor :: s.visited
        remaining := s.remaining.erase neighbor
        queue := s.queue ++ [neighbor]
        output := (Search.meet source (k + 1) s neighbor).output } := by
    rw [Search.meet, if_neg hvisited]
  have houtput : (Search.meet source (k + 1) s neighbor).output =
      if neighbor ∈ s.remaining ∧ ¬Covered s.output source neighbor then
        s.output ++ [⟨(endpoints source neighbor).1, (endpoints source neighbor).2, k + 1⟩]
      else s.output := meet_output hvisited
  rw [hstep]
  refine ⟨?_, h.nodup.erase _, ?_, ?_, ?_, ?_⟩
  · refine h.frontier.imp (fun hnone => ?_) fun hfrontier => ?_
    · show s.remaining.erase neighbor = []
      rw [hnone]
      rfl
    · obtain ⟨hball, hsphere⟩ := hfrontier
      have hout := fun hle => hvisited ((hball neighbor).mpr (Or.inl hle))
      simp only [List.mem_cons, List.mem_append, List.not_mem_nil, or_false, hball, hsphere]
      refine ⟨fun x => ?_, fun x => ?_⟩
      · tauto
      · by_cases hx : x = neighbor
        · rw [hx]
          tauto
        · tauto
  · intro t ht
    obtain ⟨hne, hremains⟩ := h.nodup.mem_erase_iff.mp ht
    obtain ⟨htarget, hout⟩ := h.remaining t hremains
    exact ⟨htarget, fun hmem => (List.mem_cons.mp hmem).elim hne hout⟩
  · intro t ht
    rcases h.found t ht with hremains | hcovered
    · by_cases heq : t = neighbor
      · rw [heq] at hremains ⊢
        exact Or.inr (covered_meet_self hvisited hremains)
      · exact Or.inl (h.nodup.mem_erase_iff.mpr ⟨heq, hremains⟩)
    · exact Or.inr (covered_meet hvisited hcovered)
  · intro entry hentry
    dsimp only at hentry
    rw [houtput] at hentry
    split_ifs at hentry with hemit
    · rcases List.mem_append.mp hentry with hold | hnew
      · exact h.output entry hold
      · rw [List.mem_singleton.mp hnew]
        obtain ⟨htarget, hne⟩ := htargets neighbor (h.remaining neighbor hemit.1).1
        have hsome : s.remaining ≠ [] := List.ne_nil_of_mem hemit.1
        obtain ⟨hball, -⟩ := h.frontier.resolve_left hsome
        have hout := fun hle => hvisited ((hball neighbor).mpr (Or.inl hle))
        exact exact_endpoints hsource htarget hne hnear (edist_eq_succ_iff.mpr ⟨hout, hmet⟩)
    · exact h.output entry hentry
  · dsimp only
    rw [houtput]
    split_ifs with hemit
    · rw [List.map_append, List.nodup_append]
      refine ⟨h.once, List.pairwise_singleton _ _, fun pair hpair other hother heq => ?_⟩
      rw [List.mem_singleton.mp hother] at heq
      rw [heq] at hpair
      exact hemit.2 hpair
    · exact h.once

/-- One entity of the sphere is expanded, or passed over when nothing remains. -/
theorem Search.Exact.expand (h : s.Exact edges source ids targets maxH k met) (hsource : source ∈ ids)
    (htargets : ∀ t ∈ targets, t ∈ ids ∧ t ≠ source) (hnear : k + 1 ≤ maxH) {node : String}
    (hnode : s.remaining = [] ∨ (entityGraph edges).edist source node = k) :
    (Search.expand edges source (k + 1) s node).Exact edges source ids targets maxH k
      (met ++ neighbors edges node) := by
  by_cases hdone : s.remaining = []
  · rw [Search.expand, if_pos hdone]
    exact { h with frontier := Or.inl hdone }
  rw [Search.expand, if_neg hdone, ← neighbors]
  have hprior : ∀ neighbor ∈ neighbors edges node,
      ∃ prior, (entityGraph edges).edist source prior = k ∧ neighbor ∈ neighbors edges prior :=
    fun neighbor hneighbor => ⟨node, hnode.resolve_left hdone, hneighbor⟩
  revert hprior
  generalize neighbors edges node = list
  clear hdone hnode
  intro hprior
  induction list generalizing s met with
  | nil =>
      rw [List.append_nil]
      exact h
  | cons neighbor list ih =>
      have hmeet := h.meet hsource htargets hnear (hprior neighbor List.mem_cons_self)
      have hrest := ih hmeet fun other hother => hprior other (List.mem_cons_of_mem _ hother)
      rw [List.append_assoc, List.singleton_append] at hrest
      exact hrest

theorem expand_remaining_nil {distance : Nat} {node : String} (h : s.remaining = []) :
    (Search.expand edges source distance s node).remaining = [] := by
  rw [Search.expand, if_pos h]
  exact h

/-- The queue of one sphere, from the front. -/
theorem Search.Exact.level (h : s.Exact edges source ids targets maxH k met) (hsource : source ∈ ids)
    (htargets : ∀ t ∈ targets, t ∈ ids ∧ t ≠ source) (hnear : k + 1 ≤ maxH) {queue : List String}
    (hqueue : s.remaining = [] ∨ ∀ node ∈ queue, (entityGraph edges).edist source node = k) :
    (queue.foldl (Search.expand edges source (k + 1)) s).Exact edges source ids targets maxH k
      (met ++ queue.flatMap (neighbors edges)) := by
  induction queue generalizing s met with
  | nil =>
      rw [List.flatMap_nil, List.append_nil]
      exact h
  | cons node queue ih =>
      have hnode := h.expand hsource htargets hnear (hqueue.imp_right fun hall => hall node List.mem_cons_self)
      rw [List.flatMap_cons, ← List.append_assoc, List.foldl_cons]
      refine ih hnode (hqueue.imp expand_remaining_nil fun hall => ?_)
      exact fun other hother => hall other (List.mem_cons_of_mem _ hother)

/-- At the start of a sphere nothing of it has been met. -/
structure Search.AtSphere (edges : List EdgeRow) (source : String) (ids targets : List String) (maxH k : Nat)
    (s : Search) : Prop where
  frontier : s.remaining = [] ∨
    (∀ x, x ∈ s.visited ↔ (entityGraph edges).edist source x ≤ k) ∧
      ∀ x, x ∈ s.queue ↔ (entityGraph edges).edist source x = k
  nodup : s.remaining.Nodup
  remaining : ∀ t ∈ s.remaining, t ∈ targets ∧ t ∉ s.visited
  found : ∀ t ∈ targets, t ∈ s.remaining ∨ Covered s.output source t
  output : ∀ entry ∈ s.output, entry.Exact edges ids maxH
  once : (s.output.map PairDistance.pair).Nodup

theorem Search.AtSphere.next (h : s.AtSphere edges source ids targets maxH k) (hsource : source ∈ ids)
    (htargets : ∀ t ∈ targets, t ∈ ids ∧ t ≠ source) (hnear : k + 1 ≤ maxH) :
    (s.queue.foldl (Search.expand edges source (k + 1)) { s with queue := [] }).AtSphere edges source ids targets
      maxH (k + 1) := by
  have hstart : Search.Exact edges source ids targets maxH k [] { s with queue := [] } := by
    refine ⟨h.frontier.imp_right fun hfrontier => ⟨fun x => ?_, fun x => ?_⟩, h.nodup, h.remaining, h.found,
      h.output, h.once⟩
    · rw [hfrontier.1]
      exact (or_iff_left List.not_mem_nil).symm
    · exact iff_of_false List.not_mem_nil fun hx => List.not_mem_nil hx.2
  have hend := hstart.level hsource htargets hnear (h.frontier.imp_right fun hfrontier node hnode =>
    (hfrontier.2 node).mp hnode)
  rw [List.nil_append] at hend
  refine ⟨?_, hend.nodup, hend.remaining, hend.found, hend.output, hend.once⟩
  rcases h.frontier with hnone | ⟨-, hqueue⟩
  · left
    refine List.foldlRecOn s.queue (Search.expand edges source (k + 1)) (motive := fun s : Search => s.remaining = [])
      hnone fun s hs node _ => ?_
    exact expand_remaining_nil hs
  · refine hend.frontier.imp_right fun hfrontier => ?_
    have hmet : ∀ x, x ∈ s.queue.flatMap (neighbors edges) ↔
        ∃ prior, (entityGraph edges).edist source prior = k ∧ x ∈ neighbors edges prior := by
      intro x
      simp only [List.mem_flatMap, hqueue]
    have hsphere : ∀ x, (entityGraph edges).edist source x = (k + 1 : ℕ) ↔
        ¬(entityGraph edges).edist source x ≤ k ∧ x ∈ s.queue.flatMap (neighbors edges) := by
      intro x
      rw [edist_eq_succ_iff, hmet]
    refine ⟨fun x => ?_, fun x => ?_⟩
    · rw [hfrontier.1]
      by_cases hx : (entityGraph edges).edist source x ≤ k
      · refine iff_of_true (Or.inl hx) (hx.trans (Nat.cast_le.mpr (Nat.le_succ k)))
      · have hnext := hsphere x
        rw [Spheres.edist_eq_succ_iff, and_congr_right_iff] at hnext
        rw [or_iff_right hx]
        exact (hnext hx).symm
    · rw [hfrontier.2, hsphere]

/-- By induction on the spheres that are left. -/
theorem Search.AtSphere.run {hops : Nat} (h : s.AtSphere edges source ids targets maxH k) (hsource : source ∈ ids)
    (htargets : ∀ t ∈ targets, t ∈ ids ∧ t ≠ source) (hnear : k + hops = maxH) :
    (Search.run edges source hops k s).AtSphere edges source ids targets maxH maxH := by
  induction hops generalizing k s with
  | zero =>
      rw [← hnear]
      rw [← hnear] at h
      exact h
  | succ hops ih => exact ih (h.next hsource htargets (by omega)) (by omega)

/-! ### One source -/

theorem meet_prefixed (source : String) (distance : Nat) (s : Search) (neighbor : String) :
    s.output <+: (Search.meet source distance s neighbor).output := by
  rw [Search.meet]
  split_ifs
  · exact List.prefix_rfl
  · dsimp only
    split_ifs
    · exact List.prefix_append _ _
    · exact List.prefix_rfl

theorem expand_prefixed (edges : List EdgeRow) (source : String) (distance : Nat) (s : Search) (node : String) :
    s.output <+: (Search.expand edges source distance s node).output := by
  rw [Search.expand]
  split_ifs
  · exact List.prefix_rfl
  · refine List.foldlRecOn _ (Search.meet source distance) (motive := fun next : Search => s.output <+: next.output)
      List.prefix_rfl fun next hnext neighbor _ => ?_
    exact hnext.trans (meet_prefixed source distance next neighbor)

/-- A search adds to what is emitted. -/
theorem run_prefixed (edges : List EdgeRow) (source : String) (hops distance : Nat) (s : Search) :
    s.output <+: (Search.run edges source hops distance s).output := by
  induction hops generalizing distance s with
  | zero => exact List.prefix_rfl
  | succ hops ih =>
      refine List.IsPrefix.trans ?_ (ih (distance + 1) _)
      refine List.foldlRecOn s.queue (Search.expand edges source (distance + 1))
        (motive := fun next : Search => s.output <+: next.output) List.prefix_rfl fun next hnext node _ => ?_
      exact hnext.trans (expand_prefixed edges source (distance + 1) next node)

/-- The pairs emitted so far are exact, and each is emitted once. -/
structure Emitted (edges : List EdgeRow) (ids : List String) (maxH : Nat) (output : List PairDistance) : Prop where
  exact : ∀ entry ∈ output, entry.Exact edges ids maxH
  once : (output.map PairDistance.pair).Nodup

theorem Emitted.searchFrom {output : List PairDistance} (h : Emitted edges ids maxH output) (hsource : source ∈ ids)
    (hnodup : ids.Nodup) : Emitted edges ids maxH (searchFrom edges source ids maxH output) ∧
      ∀ t ∈ ids, t ≠ source → (entityGraph edges).edist source t ≤ maxH →
        Covered (searchFrom edges source ids maxH output) source t := by
  have htargets : ∀ t ∈ ids.erase source, t ∈ ids ∧ t ≠ source := fun t ht =>
    (hnodup.mem_erase_iff.mp ht).symm
  have hstart : Search.AtSphere edges source ids (ids.erase source) maxH 0
      ⟨[source], ids.erase source, [source], output⟩ := by
    have hzero : ∀ x, x ∈ [source] ↔ (entityGraph edges).edist source x = 0 := fun x => by
      rw [List.mem_singleton, SimpleGraph.edist_eq_zero_iff, eq_comm]
    refine ⟨Or.inr ⟨fun x => ?_, hzero⟩, hnodup.erase _, fun t ht => ⟨ht, ?_⟩, fun t ht => Or.inl ht, h.exact, h.once⟩
    · rw [hzero, Nat.cast_zero]
      exact nonpos_iff_eq_zero.symm
    · exact fun hmem => (htargets t ht).2 (List.mem_singleton.mp hmem)
  have hend := hstart.run hsource htargets (Nat.zero_add maxH)
  refine ⟨⟨hend.output, hend.once⟩, fun t ht hne hnear => ?_⟩
  refine (hend.found t (hnodup.mem_erase_iff.mpr ⟨hne, ht⟩)).resolve_left fun hremains => ?_
  obtain ⟨hball, -⟩ := hend.frontier.resolve_left (List.ne_nil_of_mem hremains)
  exact (hend.remaining t hremains).2 ((hball t).mpr hnear)

theorem Covered.searchFrom {output : List PairDistance} {a b : String} (h : Covered output a b) (source : String)
    (ids : List String) (maxH : Nat) : Covered (searchFrom edges source ids maxH output) a b :=
  ((run_prefixed edges source maxH 0 _).map PairDistance.pair).subset h

/-! ### All sources -/

/-- By induction on the sources. -/
theorem Emitted.all {unique sources : List String} {output : List PairDistance} (h : Emitted edges unique maxH output)
    (hsources : ∀ source ∈ sources, source ∈ unique) (hnodup : unique.Nodup) :
    let final := sources.foldl (fun output source => Graph.searchFrom edges source unique maxH output) output
    Emitted edges unique maxH final ∧ (∀ a b, Covered output a b → Covered final a b) ∧
      ∀ source ∈ sources, ∀ t ∈ unique, t ≠ source → (entityGraph edges).edist source t ≤ maxH →
        Covered final source t := by
  induction sources generalizing output with
  | nil => exact ⟨h, fun _ _ h => h, fun _ hs => absurd hs List.not_mem_nil⟩
  | cons source sources ih =>
      obtain ⟨hnext, hcovers⟩ := h.searchFrom (hsources source List.mem_cons_self) hnodup
      obtain ⟨hfinal, hkeeps, hrest⟩ := ih hnext fun other hother => hsources other (List.mem_cons_of_mem _ hother)
      refine ⟨hfinal, fun a b hab => hkeeps a b (hab.searchFrom source unique maxH), fun other hother t ht hne hnear => ?_⟩
      rcases List.mem_cons.mp hother with rfl | hother
      · exact hkeeps _ _ (hcovers t ht hne hnear)
      · exact hrest other hother t ht hne hnear

/-- The order of the result. -/
def PairDistance.place (entry : PairDistance) : ℕ ×ₗ String ×ₗ String :=
  toLex (entry.dist, toLex (entry.a, entry.b))

theorem before_iff {x y : PairDistance} : x.before y = true ↔ x.place ≤ y.place := by
  simp only [PairDistance.before, PairDistance.place, Prod.Lex.toLex_le_toLex, Bool.or_eq_true, Bool.and_eq_true,
    decide_eq_true_eq, beq_iff_eq]

theorem place_injective : Function.Injective PairDistance.place := by
  intro x y h
  simp only [PairDistance.place, toLex_inj, Prod.mk.injEq] at h
  obtain ⟨hdist, ha, hb⟩ := h
  cases x
  cases y
  simp_all

theorem pairwise_insertionSort_place (output : List PairDistance) :
    (output.insertionSort fun x y => x.before y).Pairwise fun x y => x.place ≤ y.place := by
  have : Std.Total fun x y : PairDistance => x.before y = true :=
    ⟨fun x y => by simp only [before_iff]; exact le_total _ _⟩
  have : IsTrans _ fun x y : PairDistance => x.before y = true :=
    ⟨fun x y z => by simp only [before_iff]; exact le_trans⟩
  have hsorted : (output.insertionSort fun x y => x.before y).Pairwise fun x y => x.before y = true :=
    List.pairwise_insertionSort _ _
  exact hsorted.imp before_iff.mp

/-- The result is the shortest distances within the hops, each once and in order. -/
structure Shortest (edges : List EdgeRow) (ids : List String) (maxH : Nat) (output : List PairDistance) : Prop where
  mem_iff : ∀ (a b : String) (d : Nat), ⟨a, b, d⟩ ∈ output ↔
    a < b ∧ a ∈ ids ∧ b ∈ ids ∧ (entityGraph edges).edist a b = d ∧ d ≤ maxH
  once : (output.map PairDistance.pair).Nodup
  sorted : output.Pairwise fun x y => x.place < y.place

theorem Emitted.shortest {output : List PairDistance} (h : Emitted edges ids maxH output)
    (hcovers : ∀ a ∈ ids, ∀ b ∈ ids, b ≠ a → (entityGraph edges).edist a b ≤ maxH → Covered output a b) :
    Shortest edges ids maxH (output.insertionSort fun x y => x.before y) where
  mem_iff a b d := by
    rw [List.mem_insertionSort]
    constructor
    · intro hmem
      have hexact := h.exact _ hmem
      exact ⟨hexact.ordered, hexact.left, hexact.right, hexact.distance, hexact.near⟩
    · intro hwanted
      obtain ⟨hlt, ha, hb, hdist, hnear⟩ := hwanted
      have hcovered := hcovers a ha b hb hlt.ne' (hdist ▸ Nat.cast_le.mpr hnear)
      rw [Covered, endpoints, if_pos hlt, List.mem_map] at hcovered
      obtain ⟨entry, hentry, hpair⟩ := hcovered
      obtain ⟨rfl, rfl⟩ := Prod.mk.inj hpair
      have hsame := (h.exact entry hentry).distance.symm.trans hdist
      rw [Nat.cast_inj] at hsame
      rw [← hsame]
      exact hentry
  once := ((List.perm_insertionSort _ output).map PairDistance.pair).nodup_iff.mpr h.once
  sorted := by
    have hnodup : (output.insertionSort fun x y => x.before y).Nodup :=
      (List.perm_insertionSort _ output).nodup_iff.mpr (List.Nodup.of_map _ h.once)
    refine ((pairwise_insertionSort_place output).and hnodup).imp fun hboth => ?_
    exact lt_of_le_of_ne hboth.1 fun heq => hboth.2 (place_injective heq)

theorem shortest_nil (h : maxH = 0 ∨ ids.length < 2) : Shortest edges ids maxH [] where
  mem_iff a b d := by
    refine iff_of_false List.not_mem_nil fun hwanted => ?_
    obtain ⟨hlt, ha, hb, hdist, hnear⟩ := hwanted
    rcases h with hzero | hfew
    · rw [hzero, Nat.le_zero] at hnear
      rw [hnear, Nat.cast_zero, SimpleGraph.edist_eq_zero_iff] at hdist
      exact hlt.ne hdist
    · have hsub : [a, b] ⊆ ids := List.cons_subset.mpr ⟨ha, List.cons_subset.mpr ⟨hb, List.nil_subset _⟩⟩
      have hpair : [a, b].Nodup := List.nodup_cons.mpr ⟨fun h => hlt.ne (List.mem_singleton.mp h), List.pairwise_singleton _ _⟩
      have hlen := (List.subperm_of_subset hpair hsub).length_le
      exact absurd hfew (Nat.not_lt.mpr hlen)
  once := List.nodup_nil
  sorted := List.Pairwise.nil

/-- The search from all sources finds the shortest distances. -/
theorem pairDistances_shortest (edges : List EdgeRow) (ids : List String) (maxH : Nat) :
    Shortest edges ids maxH (pairDistances edges ids maxH) := by
  rw [pairDistances]
  split_ifs with hnone
  · exact shortest_nil hnone
  have hperm : (ids.dedup.insertionSort (· ≤ ·)).Perm ids.dedup := List.perm_insertionSort _ _
  have hmem : ∀ entity, entity ∈ ids.dedup.insertionSort (· ≤ ·) ↔ entity ∈ ids :=
    fun entity => hperm.mem_iff.trans List.mem_dedup
  have hnodup : (ids.dedup.insertionSort (· ≤ ·)).Nodup := hperm.nodup_iff.mpr (List.nodup_dedup ids)
  have hnil : Emitted edges (ids.dedup.insertionSort (· ≤ ·)) maxH [] := ⟨fun _ h => absurd h List.not_mem_nil, List.nodup_nil⟩
  obtain ⟨hemitted, -, hcovers⟩ := hnil.all (fun _ h => h) hnodup
  have hshortest := hemitted.shortest fun a ha b hb hne hnear => hcovers a ha b hb hne hnear
  refine ⟨fun a b d => ?_, hshortest.once, hshortest.sorted⟩
  rw [hshortest.mem_iff, hmem, hmem]

end TinyCortex.Graph
