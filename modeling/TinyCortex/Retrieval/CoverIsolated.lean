import TinyCortex.Lib.Ranking
import TinyCortex.Retrieval.CoverScoped

/-! What a restricted cover says about the sources that it leaves out. Its hits do not come from them, but a
summary that spans several sources still hides the allowed summaries below it while its own envelope fits into the
window, and a revision supersedes the others of its document whatever source it is of. Nothing else of the
other sources shows. -/

namespace TinyCortex.Retrieval

open Chunks SummaryTree Table Relation Pruning StableSort

section Part

variable {rows rows' : List SummaryNode} {mine mine' : SummaryNode → Prop} {s t p : SummaryNode} {id : String}

/-- Two lists of rows share a part; in neither list is a row of the part above one that is not. -/
structure SharedPart (rows rows' : List SummaryNode) (mine mine' : SummaryNode → Prop) : Prop where
  shared : ∀ s, s ∈ rows ∧ mine s ↔ s ∈ rows' ∧ mine' s
  closed : ∀ p s, Lists rows p s → mine p → mine s
  closed' : ∀ p s, Lists rows' p s → mine' p → mine' s

theorem SharedPart.symm (h : SharedPart rows rows' mine mine') : SharedPart rows' rows mine' mine :=
  ⟨fun s => (h.shared s).symm, h.closed', h.closed⟩

theorem SharedPart.lists (h : SharedPart rows rows' mine mine') (hmine : mine s) (hlink : Lists rows s t) :
    Lists rows' s t := by
  have hs := (h.shared s).mp ⟨hlink.1, hmine⟩
  have ht := (h.shared t).mp ⟨hlink.2.1, h.closed s t hlink hmine⟩
  exact ⟨hs.1, ht.1, hlink.2.2⟩

theorem SharedPart.above (h : SharedPart rows rows' mine mine') (hmine : mine s)
    (habove : ReflTransGen (Lists rows) s p) : mine p ∧ ReflTransGen (Lists rows') s p := by
  induction habove with
  | refl => exact ⟨hmine, .refl⟩
  | tail _ hlink ih => exact ⟨h.closed _ _ hlink ih.1, ih.2.tail (h.lists ih.1 hlink)⟩

theorem SharedPart.under (h : SharedPart rows rows' mine mine') (hs : s ∈ rows) (hmine : mine s)
    (hunder : Under rows s id) : Under rows' s id := by
  obtain ⟨p, habove, hchild, hid⟩ := hunder
  obtain ⟨hp, habove'⟩ := h.above hmine habove
  obtain ⟨hp', hpmine'⟩ := (h.shared p).mp ⟨mem_of_above habove hs, hp⟩
  refine ⟨p, habove', hchild, fun hmem => hid ?_⟩
  obtain ⟨t, ht, rfl⟩ := List.mem_map.mp hmem
  have hlink : Lists rows p t := h.symm.lists hpmine' ⟨hp', ht, hchild⟩
  exact List.mem_map_of_mem hlink.2.1

/-- The rows outside the part bear on it in the same way: the same rows of it are below another row, and the same
ones lose. -/
structure SameBearing (rows rows' : List SummaryNode) (mine : SummaryNode → Prop) : Prop where
  below : ∀ s ∈ rows, mine s → ((∃ p, Lists rows' p s) ↔ ∃ p, Lists rows p s)
  loses : ∀ s ∈ rows, mine s → (Loses rows' s ↔ Loses rows s)

theorem SharedPart.bearing (h : SharedPart rows rows' mine mine') (hbearing : SameBearing rows rows' mine) :
    SameBearing rows' rows mine' where
  below := fun s hs hmine =>
    have hshared := (h.shared s).mpr ⟨hs, hmine⟩
    (hbearing.below s hshared.1 hshared.2).symm
  loses := fun s hs hmine =>
    have hshared := (h.shared s).mpr ⟨hs, hmine⟩
    (hbearing.loses s hshared.1 hshared.2).symm

theorem SharedPart.stands (h : SharedPart rows rows' mine mine') (hbearing : SameBearing rows rows' mine)
    (hmine : mine s) {present : List String} (hs : Stands rows (some present) s) :
    Stands rows' (some present) s := by
  obtain ⟨⟨hrow, htop⟩, hwins, hpresent⟩ := hs
  have hrow' := (h.shared s).mp ⟨hrow, hmine⟩
  refine ⟨⟨hrow'.1, fun p hlink => ?_⟩, fun hloses => hwins ((hbearing.loses s hrow hmine).mp hloses), ?_⟩
  · obtain ⟨above, habove⟩ := (hbearing.below s hrow hmine).mp ⟨p, hlink⟩
    exact htop above habove
  · intro ids heq
    obtain ⟨hbelow, hids⟩ := hpresent ids heq
    refine ⟨fun l habove hloses => ?_, fun id hunder => hids id (h.symm.under hrow'.1 hrow'.2 hunder)⟩
    obtain ⟨hl', habove'⟩ := h.symm.above hrow'.2 habove
    obtain ⟨hl, hlmine⟩ := (h.shared l).mpr ⟨mem_of_above habove hrow'.1, hl'⟩
    exact hbelow l habove' ((hbearing.loses l hl hlmine).mp hloses)

/-- The plan picks its rows from the list in order. -/
theorem maximalRows_filter (rows : List SummaryNode) (restrictToPresent : Option (List String)) :
    ∃ q : SummaryNode → Bool, maximalRows (keptRows rows) restrictToPresent = rows.filter q := by
  rw [maximalRows, keptRows, filterSuperseded_eq, List.filter_filter]
  exact ⟨_, rfl⟩

/-- Two lists with the same picked rows, in the same order. -/
theorem filter_eq_of_part {a a' q q' : SummaryNode → Bool} (hsame : rows'.filter a' = rows.filter a)
    (hq : ∀ s ∈ rows, q s = true → a s = true) (hq' : ∀ s ∈ rows', q' s = true → a' s = true)
    (hiff : ∀ s ∈ rows, a s = true → (q' s = true ↔ q s = true)) : rows'.filter q' = rows.filter q := by
  have hpart : ∀ {l : List SummaryNode} {f g : SummaryNode → Bool}, (∀ s ∈ l, f s = true → g s = true) →
      l.filter f = (l.filter g).filter f := by
    intro l f g hsub
    rw [List.filter_filter]
    refine List.filter_congr fun s hs => ?_
    cases hf : f s with
    | false => rfl
    | true => rw [hsub s hs hf]; rfl
  rw [hpart hq', hsame, hpart hq]
  refine List.filter_congr fun s hs => Bool.eq_iff_iff.mpr ?_
  exact hiff s (List.mem_of_mem_filter hs) (List.mem_filter.mp hs).2

end Part

variable {limits : RetrievalLimits} {store store' : TaggedDb} {window : Window}
  {sourceScope : Option (List String)}

/-- The stores have the same allowed chunks, trees for their scopes, and summaries with nothing else below. -/
structure SameAllowed (window : Window) (sourceScope : Option (List String)) (store store' : TaggedDb) : Prop where
  chunks : allowedChunks store' window sourceScope = allowedChunks store window sourceScope
  summaries : store'.db.summaries.filter (onlyAllowed store' window sourceScope) =
    store.db.summaries.filter (onlyAllowed store window sourceScope)
  trees : ∀ chunk ∈ allowedChunks store window sourceScope,
    (getTreeByScope store'.db .source (chunkTreeScope chunk)).map Tree.id =
      (getTreeByScope store.db .source (chunkTreeScope chunk)).map Tree.id

/-- In the trees of the allowed chunks, the same allowed summaries are below another summary of the window, and the
same allowed summaries and chunks are superseded in the window. -/
structure SameShade (window : Window) (sourceScope : Option (List String)) (store store' : TaggedDb) : Prop where
  bearing : ∀ chunk ∈ allowedChunks store window sourceScope,
    SameBearing (fitting store.db window (chunkTreeScope chunk)) (fitting store'.db window (chunkTreeScope chunk))
      fun s => onlyAllowed store window sourceScope s = true
  superseded : ∀ chunk ∈ allowedChunks store window sourceScope,
    (∃ l, Loses (fitting store'.db window (chunkTreeScope chunk)) l ∧
        Under (fitting store'.db window (chunkTreeScope chunk)) l chunk.id) ↔
      ∃ l, Loses (fitting store.db window (chunkTreeScope chunk)) l ∧
        Under (fitting store.db window (chunkTreeScope chunk)) l chunk.id

section Stores

variable {source : String} {chunk : Chunk}

theorem listSummariesInWindow_filter (db : Db) (treeId : String) (sinceMs untilMs : Int) (p : SummaryNode → Bool) :
    (listSummariesInWindow db treeId sinceMs untilMs).filter p =
      listSummariesInWindow { db with summaries := db.summaries.filter p } treeId sinceMs untilMs := by
  rw [listSummariesInWindow, listSummariesInWindow, filter_mergeSort, List.filter_filter, List.filter_filter]
  · refine congrArg (List.mergeSort · _) (List.filter_congr fun s _ => ?_)
    exact Bool.and_comm _ _
  · intro a b c hab hbc
    simp only [Bool.or_eq_true, Bool.and_eq_true, beq_iff_eq, decide_eq_true_eq] at hab hbc ⊢
    omega
  · intro a b
    simp only [Bool.or_eq_true, Bool.and_eq_true, beq_iff_eq, decide_eq_true_eq]
    omega

/-- The allowed rows of a window are the same in both stores. -/
theorem SameAllowed.fitting (h : SameAllowed window sourceScope store store')
    (htree : (getTreeByScope store'.db .source source).map Tree.id =
      (getTreeByScope store.db .source source).map Tree.id) :
    (fitting store'.db window source).filter (onlyAllowed store' window sourceScope) =
      (fitting store.db window source).filter (onlyAllowed store window sourceScope) := by
  have hids : ∀ db : Db, Retrieval.fitting db window source =
      (((getTreeByScope db .source source).map Tree.id).map fun id =>
        listSummariesInWindow db id window.sinceMs window.untilMs).getD [] := by
    intro db
    rw [Retrieval.fitting, Option.map_map]
    rfl
  rw [hids, hids, htree]
  cases (getTreeByScope store.db .source source).map Tree.id with
  | none => rfl
  | some treeId =>
      rw [Option.map_some, Option.map_some, Option.getD_some, Option.getD_some, listSummariesInWindow_filter,
        listSummariesInWindow_filter, h.summaries]
      rfl

theorem SameAllowed.sharedPart (h : SameAllowed window sourceScope store store') (hlinked : Linked store.db)
    (hlinked' : Linked store'.db)
    (htree : (getTreeByScope store'.db .source source).map Tree.id =
      (getTreeByScope store.db .source source).map Tree.id) :
    SharedPart (Retrieval.fitting store.db window source) (Retrieval.fitting store'.db window source)
      (fun s => onlyAllowed store window sourceScope s = true)
      fun s => onlyAllowed store' window sourceScope s = true where
  shared := by
    intro s
    have hmem : s ∈ _ ↔ s ∈ _ := Iff.of_eq (congrArg (s ∈ ·) (h.fitting htree))
    rw [List.mem_filter, List.mem_filter] at hmem
    exact hmem.symm
  closed := fun p s hlink hp =>
    onlyAllowed_below hlinked hp ⟨fitting_subset hlink.1, fitting_subset hlink.2.1, hlink.2.2⟩
  closed' := fun p s hlink hp =>
    onlyAllowed_below hlinked' hp ⟨fitting_subset hlink.1, fitting_subset hlink.2.1, hlink.2.2⟩

theorem SameAllowed.listed (h : SameAllowed window sourceScope store store') :
    listedScoped limits store' window sourceScope = listedScoped limits store window sourceScope := by
  rw [listedScoped, listedScoped, scanned, scanned, allMatching_scoped, allMatching_scoped, h.chunks]

theorem Linked.mem_maximal (h : Linked store.db) (limits : RetrievalLimits) (window : Window)
    (sourceScope : Option (List String)) (source : String) (s : SummaryNode) :
    s ∈ maximalRows (keptRows (Retrieval.fitting store.db window source))
        (some (presentIds limits store window sourceScope source)) ↔
      Stands (Retrieval.fitting store.db window source)
        (some (presentIds limits store window sourceScope source)) s :=
  mem_maximalRows h.forest.fitting h.present_apart

/-- The plans of the scope of an allowed chunk take the same rows. -/
theorem SameShade.maximal (limits : RetrievalLimits) (hshade : SameShade window sourceScope store store')
    (h : SameAllowed window sourceScope store store') (hlinked : Linked store.db) (hlinked' : Linked store'.db)
    (hchunk : chunk ∈ allowedChunks store window sourceScope) :
    maximalRows (keptRows (Retrieval.fitting store'.db window (chunkTreeScope chunk)))
        (some (presentIds limits store' window sourceScope (chunkTreeScope chunk))) =
      maximalRows (keptRows (Retrieval.fitting store.db window (chunkTreeScope chunk)))
        (some (presentIds limits store window sourceScope (chunkTreeScope chunk))) := by
  have htree := h.trees chunk hchunk
  have hpart := h.sharedPart hlinked hlinked' htree
  have hbearing := hshade.bearing chunk hchunk
  have hpresent : presentIds limits store' window sourceScope (chunkTreeScope chunk) =
      presentIds limits store window sourceScope (chunkTreeScope chunk) := by
    rw [presentIds, presentIds, h.listed]
  have hmem := hlinked.mem_maximal limits window sourceScope (chunkTreeScope chunk)
  have hmem' := hlinked'.mem_maximal limits window sourceScope (chunkTreeScope chunk)
  obtain ⟨q, hq⟩ := maximalRows_filter (Retrieval.fitting store.db window (chunkTreeScope chunk))
    (some (presentIds limits store window sourceScope (chunkTreeScope chunk)))
  obtain ⟨q', hq'⟩ := maximalRows_filter (Retrieval.fitting store'.db window (chunkTreeScope chunk))
    (some (presentIds limits store' window sourceScope (chunkTreeScope chunk)))
  have hstands : ∀ s ∈ Retrieval.fitting store.db window (chunkTreeScope chunk), (q s = true ↔ _) :=
    fun s hs => ⟨fun h => (hmem s).mp (hq ▸ List.mem_filter.mpr ⟨hs, h⟩),
      fun h => (List.mem_filter.mp (hq ▸ (hmem s).mpr h)).2⟩
  have hstands' : ∀ s ∈ Retrieval.fitting store'.db window (chunkTreeScope chunk), (q' s = true ↔ _) :=
    fun s hs => ⟨fun h => (hmem' s).mp (hq' ▸ List.mem_filter.mpr ⟨hs, h⟩),
      fun h => (List.mem_filter.mp (hq' ▸ (hmem' s).mpr h)).2⟩
  rw [hq, hq']
  refine filter_eq_of_part (h.fitting htree) ?_ ?_ ?_
  · exact fun s hs h => onlyAllowed_of_stands hlinked ((hstands s hs).mp h)
  · exact fun s hs h => onlyAllowed_of_stands hlinked' ((hstands' s hs).mp h)
  · intro s hs hmine
    obtain ⟨hs', hmine'⟩ := (hpart.shared s).mp ⟨hs, hmine⟩
    rw [hstands s hs, hstands' s hs', hpresent]
    exact ⟨hpart.symm.stands (hpart.bearing hbearing) hmine', hpart.stands hbearing hmine⟩

/-- The same chunks of a scope are left raw. -/
theorem SameShade.raw (limits : RetrievalLimits) (hshade : SameShade window sourceScope store store')
    (h : SameAllowed window sourceScope store store') (hlinked : Linked store.db) (hlinked' : Linked store'.db)
    (hchunk : chunk ∈ allowedChunks store window sourceScope) :
    chunk.id ∉ (planCover (keptRows (Retrieval.fitting store'.db window (chunkTreeScope chunk)))
          (some (presentIds limits store' window sourceScope (chunkTreeScope chunk)))).coveredChunkIds ∧
        chunk.id ∉ (filterSupersededDocVersions
          (Retrieval.fitting store'.db window (chunkTreeScope chunk))).2 ↔
      chunk.id ∉ (planCover (keptRows (Retrieval.fitting store.db window (chunkTreeScope chunk)))
          (some (presentIds limits store window sourceScope (chunkTreeScope chunk)))).coveredChunkIds ∧
        chunk.id ∉ (filterSupersededDocVersions
          (Retrieval.fitting store.db window (chunkTreeScope chunk))).2 := by
  have hpart := h.sharedPart hlinked hlinked' (h.trees chunk hchunk)
  have hmaximal := hshade.maximal limits h hlinked hlinked' hchunk
  have hid := hlinked.allowed_apart (List.mem_map_of_mem hchunk)
  have hid' := hlinked'.allowed_apart (List.mem_map_of_mem (h.chunks ▸ hchunk))
  have hout : ∀ {db : Db}, chunk.id ∉ db.summaries.map SummaryNode.id →
      chunk.id ∉ (Retrieval.fitting db window (chunkTreeScope chunk)).map SummaryNode.id := by
    intro db hno hmem
    obtain ⟨t, ht, heq⟩ := List.mem_map.mp hmem
    exact hno (heq ▸ List.mem_map_of_mem (fitting_subset ht))
  have hmem := hlinked.mem_maximal limits window sourceScope (chunkTreeScope chunk)
  have hmem' := hlinked'.mem_maximal limits window sourceScope (chunkTreeScope chunk)
  rw [raw_iff hlinked.forest.fitting hlinked.present_apart (hout hid),
    raw_iff hlinked'.forest.fitting hlinked'.present_apart (hout hid')]
  refine and_congr ?_ (forall_congr' fun s => ?_)
  · have hsuperseded := not_congr (hshade.superseded chunk hchunk)
    push Not at hsuperseded
    exact hsuperseded
  · rw [← hmem s, ← hmem' s, hmaximal]
    refine imp_congr_right fun hs => not_congr ?_
    have hstands := (hmem s).mp hs
    have hstands' := (hmem' s).mp (hmaximal ▸ hs)
    have hmine := onlyAllowed_of_stands hlinked hstands
    have hmine' := onlyAllowed_of_stands hlinked' hstands'
    exact ⟨hpart.symm.under hstands'.1.1 hmine', hpart.under hstands.1.1 hmine⟩

/-- The cover of the scope of an allowed chunk. -/
theorem SameShade.coverOneSource (limits : RetrievalLimits) (hshade : SameShade window sourceScope store store')
    (h : SameAllowed window sourceScope store store') (hlinked : Linked store.db) (hlinked' : Linked store'.db)
    (hchunk : chunk ∈ allowedChunks store window sourceScope) :
    Retrieval.coverOneSource store'.db window (chunkTreeScope chunk)
        ((listedScoped limits store' window sourceScope).filter fun other =>
          chunkTreeScope other == chunkTreeScope chunk) true =
      Retrieval.coverOneSource store.db window (chunkTreeScope chunk)
        ((listedScoped limits store window sourceScope).filter fun other =>
          chunkTreeScope other == chunkTreeScope chunk) true := by
  have htreeId : sourceTreeId store'.db (chunkTreeScope chunk) = sourceTreeId store.db (chunkTreeScope chunk) :=
    congrArg (Option.getD · "") (h.trees chunk hchunk)
  rw [coverOneSource_eq hlinked.forest.fitting, coverOneSource_eq hlinked'.forest.fitting, if_pos rfl, if_pos rfl,
    htreeId]
  refine congrArg₂ _ (congrArg _ (hshade.maximal limits h hlinked hlinked' hchunk)) (congrArg _ ?_)
  rw [h.listed]
  refine List.filter_congr fun other hother => Bool.eq_iff_iff.mpr ?_
  obtain ⟨hlisted, hscope⟩ := List.mem_filter.mp hother
  have hraw := hshade.raw limits h hlinked hlinked' (mem_listedScoped hlisted).1
  rw [beq_iff_eq.mp hscope, presentIds, presentIds, h.listed] at hraw
  simpa only [Bool.and_eq_true, decide_eq_true_eq] using hraw

end Stores

/-- A restricted cover gives allowed chunks and summaries with nothing else below them, and comes out the same on
every store with the same allowed part on which the other summaries bear in the same way. -/
theorem cover_isolated (limits : RetrievalLimits) (store : TaggedDb) (window : Window)
    (sourceScope : Option (List String)) (limit : Nat) (hlimits : limits.Valid) (hlinked : Linked store.db)
    (hrestricted : (window.sourceId.isSome || sourceScope.isSome) = true) :
    (∀ response, coverWindowScoped limits store window sourceScope limit = .ok response →
      ∀ hit ∈ response.hits, Within store window sourceScope hit) ∧
    ∀ store' : TaggedDb, Linked store'.db → SameAllowed window sourceScope store store' →
      SameShade window sourceScope store store' →
      coverWindowScoped limits store' window sourceScope limit =
        coverWindowScoped limits store window sourceScope limit := by
  constructor
  · intro response hok hit hhit
    rw [coverWindowScoped] at hok
    by_cases hends : window.untilMs < window.sinceMs
    · rw [if_pos hends] at hok
      cases hok
    rw [if_neg hends] at hok
    obtain rfl := Except.ok.inj hok
    have hmem := List.mem_mergeSort.mp (List.mem_of_mem_take hhit)
    exact within_collectCoverScoped hlinked hlimits hrestricted hmem
  · intro store' hlinked' hsame hshade
    have hcollect : collectCoverScoped limits store' window sourceScope =
        collectCoverScoped limits store window sourceScope := by
      rw [collectCoverScoped_eq hlimits, collectCoverScoped_eq hlimits, hsame.listed, hrestricted]
      refine List.flatMap_congr fun source hsource => ?_
      obtain ⟨chunk, hchunk, rfl⟩ := List.mem_map.mp (List.mem_dedup.mp hsource)
      have hcover := hshade.coverOneSource limits hsame hlinked hlinked' (mem_listedScoped hchunk).1
      rwa [hsame.listed] at hcover
    rw [coverWindowScoped, coverWindowScoped, hcollect]

/-- A chunk of a channel of one team. -/
def posted (id sourceId : String) (timestampMs : Int) : Chunk :=
  ⟨id, .chat, sourceId, some "slack:team", timestampMs, timestampMs, timestampMs, 10, 0, .sealed⟩

def digest (id : String) (level : Nat) (parentId : Option String) (childIds : List String) (startMs endMs : Int) :
    SummaryNode :=
  ⟨id, "tree-1", level, parentId, childIds, 10, startMs, endMs, 30, false, none, none⟩

/-- Two channels that share a tree; the second one was last written to at the given time. -/
def sharedTree (lastMs : Int) : TaggedDb :=
  ⟨⟨[⟨"tree-1", .source, "slack:team", some "root", 2, .active, some 30⟩],
    [posted "chunk-1" "slack:mine" 1, posted "chunk-2" "slack:theirs" lastMs],
    [digest "digest-1" 1 (some "root") ["chunk-1"] 1 1,
      digest "digest-2" 1 (some "root") ["chunk-2"] lastMs lastMs,
      digest "root" 2 none ["digest-1", "digest-2"] 1 lastMs], []⟩, fun _ => []⟩

def mineOnly : Window := ⟨0, 10, some "slack:mine", none⟩

theorem sharedTree_linked : Linked (sharedTree 2).db where
  forest := ⟨by decide, by
    intro p s hlink
    have hfalls : ∀ p ∈ (sharedTree 2).db.summaries, ∀ s ∈ (sharedTree 2).db.summaries,
        s.id ∈ p.childIds → s.level < p.level := by decide
    exact hfalls p hlink.1 s hlink.2.1 hlink.2.2, by decide⟩
  apart := by decide

/-- What the other channel got after the last seal does not show. -/
theorem cover_isolated_sharedTree :
    coverWindowScoped pagedLimits ⟨{ (sharedTree 2).db with
        chunks := (sharedTree 2).db.chunks ++ [posted "chunk-3" "slack:theirs" 3] }, fun _ => []⟩ mineOnly none 0 =
      coverWindowScoped pagedLimits (sharedTree 2) mineOnly none 0 := by
  refine (cover_isolated pagedLimits (sharedTree 2) mineOnly none 0 (by constructor <;> decide) sharedTree_linked
    (by decide)).2 _ ⟨sharedTree_linked.forest, by decide⟩ ⟨by decide, by decide, by decide⟩ ⟨?_, ?_⟩
  · exact fun chunk _ => ⟨fun s _ _ => Iff.rfl, fun s _ _ => Iff.rfl⟩
  · exact fun chunk _ => Iff.rfl

theorem sharedTree_sealed (lastMs : Int) (h : lastMs = 2 ∨ lastMs = 20) : Sealed (sharedTree lastMs).db := by
  rcases h with rfl | rfl
  · constructor <;> decide
  · constructor <;> decide

/-- While the other channel is in the window the root is too, and the digest below it gives way to its chunk; later
the root is out of the window and the digest is emitted. -/
theorem sharedTree_leaks :
    ¬∀ (limits : RetrievalLimits) store store' window sourceScope limit, limits.Valid → Sealed store.db →
      Sealed store'.db → (window.sourceId.isSome || Option.isSome sourceScope) = true →
      SameAllowed window sourceScope store store' →
      coverWindowScoped limits store' window sourceScope limit =
        coverWindowScoped limits store window sourceScope limit := by
  intro hall
  have hsame := hall pagedLimits (sharedTree 2) (sharedTree 20) mineOnly none 0 (by constructor <;> decide)
    (sharedTree_sealed 2 (Or.inl rfl)) (sharedTree_sealed 20 (Or.inr rfl)) (by decide)
    ⟨by decide, by decide, by decide⟩
  have hlisted : ∀ lastMs, lastMs = 2 ∨ lastMs = 20 →
      listedScoped pagedLimits (sharedTree lastMs) mineOnly none = [posted "chunk-1" "slack:mine" 1] := by
    intro lastMs h
    have hfilter : (scopedChunks (sharedTree lastMs) none).filter mineOnly.query.admits =
        [posted "chunk-1" "slack:mine" 1] := by
      rcases h with rfl | rfl
      · decide
      · decide
    rw [listedScoped, scanned, if_pos (by decide), allMatching, hfilter, List.mergeSort_singleton]
  have hboth : fitting (sharedTree 2).db mineOnly "slack:team" = (sharedTree 2).db.summaries := by
    show List.mergeSort (List.filter _ (sharedTree 2).db.summaries) _ = _
    rw [List.filter_eq_self.mpr (by decide)]
    exact List.mergeSort_of_pairwise (by decide)
  have hdigest : fitting (sharedTree 20).db mineOnly "slack:team" =
      [digest "digest-1" 1 (some "root") ["chunk-1"] 1 1] := by
    show List.mergeSort (List.filter (fun s => s.treeId == "tree-1" && !s.deleted && decide (0 ≤ s.timeRangeStartMs) &&
      decide (s.timeRangeEndMs ≤ 10)) (sharedTree 20).db.summaries) _ = _
    rw [show (sharedTree 20).db.summaries.filter _ = [digest "digest-1" 1 (some "root") ["chunk-1"] 1 1] by decide,
      List.mergeSort_singleton]
  have hcover : ∀ lastMs, lastMs = 2 ∨ lastMs = 20 → ∀ rows, fitting (sharedTree lastMs).db mineOnly "slack:team" = rows →
      collectCoverScoped pagedLimits (sharedTree lastMs) mineOnly none =
        (maximalRows (keptRows rows) (some ["chunk-1"])).map (fun s => hitFromSummary s "slack:team") ++
          ([posted "chunk-1" "slack:mine" 1].filter fun chunk =>
            chunk.id ∉ (planCover (keptRows rows) (some ["chunk-1"])).coveredChunkIds &&
              chunk.id ∉ (filterSupersededDocVersions rows).2).map
            fun chunk => hitFromChunk chunk "tree-1" "slack:team" := by
    intro lastMs h rows hrows
    rw [collectCoverScoped_eq (by constructor <;> decide), hlisted lastMs h]
    show List.flatMap _ ["slack:team"] = _
    rw [List.flatMap_singleton, coverOneSource_eq (sharedTree_sealed lastMs h).forest, hrows]
    rfl
  have htwo : collectCoverScoped pagedLimits (sharedTree 2) mineOnly none =
      [hitFromChunk (posted "chunk-1" "slack:mine" 1) "tree-1" "slack:team"] :=
    (hcover 2 (Or.inl rfl) _ hboth).trans (by decide)
  have htwenty : collectCoverScoped pagedLimits (sharedTree 20) mineOnly none =
      [hitFromSummary (digest "digest-1" 1 (some "root") ["chunk-1"] 1 1) "slack:team"] :=
    (hcover 20 (Or.inr rfl) _ hdigest).trans (by decide)
  rw [coverWindowScoped, coverWindowScoped, htwo, htwenty, List.mergeSort_singleton,
    List.mergeSort_singleton] at hsame
  exact absurd hsame (by decide)

end TinyCortex.Retrieval
