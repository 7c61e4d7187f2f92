import TinyCortex.Diff.ItemTrees
import TinyCortex.Lib.MapDiff

/-! A snapshot diff is the difference of the two item maps, whatever other snapshots lie before, between and
behind the two. The tree diff of the repository library is taken to be exact on blobs. -/

namespace TinyCortex.Diff

open MapDiff

/-! ### Blobs by their paths -/

/-- The blobs of a commit by their paths. -/
def RootTree.blobs (root : RootTree) : List (String × String) :=
  root.flatMap fun entry => entry.2.map fun item => (entry.1 ++ "/" ++ item.1, item.2)

def RootTree.blobAt (root : RootTree) (path : String) : Option String :=
  (root.blobs.find? fun blob => blob.1 = path).map (·.2)

def Delta.change (delta : Delta) : Change String String := ⟨delta.path, delta.oldFile, delta.newFile⟩

/-- The status of a path that is in one tree or both, as one blob or two. -/
def statusOf : Option String → Option String → DeltaStatus
  | none, none => .unmodified
  | none, some _ => .added
  | some _, none => .deleted
  | some _, some _ => .modified

/-- What the library documents of a diff of two trees limited to a directory: each path whose blobs differ,
once. Paths of other directories may come with it. -/
structure IsTreeDiff (older newer : RootTree) (pathspec : String) (deltas : List Delta) : Prop where
  exact : ExactOn (fun path => (pathspec ++ "/").toList <+: path.toList) older.blobAt newer.blobAt
    (deltas.map Delta.change)
  status : ∀ delta ∈ deltas, delta.status = statusOf delta.oldFile delta.newFile

/-- The tree diff is exact on blobs. -/
def Git2.Exact (git : Git2) : Prop :=
  ∀ older newer pathspec, IsTreeDiff older newer pathspec (git.diffTreeToTree older newer pathspec)

/-- The items of a snapshot: a later item of an id replaces an earlier one. -/
def itemMap (items : List (String × String)) (id : String) : Option String :=
  (items.reverse.find? fun item => item.1 = id).map (·.2)

/-- Directories stand once each, and their names have no slash. -/
structure RootTree.WellFormed (root : RootTree) : Prop where
  ordered : OrderedMap.Ordered root
  slash : ∀ entry ∈ root, '/' ∉ entry.1.toList

theorem path_inj {dir dir' name name' : String} (hdir : '/' ∉ dir.toList) (hdir' : '/' ∉ dir'.toList)
    (h : dir ++ "/" ++ name = dir' ++ "/" ++ name') : dir = dir' ∧ name = name' := by
  have hslash : "/".toList = ['/'] := by decide
  have hchars := congrArg String.toList h
  simp only [String.toList_append, hslash, List.append_assoc, List.singleton_append] at hchars
  obtain ⟨hleft, hright⟩ := FrontMatter.append_sep_inj hdir hdir' hchars
  exact ⟨String.toList_inj.mp hleft, String.toList_inj.mp hright⟩

/-- The blob at a path is the item of the directory in front of the slash. -/
theorem RootTree.WellFormed.blobAt {root : RootTree} (h : root.WellFormed) {dir : String} (hdir : '/' ∉ dir.toList)
    (name : String) :
    root.blobAt (dir ++ "/" ++ name) = (OrderedMap.get root dir).bind fun tree => OrderedMap.get tree name := by
  unfold RootTree.blobAt RootTree.blobs
  induction root with
  | nil => rfl
  | cons entry root ih =>
      obtain ⟨first, tree⟩ := entry
      obtain ⟨hfirst, hordered⟩ := List.pairwise_cons.mp h.ordered
      obtain ⟨hslash, hrest⟩ := List.forall_mem_cons.mp h.slash
      have htail := ih ⟨hordered, hrest⟩
      rw [List.flatMap_cons, List.find?_append, OrderedMap.get_cons, List.find?_map]
      by_cases heq : first = dir
      · subst heq
        -- No later directory has this name, so that its own tree decides.
        have hnone : OrderedMap.get root first = none := by
          rw [← Option.not_isSome_iff_eq_none, ← OrderedMap.mem_keys_iff]
          intro hmem
          obtain ⟨entry, hentry, hkey⟩ := List.mem_map.mp hmem
          exact absurd (hfirst entry hentry) (hkey ▸ lt_irrefl _)
        rw [hnone, Option.bind_none, Option.map_eq_none_iff] at htail
        have hname : ((fun blob : String × String => decide (blob.1 = first ++ "/" ++ name)) ∘
            fun item : String × String => (first ++ "/" ++ item.1, item.2)) = fun item => decide (item.1 = name) := by
          funext item
          simp only [Function.comp_apply, String.append_right_inj]
        rw [htail, Option.or_none, if_pos (Eq.refl _), hname, Option.bind_some, Option.map_map]
        rfl
      · have hnone : tree.find? ((fun blob : String × String => decide (blob.1 = dir ++ "/" ++ name)) ∘
            fun item : String × String => (first ++ "/" ++ item.1, item.2)) = none := by
          apply List.find?_eq_none.mpr
          intro item _ hitem
          exact heq (path_inj hslash hdir (of_decide_eq_true hitem)).1
        rw [hnone, Option.map_none, Option.none_or, if_neg heq, htail]

/-! ### The tree of a snapshot -/

theorem get_sourceTree (items : List (String × String)) (id : String) :
    OrderedMap.get (sourceTree items) (encodeItemId id) = itemMap items id := by
  induction items using List.reverseRecOn with
  | nil => rfl
  | append_singleton items item ih =>
      rw [sourceTree, List.foldl_append, List.foldl_cons, List.foldl_nil, OrderedMap.get_insert, ← sourceTree, ih,
        itemMap, itemMap, List.reverse_concat, List.find?_cons]
      by_cases h : item.1 = id
      · rw [if_pos (congrArg encodeItemId h), decide_eq_true h]
        rfl
      · rw [if_neg fun heq => h (encodeItemId_inj heq), decide_eq_false h]

/-- The names of a source tree are encoded item ids. -/
theorem eq_encodeItemId_of_get {items : List (String × String)} {name content : String}
    (h : OrderedMap.get (sourceTree items) name = some content) : ∃ id, name = encodeItemId id := by
  induction items using List.reverseRecOn with
  | nil =>
      rw [sourceTree, List.foldl_nil, OrderedMap.get_nil] at h
      cases h
  | append_singleton items item ih =>
      rw [sourceTree, List.foldl_append, List.foldl_cons, List.foldl_nil, OrderedMap.get_insert] at h
      split_ifs at h with heq
      · exact ⟨item.1, heq.symm⟩
      · exact ih h

theorem WellFormed.root {parent : RootTree} (h : parent.WellFormed) (call : SnapshotCall) :
    (call.root parent).WellFormed := by
  unfold SnapshotCall.root
  split_ifs
  · exact ⟨h.ordered.erase, fun entry hentry => h.slash entry (List.mem_of_mem_filter hentry)⟩
  · refine ⟨h.ordered.insert, fun entry hentry => ?_⟩
    rcases OrderedMap.mem_insert hentry with rfl | hold
    · exact slash_not_mem_encodeItemId _
    · exact h.slash entry hold

/-- A root tree holds the items of a call under the call's source. -/
structure Holds (root : RootTree) (sourceId : String) (items : List (String × String)) : Prop where
  wellFormed : root.WellFormed
  tree : OrderedMap.get root (encodeItemId sourceId) = none ∧ items = [] ∨
    OrderedMap.get root (encodeItemId sourceId) = some (sourceTree items)

theorem holds_root {parent : RootTree} (h : parent.WellFormed) (call : SnapshotCall) :
    Holds (call.root parent) call.snapshotMeta.sourceId call.items := by
  refine ⟨WellFormed.root h call, ?_⟩
  unfold SnapshotCall.root
  by_cases hempty : call.items.isEmpty = true
  · rw [if_pos hempty, OrderedMap.get_erase, if_pos (Eq.refl _)]
    exact Or.inl ⟨Eq.refl _, List.isEmpty_iff.mp hempty⟩
  · rw [if_neg hempty, OrderedMap.get_insert, if_pos (Eq.refl _)]
    exact Or.inr (Eq.refl _)

theorem Holds.blobAt_name {root : RootTree} {sourceId : String} {items : List (String × String)}
    (h : Holds root sourceId items) (name : String) :
    root.blobAt (encodeItemId sourceId ++ "/" ++ name) = OrderedMap.get (sourceTree items) name := by
  rw [h.wellFormed.blobAt (slash_not_mem_encodeItemId sourceId)]
  rcases h.tree with ⟨hnone, rfl⟩ | hsome
  · rw [hnone]
    rfl
  · rw [hsome, Option.bind_some]

/-- The path of an item. -/
def itemPath (sourceId id : String) : String := encodeItemId sourceId ++ "/" ++ encodeItemId id

theorem Holds.blobAt {root : RootTree} {sourceId : String} {items : List (String × String)}
    (h : Holds root sourceId items) (id : String) : root.blobAt (itemPath sourceId id) = itemMap items id := by
  rw [itemPath, h.blobAt_name, get_sourceTree]

theorem itemOfPath_itemPath (sourceId id : String) :
    itemOfPath (encodeItemId sourceId ++ "/") (itemPath sourceId id) = some id := by
  rw [itemOfPath, itemPath, String.toList_append, FrontMatter.dropPrefix?_append, Option.map_some,
    String.ofList_toList, decodeItemId_encodeItemId]

/-- A path below the source's directory is the path of its item, if one of the trees has a blob there. -/
theorem eq_itemPath {older newer : RootTree} {sourceId path id : String} {items items' : List (String × String)}
    (hold : Holds older sourceId items) (hnew : Holds newer sourceId items')
    (hread : itemOfPath (encodeItemId sourceId ++ "/") path = some id)
    (hne : older.blobAt path ≠ newer.blobAt path) : path = itemPath sourceId id := by
  obtain ⟨encoded, hdrop, hid⟩ := Option.map_eq_some_iff.mp hread
  obtain ⟨pre, hpath, hpre⟩ := List.dropPrefix?_eq_some_iff.mp hdrop
  rw [eq_of_beq hpre] at hpath
  have hsplit : path = encodeItemId sourceId ++ "/" ++ String.ofList encoded := by
    apply String.toList_inj.mp
    simp only [hpath, String.toList_append, String.toList_ofList]
  rw [hsplit, hold.blobAt_name, hnew.blobAt_name] at hne
  have hname : ∃ id, String.ofList encoded = encodeItemId id := by
    cases hget : OrderedMap.get (sourceTree items) (String.ofList encoded) with
    | some content => exact eq_encodeItemId_of_get hget
    | none =>
        obtain ⟨content, hcontent⟩ := Option.ne_none_iff_exists'.mp fun hnone => hne (hget.trans hnone.symm)
        exact eq_encodeItemId_of_get hcontent
  obtain ⟨id', hname⟩ := hname
  rw [hname, decodeItemId_encodeItemId] at hid
  rw [hsplit, hname, hid, itemPath]

/-- The deltas of a source's directory, read as items, are the differences of the item maps. -/
theorem exact_items {older newer : RootTree} {sourceId : String} {items items' : List (String × String)}
    {deltas : List Delta} (hold : Holds older sourceId items) (hnew : Holds newer sourceId items')
    (hdiff : IsTreeDiff older newer (encodeItemId sourceId) deltas) :
    Exact (itemMap items) (itemMap items')
      (renamed (itemOfPath (encodeItemId sourceId ++ "/")) (deltas.map Delta.change)) := by
  have hwithin : ∀ id, (encodeItemId sourceId ++ "/").toList <+: (itemPath sourceId id).toList := by
    intro id
    simp only [itemPath, String.toList_append]
    exact List.prefix_append _ _
  have hkey : ∀ c ∈ deltas.map Delta.change, ∀ id,
      itemOfPath (encodeItemId sourceId ++ "/") c.key = some id → c.key = itemPath sourceId id :=
    fun c hc id hread => eq_itemPath hold hnew hread (hdiff.exact.differs c hc)
  have holdMap : itemMap items = fun id => older.blobAt (itemPath sourceId id) := funext fun id => (hold.blobAt id).symm
  have hnewMap : itemMap items' = fun id => newer.blobAt (itemPath sourceId id) := funext fun id => (hnew.blobAt id).symm
  rw [holdMap, hnewMap]
  exact hdiff.exact.renamed (itemOfPath_itemPath sourceId) hwithin hkey

/-! ### The loop over the deltas -/

/-- The kind of a change from what the two sides have. -/
def kindOf : Option String → Option String → ChangeKind
  | none, _ => .added
  | some _, none => .removed
  | some _, some _ => .modified

theorem kind_statusOf {old new : Option String} (h : old ≠ new) : (statusOf old new).kind = some (kindOf old new) := by
  cases old with
  | none =>
      cases new with
      | none => exact absurd (Eq.refl _) h
      | some content => rfl
  | some content => cases new <;> rfl

/-- A change as an entry of a map difference of hashes, with its kind. -/
def FullItemChange.core (c : FullItemChange) : Change String String × ChangeKind :=
  (⟨c.itemId, c.oldContentHash, c.newContentHash⟩, c.kind)

def hashedCore (git : Git2) (c : Change String String) : Change String String × ChangeKind :=
  (⟨c.key, c.old.map git.oid, c.new.map git.oid⟩, kindOf c.old c.new)

def countKind (changes : List FullItemChange) (kind : ChangeKind) : Nat := changes.countP fun c => c.kind = kind

/-- The loop appends the changes of the named deltas, and counts them. -/
theorem deltaLoop_spec (git : Git2) (diff : List Delta) (pathPrefix : String) (includeTextDiff : Bool)
    {deltas : List Delta} (hstatus : ∀ delta ∈ deltas, delta.status = statusOf delta.oldFile delta.newFile)
    (hne : ∀ delta ∈ deltas, delta.oldFile ≠ delta.newFile) (idx : Nat) (changes : List FullItemChange)
    (summary : DiffSummary) :
    ∃ more, deltaLoop git diff pathPrefix includeTextDiff deltas idx changes summary =
        (changes ++ more, { summary with
          added := summary.added + countKind more .added
          removed := summary.removed + countKind more .removed
          modified := summary.modified + countKind more .modified }) ∧
      more.map FullItemChange.core = (renamed (itemOfPath pathPrefix) (deltas.map Delta.change)).map (hashedCore git) := by
  induction deltas generalizing idx changes summary with
  | nil => exact ⟨[], by rw [deltaLoop, List.append_nil]; rfl, Eq.refl _⟩
  | cons delta deltas ih =>
      obtain ⟨hhead, hstatus⟩ := List.forall_mem_cons.mp hstatus
      obtain ⟨hdiffers, hne⟩ := List.forall_mem_cons.mp hne
      rw [deltaLoop, List.map_cons, renamed, List.filterMap_cons, ← renamed]
      cases hitem : itemOfPath pathPrefix delta.path with
      | none =>
          obtain ⟨more, hloop, hcore⟩ := ih hstatus hne (idx + 1) changes summary
          refine ⟨more, hloop, hcore.trans ?_⟩
          rw [Delta.change, hitem]
          rfl
      | some itemId =>
          have hkind : delta.status.kind = some (kindOf delta.oldFile delta.newFile) := by
            rw [hhead, kind_statusOf hdiffers]
          dsimp only
          rw [hkind]
          set change := fullItemChange git diff includeTextDiff idx delta itemId (kindOf delta.oldFile delta.newFile)
            with hchange
          obtain ⟨more, hloop, hcore⟩ := ih hstatus hne (idx + 1) (changes ++ [change])
            (summary.count (kindOf delta.oldFile delta.newFile))
          refine ⟨change :: more, ?_, ?_⟩
          · dsimp only
            rw [hloop, List.append_assoc, List.singleton_append]
            have hcount : ∀ kind, countKind (change :: more) kind =
                countKind more kind + if kindOf delta.oldFile delta.newFile = kind then 1 else 0 := by
              intro kind
              rw [countKind, List.countP_cons, ← countKind]
              simp only [hchange, fullItemChange, decide_eq_true_eq]
            rw [hcount, hcount, hcount]
            cases kindOf delta.oldFile delta.newFile <;> simp [DiffSummary.count] <;> omega
          · rw [List.map_cons, hcore, Delta.change, hitem]
            rfl

/-! ### The difference -/

/-- The changes are the difference of two item maps, by their content hashes. -/
structure IsMapDifference (hash : String → String) (older newer : String → Option String)
    (changes : List FullItemChange) (summary : DiffSummary) : Prop where
  nodup : (changes.map (·.itemId)).Nodup
  added : ∀ id, (∃ c ∈ changes, c.itemId = id ∧ c.kind = .added) ↔ older id = none ∧ newer id ≠ none
  removed : ∀ id, (∃ c ∈ changes, c.itemId = id ∧ c.kind = .removed) ↔ older id ≠ none ∧ newer id = none
  modified : ∀ id, (∃ c ∈ changes, c.itemId = id ∧ c.kind = .modified) ↔
    older id ≠ none ∧ newer id ≠ none ∧ older id ≠ newer id
  hashes : ∀ c ∈ changes, c.oldContentHash = (older c.itemId).map hash ∧ c.newContentHash = (newer c.itemId).map hash
  applied : apply (changes.map fun c => ⟨c.itemId, c.oldContentHash, c.newContentHash⟩)
    (fun id => (older id).map hash) = fun id => (newer id).map hash
  counts : summary.added = countKind changes .added ∧ summary.removed = countKind changes .removed ∧
    summary.modified = countKind changes .modified

/-- A change of some kind is there exactly where the two maps differ in this way. -/
theorem exists_kind_iff {git : Git2} {older newer : String → Option String} {cs : List (Change String String)}
    (hexact : Exact older newer cs) {changes : List FullItemChange}
    (hcore : changes.map FullItemChange.core = cs.map (hashedCore git)) (id : String) (kind : ChangeKind) :
    (∃ c ∈ changes, c.itemId = id ∧ c.kind = kind) ↔
      older id ≠ newer id ∧ kindOf (older id) (newer id) = kind := by
  constructor
  · rintro ⟨c, hc, rfl, rfl⟩
    have hmem := List.mem_map_of_mem (f := FullItemChange.core) hc
    rw [hcore] at hmem
    obtain ⟨d, hd, hdc⟩ := List.mem_map.mp hmem
    have hkey : d.key = c.itemId := congrArg (fun core => core.1.key) hdc
    have hkind : kindOf d.old d.new = c.kind := congrArg Prod.snd hdc
    rw [hexact.old_eq d hd, hexact.new_eq d hd, hkey] at hkind
    exact ⟨hkey ▸ hexact.differs d hd, hkind⟩
  · rintro ⟨hne, rfl⟩
    obtain ⟨d, hd, hkey⟩ := List.mem_map.mp (hexact.complete id trivial hne)
    have hmem := List.mem_map_of_mem (f := hashedCore git) hd
    rw [← hcore] at hmem
    obtain ⟨c, hc, hcd⟩ := List.mem_map.mp hmem
    have hid : c.itemId = d.key := congrArg (fun core => core.1.key) hcd
    have hkind : c.kind = kindOf d.old d.new := congrArg Prod.snd hcd
    refine ⟨c, hc, hid.trans hkey, ?_⟩
    rw [hkind, hexact.old_eq d hd, hexact.new_eq d hd, hkey]

theorem isMapDifference_of_core {git : Git2} {older newer : String → Option String} {cs : List (Change String String)}
    (hexact : Exact older newer cs) {changes : List FullItemChange}
    (hcore : changes.map FullItemChange.core = cs.map (hashedCore git)) (unchanged : Nat) :
    IsMapDifference git.oid older newer changes
      ⟨countKind changes .added, countKind changes .removed, countKind changes .modified, unchanged⟩ := by
  have hchanges : changes.map (fun c => (⟨c.itemId, c.oldContentHash, c.newContentHash⟩ : Change String String)) =
      cs.map fun c => ⟨c.key, c.old.map git.oid, c.new.map git.oid⟩ := by
    have hfst := congrArg (List.map Prod.fst) hcore
    rwa [List.map_map, List.map_map] at hfst
  have hkeys : changes.map (·.itemId) = cs.map (·.key) := by
    have hkey := congrArg (List.map Change.key) hchanges
    rwa [List.map_map, List.map_map] at hkey
  refine ⟨hkeys ▸ hexact.nodup, fun id => ?_, fun id => ?_, fun id => ?_, fun c hc => ?_, ?_,
    Eq.refl _, Eq.refl _, Eq.refl _⟩
  · rw [exists_kind_iff hexact hcore]
    cases older id <;> cases newer id <;> simp [kindOf]
  · rw [exists_kind_iff hexact hcore]
    cases older id <;> cases newer id <;> simp [kindOf]
  · rw [exists_kind_iff hexact hcore]
    cases older id <;> cases newer id <;> simp [kindOf]
  · have hmem := List.mem_map_of_mem
      (f := fun c : FullItemChange => (⟨c.itemId, c.oldContentHash, c.newContentHash⟩ : Change String String)) hc
    rw [hchanges] at hmem
    obtain ⟨d, hd, hdc⟩ := List.mem_map.mp hmem
    obtain ⟨hkey, hold, hnew⟩ := Change.mk.inj hdc
    rw [← hold, ← hnew, hexact.old_eq d hd, hexact.new_eq d hd, hkey]
    exact ⟨Eq.refl _, Eq.refl _⟩
  · rw [hchanges]
    exact hexact.apply_map git.oid

/-- Added and modified items are items of the newer snapshot. -/
theorem countKind_le {git : Git2} {older : String → Option String} {items : List (String × String)}
    {cs : List (Change String String)} (hexact : Exact older (itemMap items) cs) {changes : List FullItemChange}
    (hcore : changes.map FullItemChange.core = cs.map (hashedCore git)) :
    countKind changes .added + countKind changes .modified ≤ items.length := by
  have hcount : ∀ kind, countKind changes kind = cs.countP fun c => kindOf c.old c.new = kind := by
    intro kind
    have hkinds := congrArg (List.countP fun core => core.2 = kind) hcore
    rwa [List.countP_map, List.countP_map] at hkinds
  have hsum : countKind changes .added + countKind changes .modified = (cs.filter (·.new.isSome)).length := by
    rw [hcount, hcount, ← List.countP_eq_length_filter]
    have hdiffers : ∀ c ∈ cs, c.old ≠ c.new := by
      intro c hc
      rw [hexact.old_eq c hc, hexact.new_eq c hc]
      exact hexact.differs c hc
    clear hcount hcore hexact
    induction cs with
    | nil => rfl
    | cons c cs ih =>
        obtain ⟨hc, hcs⟩ := List.forall_mem_cons.mp hdiffers
        have hrest := ih hcs
        rw [List.countP_cons, List.countP_cons, List.countP_cons, ← hrest]
        obtain ⟨key, old, new⟩ := c
        cases old <;> cases new <;> simp_all [kindOf] <;> omega
  have hlength : items.length = (items.map (·.1)).length := (List.length_map _).symm
  rw [hsum, hlength]
  apply hexact.length_le
  intro id hid
  obtain ⟨content, hcontent⟩ := Option.ne_none_iff_exists'.mp hid
  obtain ⟨item, hfind, -⟩ := Option.map_eq_some_iff.mp hcontent
  have hkey := List.find?_some hfind
  exact List.mem_map.mpr ⟨item, List.mem_reverse.mp (List.mem_of_find?_eq_some hfind), of_decide_eq_true hkey⟩

/-! ### Runs of the ledger -/

namespace TreeLedger

/-- Each commit has its tree, and the trees are well formed. -/
structure Sound (t : TreeLedger) : Prop where
  length : t.roots.length = t.ledger.commits.length
  wellFormed : ∀ root ∈ t.roots, root.WellFormed

/-- All that can come of `commit_snapshot`. -/
theorem commitSnapshot_cases (t : TreeLedger) (call : SnapshotCall) :
    (∃ error, t.commitSnapshot call = (t, .error error)) ∨
      ∃ ledger snapshot, t.commitSnapshot call =
          (⟨ledger, t.roots ++ [call.root (t.roots.getLast?.getD [])]⟩, .ok snapshot) ∧
        ledger.commits.length = t.ledger.commits.length + 1 ∧ snapshot.id = t.ledger.commits.length ∧
        snapshot.itemCount = call.items.length := by
  unfold commitSnapshot Ledger.commitSnapshot
  cases validateSourceId call.snapshotMeta.sourceId with
  | error error => exact Or.inl ⟨error, Eq.refl _⟩
  | ok valid =>
      refine Or.inr ⟨_, _, Eq.refl _, ?_, Eq.refl _, Eq.refl _⟩
      dsimp only
      rw [List.length_append, List.length_singleton]

theorem wellFormed_getLast {t : TreeLedger} (h : t.Sound) : RootTree.WellFormed (t.roots.getLast?.getD []) := by
  cases hlast : t.roots.getLast? with
  | none => exact ⟨OrderedMap.ordered_nil, fun _ hmem => absurd hmem List.not_mem_nil⟩
  | some root => exact h.wellFormed root (List.mem_of_getLast? hlast)

theorem Sound.commitSnapshot {t : TreeLedger} (h : t.Sound) (call : SnapshotCall) :
    (t.commitSnapshot call).1.Sound := by
  rcases t.commitSnapshot_cases call with ⟨error, heq⟩ | ⟨ledger, snapshot, heq, hlength, -, -⟩
  · rw [heq]
    exact h
  · rw [heq]
    refine ⟨?_, fun root hroot => ?_⟩
    · dsimp only
      rw [List.length_append, List.length_singleton, h.length, hlength]
    · rcases List.mem_append.mp hroot with hold | hnew
      · exact h.wellFormed root hold
      · rw [List.mem_singleton.mp hnew]
        exact WellFormed.root (wellFormed_getLast h) call

theorem roots_commitSnapshot (t : TreeLedger) (call : SnapshotCall) : t.roots <+: (t.commitSnapshot call).1.roots := by
  rcases t.commitSnapshot_cases call with ⟨error, heq⟩ | ⟨ledger, snapshot, heq, -, -, -⟩
  · exact ⟨[], by rw [heq, List.append_nil]⟩
  · rw [heq]
    exact List.prefix_append _ _

theorem commitAll_cons (t : TreeLedger) (call : SnapshotCall) (calls : List SnapshotCall) :
    t.commitAll (call :: calls) = (t.commitSnapshot call).1.commitAll calls := List.foldl_cons

theorem Sound.commitAll {t : TreeLedger} (h : t.Sound) (calls : List SnapshotCall) : (t.commitAll calls).Sound := by
  induction calls generalizing t with
  | nil => exact h
  | cons call calls ih =>
      rw [commitAll_cons]
      exact ih (h.commitSnapshot call)

/-- Later calls leave the trees of the commits that are there. -/
theorem roots_commitAll (t : TreeLedger) (calls : List SnapshotCall) : t.roots <+: (t.commitAll calls).roots := by
  induction calls generalizing t with
  | nil => exact List.prefix_refl _
  | cons call calls ih =>
      rw [commitAll_cons]
      exact (t.roots_commitSnapshot call).trans (ih _)

theorem sound_empty : TreeLedger.empty.Sound := ⟨Eq.refl _, fun _ hmem => absurd hmem List.not_mem_nil⟩

end TreeLedger

/-- In a run of these calls, the call took the snapshot. -/
def Took (calls : List SnapshotCall) (call : SnapshotCall) (snapshot : Snapshot) : Prop :=
  ∃ before after, calls = before ++ call :: after ∧
    ((TreeLedger.empty.commitAll before).commitSnapshot call).2 = .ok snapshot

/-- A snapshot's commit keeps its items through the whole run. -/
theorem Took.holds {calls : List SnapshotCall} {call : SnapshotCall} {snapshot : Snapshot}
    (h : Took calls call snapshot) :
    ∃ root, (TreeLedger.empty.commitAll calls).findTree snapshot.id = .ok root ∧
      Holds root call.snapshotMeta.sourceId call.items ∧ snapshot.itemCount = call.items.length := by
  obtain ⟨before, after, rfl, htook⟩ := h
  have hsound := TreeLedger.sound_empty.commitAll before
  have hrun : TreeLedger.empty.commitAll (before ++ call :: after) =
      ((TreeLedger.empty.commitAll before).commitSnapshot call).1.commitAll after := by
    rw [← TreeLedger.commitAll_cons]
    exact List.foldl_append
  rcases (TreeLedger.empty.commitAll before).commitSnapshot_cases call with
    ⟨error, heq⟩ | ⟨ledger, snapshot', heq, -, hid, hcount⟩
  · rw [heq] at htook
    cases htook
  · rw [heq] at htook hrun
    obtain rfl := Except.ok.inj htook
    refine ⟨_, ?_, holds_root (TreeLedger.wellFormed_getLast hsound) call, hcount⟩
    obtain ⟨later, hlater⟩ := TreeLedger.roots_commitAll
      ⟨ledger, (TreeLedger.empty.commitAll before).roots ++
        [call.root ((TreeLedger.empty.commitAll before).roots.getLast?.getD [])]⟩ after
    rw [TreeLedger.findTree, hrun, ← hlater, hid, ← hsound.length, List.append_assoc,
      List.getElem?_append_right (Nat.le_refl _), Nat.sub_self]
    rfl

/-- The diff of two snapshots of one source, in any run of commits of any sources, is the difference of
their item maps: disjoint ids, and the older map with the changes applied is the newer. Added, modified and
unchanged items make up the item count of the newer snapshot. -/
theorem computeChanges_isMapDifference {git : Git2} (hgit : git.Exact) {calls : List SnapshotCall}
    {olderCall newerCall : SnapshotCall} {older newer : Snapshot} (holder : Took calls olderCall older)
    (hnewer : Took calls newerCall newer)
    (hsource : olderCall.snapshotMeta.sourceId = newerCall.snapshotMeta.sourceId) (includeTextDiff : Bool) :
    ∃ changes summary,
      (TreeLedger.empty.commitAll calls).computeChanges git (some older.id) newer.id
          newerCall.snapshotMeta.sourceId newer.itemCount includeTextDiff = .ok (changes, summary) ∧
        IsMapDifference git.oid (itemMap olderCall.items) (itemMap newerCall.items) changes summary ∧
        summary.added + summary.modified + summary.unchanged = newer.itemCount := by
  obtain ⟨oldRoot, hfindOld, hholdsOld, -⟩ := holder.holds
  obtain ⟨newRoot, hfindNew, hholdsNew, hcount⟩ := hnewer.holds
  rw [hsource] at hholdsOld
  set sourceId := newerCall.snapshotMeta.sourceId
  have hdiff := hgit oldRoot newRoot (encodeItemId sourceId)
  set diff := git.diffTreeToTree oldRoot newRoot (encodeItemId sourceId) with hdeltas
  have hchange : ∀ delta ∈ diff, delta.oldFile ≠ delta.newFile := by
    intro delta hdelta
    have hmem := List.mem_map_of_mem (f := Delta.change) hdelta
    have hne := hdiff.exact.differs _ hmem
    rwa [← hdiff.exact.old_eq _ hmem, ← hdiff.exact.new_eq _ hmem] at hne
  obtain ⟨changes, hloop, hcore⟩ := deltaLoop_spec git diff (encodeItemId sourceId ++ "/") includeTextDiff
    hdiff.status hchange 0 [] ⟨0, 0, 0, 0⟩
  have hexact := exact_items hholdsOld hholdsNew hdiff
  have hle := countKind_le hexact hcore
  refine ⟨changes, ⟨countKind changes .added, countKind changes .removed, countKind changes .modified,
    newer.itemCount - countKind changes .added - countKind changes .modified⟩, ?_,
    isMapDifference_of_core hexact hcore _, ?_⟩
  · unfold TreeLedger.computeChanges
    rw [hfindNew]
    dsimp only [Bind.bind, Except.bind]
    rw [hfindOld]
    dsimp only
    rw [← hdeltas, hloop]
    simp only [List.nil_append, Nat.zero_add]
    rfl
  · dsimp only
    omega

/-- A repository library that compares the blobs path by path. -/
def plainGit (oid : String → String) : Git2 where
  diffTreeToTree older newer pathspec :=
    (between (((older.blobs ++ newer.blobs).map (·.1)).filter fun path =>
        (pathspec ++ "/").toList.isPrefixOf path.toList) older.blobAt newer.blobAt).map fun c =>
      ⟨c.key, statusOf c.old c.new, c.old, c.new⟩
  patch _ _ := none
  oid := oid

theorem RootTree.mem_blobs {root : RootTree} {path : String} (h : root.blobAt path ≠ none) :
    path ∈ root.blobs.map (·.1) := by
  obtain ⟨content, hcontent⟩ := Option.ne_none_iff_exists'.mp h
  obtain ⟨blob, hfind, -⟩ := Option.map_eq_some_iff.mp hcontent
  have hpath := List.find?_some hfind
  exact List.mem_map.mpr ⟨blob, List.mem_of_find?_eq_some hfind, of_decide_eq_true hpath⟩

theorem plainGit_exact (oid : String → String) : (plainGit oid).Exact := by
  intro older newer pathspec
  constructor
  · have hchange : ((plainGit oid).diffTreeToTree older newer pathspec).map Delta.change =
        between (((older.blobs ++ newer.blobs).map (·.1)).filter fun path =>
          (pathspec ++ "/").toList.isPrefixOf path.toList) older.blobAt newer.blobAt := by
      rw [plainGit, List.map_map]
      exact List.map_id _
    rw [hchange]
    apply exactOn_between
    intro path hwithin hne
    refine List.mem_filter.mpr ⟨?_, List.isPrefixOf_iff_prefix.mpr hwithin⟩
    rw [List.map_append]
    by_cases hold : older.blobAt path = none
    · exact List.mem_append_right _ (RootTree.mem_blobs fun hnew => hne (hold.trans hnew.symm))
    · exact List.mem_append_left _ (RootTree.mem_blobs hold)
  · intro delta hdelta
    obtain ⟨c, -, rfl⟩ := List.mem_map.mp hdelta
    exact Eq.refl _

/-- The object ids of three blobs. -/
def sampleOid (content : String) : String :=
  if content = "alpha" then "7e74e68b2a782a3aead46d987a63ca1c91091c13"
  else if content = "alpha v2" then "70f4c7791479454db2b280f471f75783ee8cd56f"
  else "e1d65540f4fdf72431ec47e001282cc7e8ed7c0c"

/-- A run with a snapshot of another source between two of the same. -/
def sampleCalls : List SnapshotCall :=
  [⟨⟨"notes", "folder", "Notes", .auto⟩, [("a", "alpha")], 1000⟩,
    ⟨⟨"mail", "gmail", "Mail", .auto⟩, [("a", "beta")], 1500⟩,
    ⟨⟨"notes", "folder", "Notes", .auto⟩, [("a", "alpha v2"), ("b", "beta")], 2000⟩]

theorem computeChanges_isMapDifference_notes :
    ∃ changes summary,
      (TreeLedger.empty.commitAll sampleCalls).computeChanges (plainGit sampleOid) (some 0) 2 "notes" 2 false =
          .ok (changes, summary) ∧
        IsMapDifference sampleOid (itemMap [("a", "alpha")]) (itemMap [("a", "alpha v2"), ("b", "beta")])
          changes summary ∧
        summary.added + summary.modified + summary.unchanged = 2 := by
  have holder : Took sampleCalls ⟨⟨"notes", "folder", "Notes", .auto⟩, [("a", "alpha")], 1000⟩
      ⟨0, "notes", "folder", "Notes", .auto, 1, 1000⟩ := ⟨[], _, rfl, by decide⟩
  have hnewer : Took sampleCalls
      ⟨⟨"notes", "folder", "Notes", .auto⟩, [("a", "alpha v2"), ("b", "beta")], 2000⟩
      ⟨2, "notes", "folder", "Notes", .auto, 2, 2000⟩ := ⟨[_, _], [], rfl, by decide⟩
  exact computeChanges_isMapDifference (plainGit_exact sampleOid) holder hnewer rfl false

end TinyCortex.Diff
