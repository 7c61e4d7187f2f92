import TinyCortex.TimeTree.SwapOperations

/-! The rebuild beside the other operations: what it has collected and staged is what the live tree has, until
the live tree is in the backup. -/

namespace TinyCortex.TimeTree.Swap

open Table Interleaving

/-- The leaf that was collected last for an id. -/
def lastLeaf (leaves : List Leaf) (id : NodeId) : Option Leaf :=
  leaves.reverse.find? fun leaf => leaf.node.id = id

/-- What the rebuild collected of a leaf is all that is folded into it. -/
def Taken (dir : TreeDir) (leaves : List Leaf) (id : NodeId) : Prop :=
  ∃ leaf ∈ lastLeaf leaves id, dir.foldedNames id ⊆ leaf.names

/-- Every leaf of the live tree is collected, or below a path that is still to be visited. -/
def Collected (disk : Disk) (paths : List NodeId) (leaves : List Leaf) : Prop :=
  ∀ dir ∈ disk.active, ∀ id, id.length = 4 → (readNode dir.nodes id).isSome →
    (∃ path ∈ paths, path <+: id) ∨ Taken dir leaves id

/-- The collected leaves have receipts for what is recorded. -/
def Stored (disk : Disk) (leaves : List Leaf) : Prop :=
  ∀ leaf ∈ leaves, ∀ name ∈ metadataNames leaf.node.metadata, Recorded disk leaf.node.id name

/-- The leaves are staged. -/
def HasStaged (disk : Disk) (leaves : List Leaf) : Prop :=
  ∀ id, ∀ leaf ∈ lastLeaf leaves id, ∃ staged ∈ disk.staged, staged.Holds id leaf.names

/-- Every leaf of a tree is staged with all that is folded into it. -/
def Covered (disk : Disk) (dir : TreeDir) : Prop :=
  ∀ id, id.length = 4 → (readNode dir.nodes id).isSome →
    ∃ staged ∈ disk.staged, staged.Holds id (dir.foldedNames id)

/-- What a rebuild has reached. From its own recovery to its own swap there is no backup. -/
def Rebuilding (env : RuntimeEnv) (disk : Disk) : Rebuild → Prop
  | .recovering recovery => Recovering env disk recovery ∧ recovery ≠ .startForPaths ∧
      ∀ swap ∈ recovery.swap, swap = disk.swaps
  | .counting => disk.backup = none
  | .collecting paths leaves => disk.backup = none ∧ Stored disk leaves ∧ Collected disk paths leaves
  | .preparing recovery leaves => recovery = .start ∧ disk.backup = none ∧ Stored disk leaves ∧
      Collected disk [] leaves
  | .clearing leaves => disk.backup = none ∧ Stored disk leaves ∧ Collected disk [] leaves
  | .staging todo leaves => disk.backup = none ∧ Stored disk leaves ∧ Collected disk [] leaves ∧
      ∃ done, leaves = done ++ todo ∧ HasStaged disk done
  | .propagating ids => disk.backup = none ∧ (∀ dir ∈ disk.active, Covered disk dir) ∧ ∀ id ∈ ids, id.length ≠ 4
  | .findBackup | .findActive | .moveActive => disk.backup = none ∧ ∀ dir ∈ disk.active, Covered disk dir
  | .removing => False
  | .moveStaged => disk.active = none → ∀ dir ∈ disk.backup, Covered disk dir
  | .findRollback | .rollback => True
  | .adopting recovery => Recovering env disk recovery ∧ (∀ swap ∈ recovery.swap, swap = disk.swaps) ∧
      disk.active.isSome

section Leaves

variable {env : RuntimeEnv} {disk next : Disk} {dir : TreeDir} {leaves : List Leaf} {leaf : Leaf} {id : NodeId}
  {paths : List NodeId}

theorem lastLeaf_concat_self (leaves : List Leaf) (leaf : Leaf) :
    lastLeaf (leaves ++ [leaf]) leaf.node.id = some leaf := by
  rw [lastLeaf, List.reverse_append, List.reverse_singleton, List.singleton_append]
  exact List.find?_cons_of_pos (decide_eq_true rfl)

theorem lastLeaf_concat_of_ne (h : leaf.node.id ≠ id) : lastLeaf (leaves ++ [leaf]) id = lastLeaf leaves id := by
  rw [lastLeaf, List.reverse_append, List.reverse_singleton, List.singleton_append]
  refine List.find?_cons_of_neg fun heq => ?_
  exact h (of_decide_eq_true heq)

theorem Collected.others (h : Collected disk paths leaves) (hbackup : disk.backup = none) {past : NodeId → Prop}
    (hothers : Others past disk next) (hpast : ∀ id, (∀ path ∈ paths, ¬path <+: id) → past id) :
    Collected next paths leaves := by
  intro dir hdir id hhour hsome
  by_cases hpath : ∃ path ∈ paths, path <+: id
  · exact Or.inl hpath
  · have hnone : ∀ path ∈ paths, ¬path <+: id := fun path hmem hbelow => hpath ⟨path, hmem, hbelow⟩
    obtain ⟨old, hold, hread, hfolded⟩ := hothers.leaves hbackup dir hdir id hhour (hpast id hnone) hsome
    obtain ⟨leaf, hleaf, hnames⟩ := (h old hold id hhour hread).resolve_left hpath
    refine Or.inr ⟨leaf, hleaf, fun name hname => hnames ?_⟩
    exact TreeDir.mem_foldedNames.mpr (hfolded name (TreeDir.mem_foldedNames.mp hname))

theorem covered_others (h : ∀ dir ∈ disk.active, Covered disk dir) (hbackup : disk.backup = none)
    {past : NodeId → Prop} (hothers : Others past disk next) (hpast : ∀ id, past id) :
    ∀ dir ∈ next.active, Covered next dir := by
  intro dir hdir id hhour hsome
  obtain ⟨old, hold, hread, hfolded⟩ := hothers.leaves hbackup dir hdir id hhour (hpast id) hsome
  obtain ⟨staged, hstaged, hnode, hnames⟩ := h old hold id hhour hread
  refine ⟨staged, hothers.staged.symm ▸ hstaged, hnode, fun name hname => hnames name ?_⟩
  exact TreeDir.mem_foldedNames.mpr (hfolded name (TreeDir.mem_foldedNames.mp hname))

theorem Stored.mono (h : Stored disk leaves) (hwritten : disk.written ⊆ next.written) : Stored next leaves :=
  fun leaf hleaf name hname => (h leaf hleaf name hname).mono hwritten

/-- What is collected and staged covers the live tree. -/
theorem Collected.covered (h : Collected disk [] leaves) (hstaged : HasStaged disk leaves) :
    ∀ dir ∈ disk.active, Covered disk dir := by
  intro dir hdir id hhour hsome
  rcases h dir hdir id hhour hsome with ⟨path, hpath, -⟩ | ⟨leaf, hleaf, hnames⟩
  · exact absurd hpath List.not_mem_nil
  · obtain ⟨staged, hmem, hnode, hholds⟩ := hstaged id leaf hleaf
    exact ⟨staged, hmem, hnode, fun name hname => hholds name (hnames hname)⟩

theorem Covered.holds (h : Covered disk dir) {names : List BufferName} (hhour : id.length = 4)
    (hholds : dir.Holds id names) : ∃ staged ∈ disk.staged, staged.Holds id names := by
  obtain ⟨staged, hmem, hnode, hnames⟩ := h id hhour hholds.1
  refine ⟨staged, hmem, hnode, fun name hname => hnames name ?_⟩
  exact TreeDir.mem_foldedNames.mpr (hholds.2 name hname)

end Leaves

/-- The steps of the others keep what a rebuild has reached. -/
theorem Rebuilding.others {env : RuntimeEnv} {disk next : Disk} {rebuild : Rebuild}
    (h : Rebuilding env disk rebuild) (hintact : Intact env disk) (hrely : Rely env disk next)
    (hothers : Others rebuild.Past disk next) : Rebuilding env next rebuild := by
  have hwritten := hrely.written
  cases rebuild with
  | recovering recovery =>
      obtain ⟨hrecovering, hstart, hown⟩ := h
      exact ⟨hrecovering.rely hintact hrely, hstart, hothers.swaps.symm ▸ hown⟩
  | counting => exact hothers.backup h
  | collecting paths leaves =>
      obtain ⟨hbackup, hstored, hcollected⟩ := h
      exact ⟨hothers.backup hbackup, hstored.mono hwritten, hcollected.others hbackup hothers fun _ hpath => hpath⟩
  | preparing recovery leaves =>
      obtain ⟨hstart, hbackup, hstored, hcollected⟩ := h
      exact ⟨hstart, hothers.backup hbackup, hstored.mono hwritten,
        hcollected.others hbackup hothers fun _ _ => trivial⟩
  | clearing leaves =>
      obtain ⟨hbackup, hstored, hcollected⟩ := h
      exact ⟨hothers.backup hbackup, hstored.mono hwritten, hcollected.others hbackup hothers fun _ _ => trivial⟩
  | staging todo leaves =>
      obtain ⟨hbackup, hstored, hcollected, done, hdone, hstaged⟩ := h
      refine ⟨hothers.backup hbackup, hstored.mono hwritten,
        hcollected.others hbackup hothers fun _ _ => trivial, done, hdone, ?_⟩
      intro id leaf hleaf
      rw [hothers.staged]
      exact hstaged id leaf hleaf
  | propagating ids =>
      obtain ⟨hbackup, hcovered, hids⟩ := h
      exact ⟨hothers.backup hbackup, covered_others hcovered hbackup hothers fun _ => trivial, hids⟩
  | findBackup => exact ⟨hothers.backup h.1, covered_others h.2 h.1 hothers fun _ => trivial⟩
  | removing => exact h
  | findActive => exact ⟨hothers.backup h.1, covered_others h.2 h.1 hothers fun _ => trivial⟩
  | moveActive => exact ⟨hothers.backup h.1, covered_others h.2 h.1 hothers fun _ => trivial⟩
  | moveStaged =>
      intro hnone dir hdir id hhour hsome
      obtain ⟨hactive, hbackup⟩ := hothers.swapped hnone
      rw [hothers.staged]
      exact h hactive dir (hbackup ▸ hdir) id hhour hsome
  | findRollback => trivial
  | rollback => trivial
  | adopting recovery =>
      obtain ⟨hrecovering, hown, hactive⟩ := h
      exact ⟨hrecovering.rely hintact hrely, hothers.swaps.symm ▸ hown, hrely.active hothers.swaps hactive⟩

/-! ### The steps of a rebuild -/

section Steps

variable {env : RuntimeEnv} {disk : Disk} {external : External} {rebuild : Rebuild} {leaves : List Leaf}

theorem rebuilding_goOn {next : Rebuild} (h : Rebuilding env disk next) :
    (Rebuild.goOn next).Sound env disk (Rebuilding env) := by
  refine .read (fun other hother => ?_) fun _ hother => nomatch hother
  obtain rfl := Option.some.inj hother
  exact h

theorem rebuilding_stop : Rebuild.stop.Sound env disk (Rebuilding env) :=
  .read (fun _ hother => nomatch hother) fun _ hother => nomatch hother

/-- Below a date of which a leaf is there, the listing of the date has the way to the leaf. -/
theorem exists_child {dir : TreeDir} (hsound : Sound disk dir) {path id : NodeId} (hhour : id.length = 4)
    (hsome : (readNode dir.nodes id).isSome) (hbelow : path <+: id) (hshort : path.length ≠ 4) :
    ∃ child ∈ dir.children path, child <+: id := by
  obtain ⟨node, hnode, rfl⟩ := List.mem_map.mp (readNode_isSome_iff.mp hsome)
  obtain ⟨rest, hrest⟩ := hbelow
  cases rest with
  | nil =>
      rw [List.append_nil] at hrest
      exact absurd (hrest ▸ hhour) hshort
  | cons segment rest =>
      have hchild : path ++ [segment] <+: node.id := ⟨rest, by rw [List.append_assoc, List.singleton_append, hrest]⟩
      have hdrop : (path ++ [segment]).dropLast = path := List.dropLast_concat
      refine ⟨path ++ [segment], List.mem_append.mpr ?_, hchild⟩
      cases rest with
      | nil =>
          refine Or.inr (List.mem_filter.mpr ⟨?_, decide_eq_true ⟨?_, hdrop⟩⟩)
          · exact hrest ▸ List.mem_map_of_mem hnode
          · exact hrest ▸ hhour
      | cons other rest =>
          have hne : path ++ [segment] ≠ [] := List.append_ne_nil_of_right_ne_nil _ (List.cons_ne_nil _ _)
          have habove : path ++ [segment] <+: node.id.dropLast := by
            rw [← hrest, List.dropLast_append_of_ne_nil (List.cons_ne_nil _ _)]
            rw [List.dropLast_cons_of_ne_nil (List.cons_ne_nil _ _)]
            exact ⟨(other :: rest).dropLast, by rw [List.append_assoc, List.singleton_append]⟩
          refine Or.inl (List.mem_filter.mpr ⟨?_, decide_eq_true ⟨hne, hdrop⟩⟩)
          exact hsound.closed _ (hsound.dirs node hnode hhour) _ habove hne

/-- One path: a leaf is read, or a date is listed. -/
theorem Rebuilding.collect {path : NodeId} {paths : List NodeId} (hintact : Intact env disk)
    (hbackup : disk.backup = none) (hstored : Stored disk leaves)
    (hcollected : Collected disk (path :: paths) leaves) :
    (Rebuild.collect disk path paths leaves).Sound env disk (Rebuilding env) := by
  unfold Rebuild.collect
  by_cases hleaf : path.length = 4
  · rw [if_pos hleaf]
    cases hread : readNode disk.activeNodes path with
    | none => exact rebuilding_stop
    | some node =>
        obtain ⟨hid, -⟩ := readNode_some hread
        refine rebuilding_goOn ⟨hbackup, fun leaf hmem => ?_, fun dir hdir id hhour hsome => ?_⟩
        · rcases List.mem_append.mp hmem with hold | hnew
          · exact hstored leaf hold
          · rw [List.mem_singleton.mp hnew]
            intro name hname
            rw [hid]
            exact hintact.recorded_of_readNode hread hname
        · by_cases heq : path = id
          · subst heq
            refine Or.inr ⟨⟨node, disk.activeFolded path⟩, ?_, ?_⟩
            · have hlast := lastLeaf_concat_self leaves ⟨node, disk.activeFolded path⟩
              rwa [hid] at hlast
            · rw [Disk.activeFolded, show disk.active = some dir from hdir]
              exact List.Subset.refl _
          · rcases hcollected dir hdir id hhour hsome with ⟨other, hother, hbelow⟩ | ⟨leaf, hlast, hnames⟩
            · rcases List.mem_cons.mp hother with rfl | hlater
              · exact absurd (hbelow.eq_of_length (hleaf.trans hhour.symm)) heq
              · exact Or.inl ⟨other, hlater, hbelow⟩
            · refine Or.inr ⟨leaf, ?_, hnames⟩
              rw [lastLeaf_concat_of_ne fun hsame => heq (hid.symm.trans hsame)]
              exact hlast
  · rw [if_neg hleaf]
    cases hactive : disk.active with
    | none =>
        refine rebuilding_goOn ⟨hbackup, hstored, fun dir hdir => ?_⟩
        rw [hactive] at hdir
        cases hdir
    | some live =>
        refine rebuilding_goOn ⟨hbackup, hstored, fun dir hdir id hhour hsome => ?_⟩
        obtain rfl := Option.some.inj (hactive.symm.trans hdir)
        refine (hcollected live hactive id hhour hsome).imp_left ?_
        rintro ⟨other, hother, hbelow⟩
        rcases List.mem_cons.mp hother with rfl | hlater
        · obtain ⟨child, hchild, hunder⟩ := exists_child (hintact.active live hactive) hhour hsome hbelow hleaf
          exact ⟨child, List.mem_append_left _ hchild, hunder⟩
        · exact ⟨other, List.mem_append_right _ hlater, hbelow⟩

theorem rebuildIds_length {id : NodeId} (h : id ∈ rebuildIds leaves) : id.length ≠ 4 := by
  have hlevel : ∀ n, n < 4 → id ∈ ((leaves.map fun leaf => leaf.node.id.take n).eraseDups).insertionSort
      (fun a b : NodeId => NodeId.render a ≤ NodeId.render b) → id.length ≠ 4 := by
    intro n hn hmem
    rw [List.mem_insertionSort, List.mem_eraseDups] at hmem
    obtain ⟨leaf, -, rfl⟩ := List.mem_map.mp hmem
    have hlength := List.length_take_le n leaf.node.id
    omega
  rw [rebuildIds] at h
  rcases List.mem_append.mp h with h | h
  · exact hlevel 3 (by decide) h
  · rcases List.mem_append.mp h with h | h
    · exact hlevel 2 (by decide) h
    · rcases List.mem_append.mp h with h | h
      · exact hlevel 1 (by decide) h
      · rw [List.mem_singleton.mp h]
        decide

/-- A leaf is staged beside those that are. -/
theorem Rebuilding.stage {leaf : Leaf} {todo : List Leaf}
    (h : Rebuilding env disk (.staging (leaf :: todo) leaves)) :
    Turn.Sound env disk (Rebuilding env)
      ⟨.stageNode leaf.node leaf.names, some (.staging todo leaves), none⟩ := by
  obtain ⟨hbackup, hstored, hcollected, done, hdone, hstaged⟩ := h
  have hmem : leaf ∈ leaves := hdone ▸ List.mem_append_right _ List.mem_cons_self
  refine ⟨hstored leaf hmem, fun next hnext other hother => ?_, fun _ hother => nomatch hother⟩
  obtain rfl := Option.some.inj hother
  obtain rfl := Option.some.inj hnext
  refine ⟨hbackup, hstored, hcollected, done ++ [leaf], ?_, fun id found hfound => ⟨_, rfl, ?_⟩⟩
  · rw [hdone, List.append_assoc, List.singleton_append]
  · by_cases heq : leaf.node.id = id
    · rw [← heq, lastLeaf_concat_self] at hfound
      obtain rfl := Option.some.inj hfound
      exact heq ▸ TreeDir.holds_save_self _ leaf.node leaf.names
    · rw [lastLeaf_concat_of_ne heq] at hfound
      obtain ⟨staged, hold, hholds⟩ := hstaged id found hfound
      rw [show disk.staged = some staged from hold]
      have hmade : (staged.makeDirs (nodeDir leaf.node.id)).Holds id found.names := hholds
      exact hmade.save fun hsame => absurd hsame heq

/-- A summary is staged beside the leaves. -/
theorem Rebuilding.propagate {id : NodeId} {ids : List NodeId}
    (h : Rebuilding env disk (.propagating (id :: ids))) :
    (Rebuild.propagate env external disk id ids).Sound env disk (Rebuilding env) := by
  obtain ⟨hbackup, hcovered, hids⟩ := h
  have hrest : ∀ other ∈ ids, other.length ≠ 4 := fun other hother => hids other (List.mem_cons_of_mem _ hother)
  have hnext : ∀ other ∈ some (Rebuild.propagating ids), Rebuilding env disk other := by
    intro other hother
    obtain rfl := Option.some.inj hother
    exact ⟨hbackup, hcovered, hrest⟩
  unfold Rebuild.propagate
  dsimp only
  split
  · exact .read hnext hnext
  · exact .read hnext hnext
  · rename_i node hnode
    obtain ⟨hid, hmetadata⟩ := propagatedNode_some hnode
    have hlegal : Legal env disk (.stageNode node []) := by
      intro name hname
      rw [hmetadata] at hname
      exact absurd hname List.not_mem_nil
    refine ⟨hlegal, fun next hperform other hother => ?_, hnext⟩
    obtain rfl := Option.some.inj hother
    obtain rfl := Option.some.inj hperform
    refine ⟨hbackup, fun dir hdir leaf hhour hsome => ⟨_, rfl, ?_⟩, hrest⟩
    obtain ⟨staged, hstaged, hholds⟩ := hcovered dir hdir leaf hhour hsome
    rw [show disk.staged = some staged from hstaged]
    have hmade : (staged.makeDirs (nodeDir node.id)).Holds leaf (dir.foldedNames leaf) := hholds
    refine hmade.save fun hsame => ?_
    have hshort := hids id List.mem_cons_self
    rw [← hid, hsame] at hshort
    exact absurd hhour hshort

theorem createBuffer_of_turn {recovery : Recovery} {part : Option Part}
    (h : (recovery.turn disk part).1 = .createBuffer) : ∃ swap, recovery = .createBuffer swap := by
  cases recovery with
  | createBuffer swap => exact ⟨swap, rfl⟩
  | adopt swap names =>
      cases names with
      | nil => cases h
      | cons name names => cases h
  | remove swap =>
      cases part with
      | none => cases h
      | some part => cases h
  | _ => cases h

/-- A step of a recovery that the rebuild runs itself: no swap comes between. -/
theorem Recovering.own {recovery : Recovery} (h : Recovering env disk recovery) (hintact : Intact env disk)
    (hlive : recovery = .startForPaths → disk.active.isSome) (hown : ∀ swap ∈ recovery.swap, swap = disk.swaps)
    {continued : Recovery → Rebuild} {done : Option Rebuild}
    (hmore : ∀ next more, Rely env disk next → next.swaps = disk.swaps → Recovering env next more →
      more ≠ .startForPaths → (∀ swap ∈ more.swap, swap = next.swaps) → Rebuilding env next (continued more))
    (hdone : ∀ next, Rely env disk next → next.backup = none → ∀ op ∈ done, Rebuilding env next op) :
    (recovery.within disk external.part continued done).Sound env disk (Rebuilding env) := by
  refine (h.within hintact hlive (fun swap heq => ?_) external.part (fun heq => ?_)
    (fun next more hrely hswaps hagain hstart hswap => ?_) hdone).1
  · subst heq
    exact hown swap rfl
  · obtain ⟨swap, rfl⟩ := createBuffer_of_turn heq
    exact Or.inl (h.active (congrArg some (hown swap rfl)))
  · refine hmore next more hrely hswaps hagain hstart fun swap hmem => ?_
    rw [hswaps]
    exact (hswap swap hmem).elim id (hown swap)

theorem Rebuilding.turn (h : Rebuilding env disk rebuild) (hintact : Intact env disk) (external : External) :
    (rebuild.turn env external disk).Sound env disk (Rebuilding env) := by
  cases rebuild with
  | recovering recovery =>
      obtain ⟨hrecovering, hstart, hown⟩ := h
      refine hrecovering.own hintact (fun heq => absurd heq hstart) hown
        (fun next more _ _ hagain hnot hswap => ⟨hagain, hnot, hswap⟩) fun next _ hbackup other hother => ?_
      obtain rfl := Option.some.inj hother
      exact hbackup
  | counting =>
      rw [Rebuild.turn]
      split_ifs
      · exact rebuilding_stop
      · refine rebuilding_goOn ⟨h, fun _ hleaf => absurd hleaf List.not_mem_nil, fun dir hdir id hhour hsome => ?_⟩
        exact Or.inl ⟨[], List.mem_cons_self, List.nil_prefix⟩
  | collecting paths leaves =>
      cases paths with
      | nil =>
          rw [Rebuild.turn]
          split_ifs
          · exact rebuilding_stop
          · exact rebuilding_goOn ⟨rfl, h⟩
      | cons path paths =>
          obtain ⟨hbackup, hstored, hcollected⟩ := h
          exact Rebuilding.collect hintact hbackup hstored hcollected
  | preparing recovery leaves =>
      obtain ⟨rfl, hbackup, hstored, hcollected⟩ := h
      have hturn : Rebuild.turn env external disk (.preparing .start leaves) =
          Rebuild.goOn (.clearing leaves) := by
        rw [Rebuild.turn, Recovery.within, Recovery.turn, hbackup]
        rfl
      rw [hturn]
      exact rebuilding_goOn ⟨hbackup, hstored, hcollected⟩
  | clearing leaves =>
      obtain ⟨hbackup, hstored, hcollected⟩ := h
      refine ⟨trivial, fun next hnext other hother => ?_, fun _ hother => by cases hother⟩
      obtain rfl := Option.some.inj hother
      obtain rfl := Option.some.inj hnext
      exact ⟨hbackup, hstored, hcollected, [], rfl, fun _ _ hleaf => by cases hleaf⟩
  | staging todo leaves =>
      cases todo with
      | nil =>
          obtain ⟨hbackup, -, hcollected, done, hdone, hstaged⟩ := h
          rw [List.append_nil] at hdone
          exact rebuilding_goOn ⟨hbackup, hcollected.covered (hdone ▸ hstaged), fun _ => rebuildIds_length⟩
      | cons leaf todo => exact Rebuilding.stage h
  | propagating ids =>
      cases ids with
      | nil => exact rebuilding_goOn ⟨h.1, h.2.1⟩
      | cons id ids => exact Rebuilding.propagate h
  | findBackup =>
      rw [Rebuild.turn, if_pos (Option.isNone_iff_eq_none.mpr h.1)]
      exact rebuilding_goOn h
  | removing => exact h.elim
  | findActive =>
      rw [Rebuild.turn]
      refine rebuilding_goOn ?_
      split_ifs
      · exact h
      · intro _ dir hdir
        rw [h.1] at hdir
        cases hdir
  | moveActive =>
      obtain ⟨hbackup, hcovered⟩ := h
      refine ⟨hbackup, fun next hnext other hother => ?_, fun _ hother => by cases hother⟩
      obtain rfl := Option.some.inj hother
      obtain ⟨dir, hactive, hnext⟩ := Option.bind_eq_some_iff.mp hnext
      split_ifs at hnext
      obtain rfl := Option.some.inj hnext
      intro _ old hold
      obtain rfl := Option.some.inj hold
      exact hcovered dir hactive
  | moveStaged =>
      refine ⟨fun hnone backup hbackup staged hstaged id names hhour hholds => ?_, fun next hnext other hother => ?_,
        fun other hother => ?_⟩
      · obtain ⟨found, hfound, hin⟩ := (h hnone backup hbackup).holds hhour hholds
        obtain rfl := Option.some.inj (hstaged.symm.trans hfound)
        exact hin
      · obtain rfl := Option.some.inj hother
        obtain ⟨dir, hstaged, hnext⟩ := Option.bind_eq_some_iff.mp hnext
        split_ifs at hnext
        obtain rfl := Option.some.inj hnext
        exact ⟨recovering_of_swap_none rfl, fun _ hswap => (by cases hswap), rfl⟩
      · obtain rfl := Option.some.inj hother
        trivial
  | findRollback =>
      rw [Rebuild.turn]
      split_ifs
      · exact rebuilding_goOn trivial
      · exact rebuilding_stop
  | rollback => exact ⟨trivial, fun _ _ _ hother => (by cases hother), fun _ hother => by cases hother⟩
  | adopting recovery =>
      obtain ⟨hrecovering, hown, hactive⟩ := h
      refine hrecovering.own hintact (fun _ => hactive) hown (fun next more hrely hswaps hagain _ hswap => ?_)
        fun _ _ _ _ hother => by cases hother
      exact ⟨hagain, hswap, hrely.active hswaps hactive⟩

end Steps

/-! ### All operations -/

/-- The files are intact, and every operation has reached what its phase says. -/
structure Running (env : RuntimeEnv) (s : System) : Prop where
  disk : Intact env s.disk
  runs : ∀ op ∈ s.runs, Summarising env s.disk op
  rebuild : ∀ op ∈ s.rebuild, Rebuilding env s.disk op

section System

variable {env : RuntimeEnv} {s : System} {disk : Disk} {labels : List Label}

theorem running_empty (env : RuntimeEnv) : Running env .empty :=
  ⟨⟨List.nodup_nil, fun _ h => (nomatch h), fun _ h => (nomatch h), fun _ h => (nomatch h),
    fun _ h => absurd h List.not_mem_nil, fun _ h => absurd h List.not_mem_nil,
    fun _ h => absurd h List.not_mem_nil⟩, fun _ h => absurd h List.not_mem_nil, fun _ h => (nomatch h)⟩

theorem summarising_stable (env : RuntimeEnv) :
    Stable (fun disk next => Intact env disk ∧ Rely env disk next) (Summarising env) :=
  fun _ _ _ hrely h => h.rely hrely.1 hrely.2

theorem Turn.others {τ : Type} {turn : Turn τ} {past : NodeId → Prop} {rebuild : Option Rebuild}
    (hpast : ∀ id, past id → ∃ op ∈ rebuild, op.Past id) (hshared : Shared turn.action)
    (hlegal : Legal env disk turn.action) (hundisturbed : Undisturbed disk rebuild turn.action) (fails : Bool) :
    Others past disk (turn.take fails disk).1 := by
  rw [Turn.take]
  split_ifs
  · exact Others.refl past disk
  · cases hnext : disk.perform turn.action with
    | none => exact Others.refl past disk
    | some next => exact others_perform hpast hshared hlegal hundisturbed hnext

/-- What a rebuild has reached, after a step of another operation. -/
theorem Running.others (h : Running env s) {τ : Type} {turn : Turn τ} (hshared : Shared turn.action)
    (hlegal : Legal env s.disk turn.action) (hundisturbed : Undisturbed s.disk s.rebuild turn.action) (fails : Bool)
    (hrely : Rely env s.disk (turn.take fails s.disk).1) :
    ∀ op ∈ s.rebuild, Rebuilding env (turn.take fails s.disk).1 op := by
  intro op hop
  refine (h.rebuild op hop).others h.disk hrely ?_
  exact Turn.others (fun id hpast => ⟨op, hop, hpast⟩) hshared hlegal hundisturbed fails

theorem BufferWrite.sound (env : RuntimeEnv) {op : BufferWrite} {external : External} {rebuild : Option Rebuild}
    (hfresh : Fresh disk (op.turn external).action) (hundisturbed : Undisturbed disk rebuild (op.turn external).action) :
    (op.turn external).Sound env disk (fun _ _ => True) ∧ Shared (op.turn external).action := by
  cases op with
  | createDir millis content => exact ⟨⟨hundisturbed, fun _ _ _ _ => trivial, fun _ _ => trivial⟩, trivial⟩
  | writeEntry millis content => exact ⟨⟨hfresh, fun _ _ _ _ => trivial, fun _ _ => trivial⟩, trivial⟩

theorem Running.step (h : Running env s) {label : Label} (hnames : Names s label) (hapart : Apart env s label) :
    Running env (step env s label) := by
  cases label with
  | startRebuild =>
      refine ⟨h.disk, h.runs, fun op hop => ?_⟩
      change s.rebuild.or (some (.recovering .start)) = some op at hop
      cases hrebuild : s.rebuild with
      | none =>
          rw [hrebuild] at hop
          obtain rfl := Option.some.inj hop
          exact ⟨recovering_of_swap_none rfl, Recovery.noConfusion, fun _ hswap => nomatch hswap⟩
      | some rebuild =>
          rw [hrebuild] at hop
          obtain rfl := Option.some.inj hop
          exact h.rebuild rebuild hrebuild
  | startRun =>
      refine ⟨h.disk, fun op hop => ?_, h.rebuild⟩
      rcases List.mem_append.mp hop with hold | hnew
      · exact h.runs op hold
      · rw [List.mem_singleton.mp hnew]
        exact ⟨List.nil_subset _, recovering_of_swap_none rfl, Recovery.noConfusion⟩
  | startWrite millis content => exact ⟨h.disk, h.runs, h.rebuild⟩
  | rebuild external =>
      rw [Swap.step]
      split
      · exact h
      · rename_i rebuild hrebuild
        have hsound := (h.rebuild rebuild hrebuild).turn h.disk external
        obtain ⟨hintact, hrely, hnext⟩ := hsound.take h.disk external.fails
        exact ⟨hintact, forall_of_stable (summarising_stable env) ⟨h.disk, hrely⟩ h.runs, hnext⟩
  | run i external =>
      rw [Swap.step]
      split
      · exact h
      · rename_i op hop
        obtain ⟨hundisturbed, hdeletes⟩ := hapart op hop
        have hsound := (h.runs op (List.mem_of_getElem? hop)).turn h.disk hundisturbed hdeletes
        obtain ⟨hintact, hrely, hnext⟩ := hsound.take h.disk external.fails
        refine ⟨hintact, forall_replace (summarising_stable env) ⟨h.disk, hrely⟩ h.runs hnext, ?_⟩
        exact h.others (Summarisation.shared_turn env external s.disk op) hsound.legal hundisturbed _ hrely
  | write i external =>
      rw [Swap.step]
      split
      · exact h
      · rename_i op hop
        obtain ⟨hsound, hshared⟩ := BufferWrite.sound env (hnames op hop) (hapart op hop)
        obtain ⟨hintact, hrely, -⟩ := hsound.take h.disk external.fails
        refine ⟨hintact, forall_of_stable (summarising_stable env) ⟨h.disk, hrely⟩ h.runs, ?_⟩
        exact h.others hshared hsound.legal (hapart op hop) _ hrely
  | crash => exact ⟨h.disk, fun _ hop => absurd hop List.not_mem_nil, fun _ hop => nomatch hop⟩

/-- A recovery leaves the tree live. -/
theorem recovered_of_tree {id : NodeId} {names : List BufferName} (h : ∃ dir ∈ disk.tree, dir.Holds id names) :
    Recovered disk id names := by
  obtain ⟨dir, hdir, hholds⟩ := h
  rw [Recovered, Disk.recoverInterruptedSwap]
  cases hbackup : disk.backup with
  | none =>
      rw [Disk.tree, hbackup, Option.or_none] at hdir
      exact ⟨dir, hdir, hholds⟩
  | some backup =>
      cases hactive : disk.active with
      | none =>
          rw [Disk.tree, hbackup, hactive] at hdir
          exact ⟨dir, hdir, hholds⟩
      | some active =>
          rw [Disk.tree, hactive] at hdir
          obtain rfl := Option.some.inj hdir
          exact ⟨_, rfl, hholds⟩

theorem Running.kept (h : Running env s) : Kept env s.disk := by
  refine ⟨fun entry hentry => ?_, fun leaf hleaf => recovered_of_tree (h.disk.leaves leaf hleaf)⟩
  rcases h.disk.entries entry hentry with (hlive | ⟨names, hmem, hname⟩) | hbackup
  · exact Or.inl hlive
  · refine Or.inr (Or.inr (recovered_of_tree ?_))
    obtain ⟨dir, hdir, hread, hholds⟩ := h.disk.leaves _ hmem
    refine ⟨dir, hdir, hread, fun other hother => ?_⟩
    rw [List.mem_singleton.mp hother]
    exact hholds entry.name hname
  · exact Or.inr (Or.inl hbackup)

/-- In every run of operations that keep out of each other's way, with errors and crashes anywhere, no entry
and no leaf is lost. -/
theorem kept_run (env : RuntimeEnv) (labels : List Label) (hnames : (machine env).AllSteps Names labels)
    (hapart : (machine env).AllSteps (Apart env) labels) :
    (machine env).Throughout (fun s => Kept env s.disk) labels := by
  have hboth : (machine env).AllSteps (fun s label => Names s label ∧ Apart env s label) labels :=
    fun done label rest heq => ⟨hnames done label rest heq, hapart done label rest heq⟩
  have hstep : ∀ s label, Running env s → Names s label ∧ Apart env s label →
      Running env ((machine env).step s label) := fun s label h hok => h.step hok.1 hok.2
  exact (machine env).throughout_of_steps (running_empty env) hstep (fun s h => h.kept) hboth

end System

/-- A day of hours, whose texts are all short. -/
def dayEnv : RuntimeEnv := ⟨fun millis => ⟨2024, 3, 15, (millis / 3600000).toNat⟩, fun _ => 1, fun _ => 100⟩

/-- What a step takes from outside when all goes well. -/
def external (uuid : String) : External := ⟨uuid, some "summary", 7, none, false⟩

def runSteps (n : Nat) : List Label := List.replicate n (.run 0 (external "a"))

def rebuildSteps (n : Nat) : List Label := List.replicate n (.rebuild (external "a"))

/-- An entry is buffered and folded into the leaf of its hour. -/
def oneLeaf : List Label :=
  [.startWrite 0 "one", .write 0 (external "a"), .write 0 (external "a"), .startRun] ++ runSteps 27

/-- A write to the buffer comes while a rebuild stages the tree, and the swap takes it along. -/
def writeWhileStaging : List Label :=
  oneLeaf ++ [.startRebuild] ++ rebuildSteps 12 ++
    [.startWrite 1 "two", .write 0 (external "b"), .write 0 (external "b")] ++ rebuildSteps 18

theorem kept_run_writeWhileStaging :
    (machine dayEnv).Throughout (fun s => Kept dayEnv s.disk) writeWhileStaging := by
  refine kept_run dayEnv writeWhileStaging ?_ ?_
  · exact (Machine.allSteps_iff_stepsFrom _).mpr (by decide +kernel)
  · exact (Machine.allSteps_iff_stepsFrom _).mpr (by decide +kernel)

/-- A write to the buffer comes between the two renames of a swap, and then a summarisation starts. -/
def writeWhileSwapping : List Label :=
  oneLeaf ++ [.startRebuild] ++ rebuildSteps 20 ++ [.startWrite 1 "two", .write 0 (external "b")] ++
    rebuildSteps 2 ++ [.write 0 (external "b"), .startRun] ++ runSteps 7

theorem writeWhileSwapping_losesLeaf :
    ¬∀ env labels, (machine env).AllSteps Names labels →
      (machine env).Throughout (fun s => Kept env s.disk) labels := by
  intro hall
  have hnames : (machine dayEnv).AllSteps Names writeWhileSwapping :=
    (Machine.allSteps_iff_stepsFrom _).mpr (by decide +kernel)
  have hkept := hall dayEnv writeWhileSwapping hnames writeWhileSwapping List.prefix_rfl
  have hwritten : ([2024, 3, 15, 0], [⟨0, "a"⟩]) ∈ ((machine dayEnv).run writeWhileSwapping).disk.written := by
    decide +kernel
  obtain ⟨dir, hdir, hread, -⟩ := hkept.leaves _ hwritten
  have hlost : (((machine dayEnv).run writeWhileSwapping).disk.recoverInterruptedSwap.active.all fun dir =>
      (readNode dir.nodes [2024, 3, 15, 0]).isNone) = true := by decide +kernel
  have hnone := (Option.all_eq_true _ _).mp hlost dir hdir
  rw [Option.isNone_iff_eq_none.mp hnone] at hread
  cases hread

end TinyCortex.TimeTree.Swap
