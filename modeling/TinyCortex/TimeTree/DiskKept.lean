import TinyCortex.TimeTree.Disk

/-! What the file operations keep: every entry and every leaf of the history, as long as each operation is
done where it is harmless. -/

namespace TinyCortex.TimeTree

open Table

namespace TreeDir

variable {dir : TreeDir} {id path : NodeId} {name : BufferName} {names more : List BufferName} {entry : Entry}
  {node : TreeNode} {part : Part}

theorem mem_foldedNames : name ∈ dir.foldedNames id ↔ (id, name) ∈ dir.folded := by
  rw [foldedNames, List.mem_map]
  constructor
  · rintro ⟨⟨found, other⟩, hmem, rfl⟩
    obtain ⟨hpair, hid⟩ := List.mem_filter.mp hmem
    obtain rfl := of_decide_eq_true hid
    exact hpair
  · exact fun hmem => ⟨(id, name), List.mem_filter.mpr ⟨hmem, decide_eq_true rfl⟩, rfl⟩

theorem not_holds_of_vacant (h : dir.Vacant) : ¬dir.Holds id names := by
  intro hholds
  obtain ⟨-, -, hnodes⟩ := h
  have hmem := readNode_isSome_iff.mp hholds.1
  rw [List.isEmpty_iff.mp hnodes] at hmem
  exact List.not_mem_nil hmem

theorem entries_of_vacant (h : dir.Vacant) : dir.entries = [] := by
  rw [entries, Option.isNone_iff_eq_none.mp h.1]
  rfl

theorem mem_entries_deleteEntry :
    entry ∈ (dir.deleteEntry name).entries ↔ entry ∈ dir.entries ∧ entry.name ≠ name := by
  rw [entries, deleteEntry, entries]
  cases dir.buffer with
  | none => simp only [Option.map_none, Option.getD_none, List.not_mem_nil, false_and]
  | some entries => simp only [Option.map_some, Option.getD_some, List.mem_filter, decide_eq_true_eq]

theorem mem_dirs_makeDirs : id ∈ (dir.makeDirs path).dirs ↔ id ∈ dir.dirs ∨ (id <+: path ∧ id ≠ []) := by
  rw [makeDirs]
  simp only [List.mem_append, List.mem_filter, List.mem_inits, decide_eq_true_eq]
  by_cases h : id ∈ dir.dirs
  · simp only [h, true_or]
  · simp only [h, false_or, not_false_eq_true, and_true]

/-- A save writes the leaf, with these entries. -/
theorem holds_save_self (dir : TreeDir) (node : TreeNode) (names : List BufferName) :
    (dir.save node names).Holds node.id names := by
  constructor
  · rw [save, readNode_writeNode_self]
    rfl
  · exact fun name hname => List.mem_append_right _ (List.mem_map_of_mem hname)

/-- What a save keeps of the other leaves, and of its own. -/
theorem Holds.save (h : dir.Holds id names) (hseen : node.id = id → dir.foldedNames id ⊆ more) :
    (dir.save node more).Holds id names := by
  refine ⟨readNode_isSome_writeNode node h.1, fun name hname => ?_⟩
  have hfolded := h.2 name hname
  by_cases heq : node.id = id
  · have hmore := hseen heq (mem_foldedNames.mpr hfolded)
    exact List.mem_append_right _ (heq ▸ List.mem_map_of_mem hmore)
  · refine List.mem_append_left _ (List.mem_filter.mpr ⟨hfolded, decide_eq_true ?_⟩)
    exact fun hid => heq hid.symm

theorem remove_entries_subset (dir : TreeDir) (part : Part) : (dir.remove part).entries ⊆ dir.entries := by
  intro entry hentry
  cases part with
  | entry name => exact (mem_entries_deleteEntry.mp hentry).1
  | node id => exact hentry
  | buffer =>
      rw [remove] at hentry
      split_ifs at hentry
      · exact absurd hentry List.not_mem_nil
      · exact hentry
  | dir path =>
      rw [remove] at hentry
      split_ifs at hentry
      · exact hentry
      · exact hentry

end TreeDir

/-- A save wrote the leaf with the entry folded in it. -/
def Recorded (disk : Disk) (id : NodeId) (name : BufferName) : Prop :=
  ∃ names, (id, names) ∈ disk.written ∧ name ∈ names

/-- The entry is folded into the leaf of its hour. -/
def RecordedEntry (env : RuntimeEnv) (disk : Disk) (entry : Entry) : Prop :=
  Recorded disk (env.hourOf entry.name.millis).id entry.name

/-- The entry needs no backup. -/
def Safe (env : RuntimeEnv) (disk : Disk) (entry : Entry) : Prop :=
  entry ∈ disk.activeEntries ∨ RecordedEntry env disk entry

/-- A directory has entries from the history, receipts for what is folded, and a directory for each date. -/
structure Sound (disk : Disk) (dir : TreeDir) : Prop where
  entries : dir.entries ⊆ disk.buffered
  metadata : ∀ node ∈ dir.nodes, ∀ name ∈ metadataNames node.metadata, Recorded disk node.id name
  dirs : ∀ node ∈ dir.nodes, node.id.length = 4 → node.id.dropLast ∈ dir.dirs
  closed : ∀ path ∈ dir.dirs, ∀ above, above <+: path → above ≠ [] → above ∈ dir.dirs

section Sound

variable {env : RuntimeEnv} {disk next : Disk} {dir : TreeDir} {id path : NodeId} {node : TreeNode}
  {name : BufferName} {names : List BufferName} {entry : Entry}

theorem Recorded.mono (hwritten : disk.written ⊆ next.written) (h : Recorded disk id name) :
    Recorded next id name := by
  obtain ⟨names, hmem, hname⟩ := h
  exact ⟨names, hwritten hmem, hname⟩

theorem Sound.mono (h : Sound disk dir) (hbuffered : disk.buffered ⊆ next.buffered)
    (hwritten : disk.written ⊆ next.written) : Sound next dir :=
  ⟨List.Subset.trans h.entries hbuffered,
    fun node hnode name hname => (h.metadata node hnode name hname).mono hwritten, h.dirs, h.closed⟩

theorem sound_empty (disk : Disk) : Sound disk .empty :=
  ⟨List.nil_subset _, fun _ h => absurd h List.not_mem_nil, fun _ h => absurd h List.not_mem_nil,
    fun _ h => absurd h List.not_mem_nil⟩

theorem Sound.setBuffer (h : Sound disk dir) {buffer : Option (List Entry)}
    (hbuffer : buffer.getD [] ⊆ disk.buffered) : Sound disk { dir with buffer := buffer } :=
  ⟨hbuffer, h.metadata, h.dirs, h.closed⟩

theorem Sound.deleteEntry (h : Sound disk dir) (name : BufferName) : Sound disk (dir.deleteEntry name) := by
  refine ⟨fun entry hentry => ?_, h.metadata, h.dirs, h.closed⟩
  exact h.entries (TreeDir.mem_entries_deleteEntry.mp hentry).1

theorem Sound.makeDirs (h : Sound disk dir) (path : NodeId) : Sound disk (dir.makeDirs path) := by
  refine ⟨h.entries, h.metadata, fun node hnode hhour => ?_, fun below hbelow above habove hne => ?_⟩
  · exact TreeDir.mem_dirs_makeDirs.mpr (Or.inl (h.dirs node hnode hhour))
  · apply TreeDir.mem_dirs_makeDirs.mpr
    rcases TreeDir.mem_dirs_makeDirs.mp hbelow with hmem | ⟨hpath, -⟩
    · exact Or.inl (h.closed below hmem above habove hne)
    · exact Or.inr ⟨habove.trans hpath, hne⟩

/-- The directory of a leaf is never the tree itself. -/
theorem nodeDir_hour (hhour : id.length = 4) : nodeDir id = id.dropLast ∧ id.dropLast ≠ [] := by
  refine ⟨if_pos hhour, fun hnil => ?_⟩
  have hlength : id.dropLast.length = id.length - 1 := List.length_dropLast
  rw [hnil, hhour] at hlength
  cases hlength

theorem Sound.save (h : Sound disk dir) (hdir : nodeDir node.id = [] ∨ nodeDir node.id ∈ dir.dirs)
    (hmetadata : ∀ name ∈ metadataNames node.metadata, Recorded disk node.id name) :
    Sound disk (dir.save node names) := by
  refine ⟨h.entries, fun other hother => ?_, fun other hother hhour => ?_, h.closed⟩
  · rcases mem_upsert hother with rfl | hold
    · exact hmetadata
    · exact h.metadata other hold
  · rcases mem_upsert hother with rfl | hold
    · obtain ⟨heq, hne⟩ := nodeDir_hour hhour
      rw [heq] at hdir
      exact hdir.resolve_left hne
    · exact h.dirs other hold hhour

theorem Sound.remove (h : Sound disk dir) (part : Part) : Sound disk (dir.remove part) := by
  cases part with
  | entry name => exact h.deleteEntry name
  | node id =>
      refine ⟨h.entries, fun node hnode => ?_, fun node hnode => ?_, h.closed⟩
      · exact h.metadata node (List.mem_filter.mp hnode).1
      · exact h.dirs node (List.mem_filter.mp hnode).1
  | buffer =>
      rw [TreeDir.remove]
      split_ifs
      · exact h.setBuffer (List.nil_subset _)
      · exact h
  | dir path =>
      rw [TreeDir.remove]
      split_ifs with hvacant
      · obtain ⟨hnodes, hdirs⟩ := hvacant
        refine ⟨h.entries, h.metadata, fun node hnode hhour => ?_, fun below hbelow above habove hne => ?_⟩
        · refine List.mem_filter.mpr ⟨h.dirs node hnode hhour, decide_eq_true fun heq => ?_⟩
          exact hnodes node hnode (heq ▸ List.dropLast_prefix node.id)
        · obtain ⟨hmem, hkept⟩ := List.mem_filter.mp hbelow
          refine List.mem_filter.mpr ⟨h.closed below hmem above habove hne, decide_eq_true fun heq => ?_⟩
          exact of_decide_eq_true hkept (hdirs below hmem (heq ▸ habove))
      · exact h

end Sound

/-- The tree that a recovery leaves live. -/
def Disk.tree (disk : Disk) : Option TreeDir := disk.active.or disk.backup

/-- Every entry and every leaf of the history is there. -/
structure Intact (env : RuntimeEnv) (disk : Disk) : Prop where
  names : (disk.buffered.map Entry.name).Nodup
  active : ∀ dir ∈ disk.active, Sound disk dir
  backup : ∀ dir ∈ disk.backup, Sound disk dir
  staged : ∀ dir ∈ disk.staged, Sound disk dir
  hours : ∀ leaf ∈ disk.written, leaf.1.length = 4
  leaves : ∀ leaf ∈ disk.written, ∃ dir ∈ disk.tree, dir.Holds leaf.1 leaf.2
  entries : ∀ entry ∈ disk.buffered, Safe env disk entry ∨ entry ∈ disk.backupEntries

/-- Where an operation is harmless. -/
def Legal (env : RuntimeEnv) (disk : Disk) : Action → Prop
  | .createBuffer | .createDirs _ => disk.active.isSome ∨ disk.backup.isNone
  | .writeEntry entry => entry.name ∉ disk.buffered.map Entry.name
  | .saveNode node names =>
      (node.id.length = 4 → disk.activeFolded node.id ⊆ names) ∧
        ∀ name ∈ metadataNames node.metadata,
          (node.id.length = 4 ∧ name ∈ names) ∨ Recorded disk node.id name
  | .deleteEntry name => ∀ entry ∈ disk.buffered, entry.name = name → RecordedEntry env disk entry
  | .removePart _ | .removeBackup => disk.active.isSome ∧ ∀ entry ∈ disk.backupEntries, Safe env disk entry
  | .stageNode node _ => ∀ name ∈ metadataNames node.metadata, Recorded disk node.id name
  | .moveActive => disk.backup = none
  | .moveStaged => disk.active = none → ∀ backup ∈ disk.backup, ∀ staged ∈ disk.staged, ∀ id names,
      id.length = 4 → backup.Holds id names → staged.Holds id names
  | .read | .restoreBackup | .adoptEntry _ | .clearStaged => True

/-- What an operation may count on while the others go on. -/
structure Rely (env : RuntimeEnv) (disk next : Disk) : Prop where
  buffered : disk.buffered ⊆ next.buffered
  written : disk.written ⊆ next.written
  swaps : disk.swaps ≤ next.swaps
  active : next.swaps = disk.swaps → disk.active.isSome → next.active.isSome
  backup : next.swaps = disk.swaps → next.backupEntries ⊆ disk.backupEntries
  safe : next.swaps = disk.swaps → ∀ entry ∈ disk.buffered, Safe env disk entry → Safe env next entry

/-- An operation that adds nothing to the history and swaps nothing. -/
structure Keeps (env : RuntimeEnv) (disk next : Disk) : Prop where
  buffered : next.buffered = disk.buffered
  written : next.written = disk.written
  swaps : next.swaps = disk.swaps
  sound : ∀ dir, dir ∈ next.active ∨ dir ∈ next.backup ∨ dir ∈ next.staged → Sound disk dir
  tree : ∀ id names, id.length = 4 → (∃ dir ∈ disk.tree, dir.Holds id names) →
    ∃ dir ∈ next.tree, dir.Holds id names
  active : disk.active.isSome → next.active.isSome
  live : ∀ entry ∈ disk.activeEntries, Safe env next entry
  backup : next.backupEntries ⊆ disk.backupEntries
  adopted : ∀ entry ∈ disk.backupEntries, Safe env next entry ∨ entry ∈ next.backupEntries

section Keeps

variable {env : RuntimeEnv} {disk next : Disk} {dir : TreeDir} {entry : Entry} {action : Action}

theorem RecordedEntry.mono (hwritten : disk.written ⊆ next.written) (h : RecordedEntry env disk entry) :
    RecordedEntry env next entry := Recorded.mono hwritten h

theorem Rely.refl (env : RuntimeEnv) (disk : Disk) : Rely env disk disk :=
  ⟨List.Subset.refl _, List.Subset.refl _, le_rfl, fun _ h => h, fun _ => List.Subset.refl _, fun _ _ _ h => h⟩

theorem Keeps.safe (h : Keeps env disk next) (hsafe : Safe env disk entry) : Safe env next entry := by
  rcases hsafe with hlive | hrecorded
  · exact h.live entry hlive
  · exact Or.inr (hrecorded.mono (h.written ▸ List.Subset.refl _))

theorem Keeps.rely (h : Keeps env disk next) : Rely env disk next :=
  ⟨h.buffered ▸ List.Subset.refl _, h.written ▸ List.Subset.refl _, h.swaps.ge, fun _ => h.active,
    fun _ => h.backup, fun _ _ _ => h.safe⟩

theorem Intact.keeps (h : Intact env disk) (hkeeps : Keeps env disk next) : Intact env next := by
  have hsound : ∀ dir, dir ∈ next.active ∨ dir ∈ next.backup ∨ dir ∈ next.staged → Sound next dir := by
    intro dir hdir
    exact (hkeeps.sound dir hdir).mono (hkeeps.buffered ▸ List.Subset.refl _)
      (hkeeps.written ▸ List.Subset.refl _)
  refine ⟨hkeeps.buffered ▸ h.names, fun dir hdir => hsound dir (Or.inl hdir),
    fun dir hdir => hsound dir (Or.inr (Or.inl hdir)), fun dir hdir => hsound dir (Or.inr (Or.inr hdir)),
    hkeeps.written ▸ h.hours, fun leaf hleaf => ?_, fun entry hentry => ?_⟩
  · rw [hkeeps.written] at hleaf
    exact hkeeps.tree leaf.1 leaf.2 (h.hours leaf hleaf) (h.leaves leaf hleaf)
  · rw [hkeeps.buffered] at hentry
    rcases h.entries entry hentry with hsafe | hbackup
    · exact Or.inl (hkeeps.safe hsafe)
    · exact hkeeps.adopted entry hbackup

/-- The live directory, or the one that is made when there is none. -/
theorem Intact.live (h : Intact env disk) : Sound disk (disk.active.getD .empty) := by
  cases hactive : disk.active with
  | none => exact sound_empty disk
  | some dir => exact h.active dir hactive

theorem mem_activeEntries : entry ∈ disk.activeEntries ↔ ∃ dir ∈ disk.active, entry ∈ dir.entries := by
  rw [Disk.activeEntries]
  cases disk.active with
  | none => simp only [Option.map_none, Option.getD_none, List.not_mem_nil, Option.not_mem_none, false_and,
      exists_false]
  | some dir => simp only [Option.map_some, Option.getD_some, Option.mem_some_iff, exists_eq_left']

theorem mem_backupEntries : entry ∈ disk.backupEntries ↔ ∃ dir ∈ disk.backup, entry ∈ dir.entries := by
  rw [Disk.backupEntries]
  cases disk.backup with
  | none => simp only [Option.map_none, Option.getD_none, List.not_mem_nil, Option.not_mem_none, false_and,
      exists_false]
  | some dir => simp only [Option.map_some, Option.getD_some, Option.mem_some_iff, exists_eq_left']

theorem Intact.backupEntries_subset (h : Intact env disk) : disk.backupEntries ⊆ disk.buffered := by
  intro entry hentry
  obtain ⟨dir, hdir, hin⟩ := mem_backupEntries.mp hentry
  exact (h.backup dir hdir).entries hin

theorem Intact.activeEntries_subset (h : Intact env disk) : disk.activeEntries ⊆ disk.buffered := by
  intro entry hentry
  obtain ⟨dir, hdir, hin⟩ := mem_activeEntries.mp hentry
  exact (h.active dir hdir).entries hin

/-- An entry that was moved is not in the backup any more. -/
theorem backupEntries_adoptEntry {name : BufferName} (hnext : disk.perform (.adoptEntry name) = some next)
    (hentry : entry ∈ next.backupEntries) : entry.name ≠ name := by
  obtain ⟨dir, hactive, hnext⟩ := Option.bind_eq_some_iff.mp hnext
  obtain ⟨entries, hentries, hnext⟩ := Option.bind_eq_some_iff.mp hnext
  obtain ⟨backup, hbackup, hnext⟩ := Option.bind_eq_some_iff.mp hnext
  obtain ⟨found, hfound, hnext⟩ := Option.bind_eq_some_iff.mp hnext
  obtain rfl := Option.some.inj hnext
  obtain ⟨other, hother, hin⟩ := mem_backupEntries.mp hentry
  obtain rfl := Option.some.inj hother
  exact (TreeDir.mem_entries_deleteEntry.mp hin).2

/-- What a leaf has receipts for is recorded. -/
theorem Intact.recorded_of_readNode (h : Intact env disk) {id : NodeId} {node : TreeNode} {name : BufferName}
    (hread : readNode disk.activeNodes id = some node) (hname : name ∈ metadataNames node.metadata) :
    Recorded disk id name := by
  obtain ⟨row, hrow, rfl⟩ := Option.map_eq_some_iff.mp hread
  obtain ⟨hmem, rfl⟩ := lookup_mem hrow
  rw [Disk.activeNodes] at hmem
  cases hactive : disk.active with
  | none =>
      rw [hactive] at hmem
      exact absurd hmem List.not_mem_nil
  | some dir =>
      rw [hactive] at hmem
      exact (h.active dir hactive).metadata row hmem name hname

theorem entries_getD_active (disk : Disk) : (disk.active.getD .empty).entries = disk.activeEntries := by
  rw [Disk.activeEntries]
  cases disk.active with
  | none => rfl
  | some dir => rfl

/-- Only the live directory changes, and it keeps its leaves and entries. -/
theorem Intact.setActive (h : Intact env disk) (hplace : disk.active.isSome ∨ disk.backup.isNone)
    (hsound : Sound disk dir) (hnodes : dir.nodes = (disk.active.getD .empty).nodes)
    (hfolded : dir.folded = (disk.active.getD .empty).folded) (hentries : dir.entries = disk.activeEntries) :
    Keeps env disk { disk with active := some dir } := by
  refine ⟨rfl, rfl, rfl, fun other hother => ?_, fun id names _ hholds => ?_, fun _ => rfl,
    fun entry hentry => ?_, List.Subset.refl _, fun entry hentry => Or.inr hentry⟩
  · rcases hother with hother | hother | hother
    · obtain rfl := Option.some.inj hother
      exact hsound
    · exact h.backup other hother
    · exact h.staged other hother
  · obtain ⟨old, hold, hin⟩ := hholds
    refine ⟨dir, rfl, ?_⟩
    cases hactive : disk.active with
    | none =>
        rw [hactive] at hplace
        have hbackup := Option.isNone_iff_eq_none.mp (hplace.resolve_left Bool.false_ne_true)
        rw [Disk.tree, hactive, hbackup] at hold
        cases hold
    | some live =>
        rw [Disk.tree, hactive] at hold
        obtain rfl := Option.some.inj hold
        rw [hactive] at hnodes hfolded
        refine ⟨?_, ?_⟩
        · rw [hnodes]
          exact hin.1
        · rw [hfolded]
          exact hin.2
  · exact Or.inl (mem_activeEntries.mpr ⟨dir, rfl, hentries ▸ hentry⟩)

theorem Intact.createBuffer (h : Intact env disk) (hplace : disk.active.isSome ∨ disk.backup.isNone) :
    Keeps env disk
      { disk with
        active := some
          { disk.active.getD .empty with buffer := some (disk.active.getD .empty).entries } } :=
  h.setActive hplace (h.live.setBuffer h.live.entries) rfl rfl (entries_getD_active disk)

theorem Intact.createDirs (h : Intact env disk) (hplace : disk.active.isSome ∨ disk.backup.isNone)
    (path : NodeId) :
    Keeps env disk { disk with active := some ((disk.active.getD .empty).makeDirs path) } :=
  h.setActive hplace (h.live.makeDirs path) rfl rfl (entries_getD_active disk)

theorem Intact.deleteEntry (h : Intact env disk) {name : BufferName}
    (hrecorded : ∀ entry ∈ disk.buffered, entry.name = name → RecordedEntry env disk entry) :
    Keeps env disk { disk with active := disk.active.map (TreeDir.deleteEntry name) } := by
  cases hactive : disk.active with
  | none =>
      refine ⟨rfl, rfl, rfl, fun dir hdir => ?_, fun id names _ hholds => ?_, fun hsome => ?_, fun entry hentry => ?_,
        List.Subset.refl _, fun entry hentry => Or.inr hentry⟩
      · rcases hdir with hdir | hdir | hdir
        · cases hdir
        · exact h.backup dir hdir
        · exact h.staged dir hdir
      · rwa [Disk.tree, hactive] at hholds
      · rw [hactive] at hsome
        cases hsome
      · rw [Disk.activeEntries, hactive] at hentry
        exact absurd hentry List.not_mem_nil
  | some live =>
      have hlive := h.active live hactive
      refine ⟨rfl, rfl, rfl, fun dir hdir => ?_, fun id names _ hholds => ?_, fun _ => rfl, fun entry hentry => ?_,
        List.Subset.refl _, fun entry hentry => Or.inr hentry⟩
      · rcases hdir with hdir | hdir | hdir
        · obtain rfl := Option.some.inj hdir
          exact hlive.deleteEntry name
        · exact h.backup dir hdir
        · exact h.staged dir hdir
      · obtain ⟨dir, hdir, hin⟩ := hholds
        rw [Disk.tree, hactive] at hdir
        obtain rfl := Option.some.inj hdir
        exact ⟨live.deleteEntry name, rfl, hin⟩
      · obtain ⟨dir, hdir, hin⟩ := mem_activeEntries.mp hentry
        rw [hactive] at hdir
        obtain rfl := Option.some.inj hdir
        by_cases hname : entry.name = name
        · exact Or.inr (hrecorded entry (hlive.entries hin) hname)
        · refine Or.inl (mem_activeEntries.mpr ⟨_, rfl, ?_⟩)
          exact TreeDir.mem_entries_deleteEntry.mpr ⟨hin, hname⟩

theorem activeEntries_of_free (hfree : Disk.Free disk.active) : disk.activeEntries = [] := by
  rw [Disk.activeEntries]
  cases hactive : disk.active with
  | none => rfl
  | some dir => exact TreeDir.entries_of_vacant (hfree dir hactive)

/-- A path that is free holds no leaf, so the tree is in the backup if anywhere. -/
theorem backup_of_free (hfree : Disk.Free disk.active) {id : NodeId} {names : List BufferName}
    (hholds : ∃ dir ∈ disk.tree, dir.Holds id names) :
    disk.active = none ∧ ∃ dir ∈ disk.backup, dir.Holds id names := by
  obtain ⟨dir, hdir, hin⟩ := hholds
  cases hactive : disk.active with
  | none =>
      rw [Disk.tree, hactive] at hdir
      exact ⟨rfl, dir, hdir, hin⟩
  | some live =>
      rw [Disk.tree, hactive] at hdir
      obtain rfl := Option.some.inj hdir
      exact absurd hin (TreeDir.not_holds_of_vacant (hfree live hactive))

theorem Intact.restoreBackup (h : Intact env disk) (hdir : disk.backup = some dir)
    (hfree : Disk.Free disk.active) : Keeps env disk { disk with active := some dir, backup := none } := by
  refine ⟨rfl, rfl, rfl, fun other hother => ?_, fun id names _ hholds => ?_, fun _ => rfl, fun entry hentry => ?_,
    List.nil_subset _, fun entry hentry => ?_⟩
  · rcases hother with hother | hother | hother
    · exact h.backup other (hdir.trans hother)
    · cases hother
    · exact h.staged other hother
  · obtain ⟨-, other, hother, hin⟩ := backup_of_free hfree hholds
    obtain rfl := Option.some.inj (hdir.symm.trans hother)
    exact ⟨dir, rfl, hin⟩
  · rw [activeEntries_of_free hfree] at hentry
    exact absurd hentry List.not_mem_nil
  · obtain ⟨other, hother, hin⟩ := mem_backupEntries.mp hentry
    obtain rfl := Option.some.inj (hdir.symm.trans hother)
    exact Or.inl (Or.inl (mem_activeEntries.mpr ⟨dir, rfl, hin⟩))

theorem Intact.adoptEntry (h : Intact env disk) {backup : TreeDir} {entries : List Entry}
    (hactive : disk.active = some dir) (hentries : dir.buffer = some entries) (hbackup : disk.backup = some backup)
    (hentry : entry ∈ backup.entries) :
    Keeps env disk
      { disk with
        active := some
          { dir with buffer := some ((entries.filter fun other => other.name ≠ entry.name) ++ [entry]) }
        backup := some (backup.deleteEntry entry.name) } := by
  have hlive := h.active dir hactive
  have hother := h.backup backup hbackup
  have hsame : ∀ other ∈ disk.buffered, other.name = entry.name → other = entry :=
    fun other hmem hname => eq_of_pk_eq h.names hmem (hother.entries hentry) hname
  have hnew : ∀ moved, moved ∈ (entries.filter fun other => other.name ≠ entry.name) ++ [entry] ↔
      (moved ∈ entries ∧ moved.name ≠ entry.name) ∨ moved = entry := by
    intro moved
    rw [List.mem_append, List.mem_filter, List.mem_singleton, decide_eq_true_eq]
  have hmem : ∀ moved ∈ entries, moved ∈ dir.entries := by
    intro moved hmoved
    rw [TreeDir.entries, hentries]
    exact hmoved
  refine ⟨rfl, rfl, rfl, fun other hdir => ?_, fun id names _ hholds => ?_, fun _ => rfl, fun moved hmoved => ?_,
    fun moved hmoved => ?_, fun moved hmoved => ?_⟩
  · rcases hdir with hdir | hdir | hdir
    · obtain rfl := Option.some.inj hdir
      refine hlive.setBuffer fun moved hmoved => ?_
      rcases (hnew moved).mp hmoved with ⟨hin, -⟩ | rfl
      · exact hlive.entries (hmem moved hin)
      · exact hother.entries hentry
    · obtain rfl := Option.some.inj hdir
      exact hother.deleteEntry entry.name
    · exact h.staged other hdir
  · obtain ⟨found, hfound, hin⟩ := hholds
    rw [Disk.tree, hactive] at hfound
    obtain rfl := Option.some.inj hfound
    exact ⟨_, rfl, hin⟩
  · obtain ⟨found, hfound, hin⟩ := mem_activeEntries.mp hmoved
    obtain rfl := Option.some.inj (hactive.symm.trans hfound)
    refine Or.inl (mem_activeEntries.mpr ⟨_, rfl, (hnew moved).mpr ?_⟩)
    by_cases hname : moved.name = entry.name
    · exact Or.inr (hsame moved (hlive.entries hin) hname)
    · rw [TreeDir.entries, hentries] at hin
      exact Or.inl ⟨hin, hname⟩
  · obtain ⟨found, hfound, hin⟩ := mem_backupEntries.mp hmoved
    obtain rfl := Option.some.inj hfound
    exact mem_backupEntries.mpr ⟨backup, hbackup, (TreeDir.mem_entries_deleteEntry.mp hin).1⟩
  · obtain ⟨found, hfound, hin⟩ := mem_backupEntries.mp hmoved
    obtain rfl := Option.some.inj (hbackup.symm.trans hfound)
    by_cases hname : moved.name = entry.name
    · have heq := hsame moved (hother.entries hin) hname
      exact Or.inl (Or.inl (mem_activeEntries.mpr ⟨_, rfl, (hnew moved).mpr (Or.inr heq)⟩))
    · exact Or.inr (mem_backupEntries.mpr ⟨_, rfl, TreeDir.mem_entries_deleteEntry.mpr ⟨hin, hname⟩⟩)

/-- The backup shrinks, when the live tree is there and has all its entries. -/
theorem Intact.setBackup (h : Intact env disk) (hactive : disk.active.isSome)
    (hsafe : ∀ entry ∈ disk.backupEntries, Safe env disk entry) {backup : Option TreeDir}
    (hsound : ∀ dir ∈ backup, Sound disk dir)
    (hfewer : ∀ dir ∈ backup, dir.entries ⊆ disk.backupEntries) :
    Keeps env disk { disk with backup := backup } := by
  refine ⟨rfl, rfl, rfl, fun dir hdir => ?_, fun id names _ hholds => ?_, fun hsome => hsome, fun entry hentry => ?_,
    fun entry hentry => ?_, fun entry hentry => Or.inl (hsafe entry hentry)⟩
  · rcases hdir with hdir | hdir | hdir
    · exact h.active dir hdir
    · exact hsound dir hdir
    · exact h.staged dir hdir
  · obtain ⟨live, hlive⟩ := Option.isSome_iff_exists.mp hactive
    rw [Disk.tree, hlive] at hholds ⊢
    exact hholds
  · exact Or.inl hentry
  · obtain ⟨dir, hdir, hin⟩ := mem_backupEntries.mp hentry
    exact hfewer dir hdir hin

theorem Intact.setStaged (h : Intact env disk) {staged : Option TreeDir}
    (hsound : ∀ dir ∈ staged, Sound disk dir) : Keeps env disk { disk with staged := staged } := by
  refine ⟨rfl, rfl, rfl, fun dir hdir => ?_, fun _ _ _ hholds => hholds, fun hsome => hsome,
    fun entry hentry => Or.inl hentry, List.Subset.refl _, fun entry hentry => Or.inr hentry⟩
  rcases hdir with hdir | hdir | hdir
  · exact h.active dir hdir
  · exact h.backup dir hdir
  · exact hsound dir hdir

theorem Intact.moveStaged (h : Intact env disk) (hdir : disk.staged = some dir) (hfree : Disk.Free disk.active)
    (hcovered : disk.active = none → ∀ backup ∈ disk.backup, ∀ staged ∈ disk.staged, ∀ id names,
      id.length = 4 → backup.Holds id names → staged.Holds id names) :
    Keeps env disk { disk with active := some dir, staged := none } := by
  refine ⟨rfl, rfl, rfl, fun other hother => ?_, fun id names hhour hholds => ?_, fun _ => rfl,
    fun entry hentry => ?_, List.Subset.refl _, fun entry hentry => Or.inr hentry⟩
  · rcases hother with hother | hother | hother
    · exact h.staged other (hdir.trans hother)
    · exact h.backup other hother
    · cases hother
  · obtain ⟨hnone, backup, hbackup, hin⟩ := backup_of_free hfree hholds
    exact ⟨dir, rfl, hcovered hnone backup hbackup dir hdir id names hhour hin⟩
  · rw [activeEntries_of_free hfree] at hentry
    exact absurd hentry List.not_mem_nil

theorem Intact.writeEntry (h : Intact env disk) {entries : List Entry} (hactive : disk.active = some dir)
    (hentries : dir.buffer = some entries) (hfresh : entry.name ∉ disk.buffered.map Entry.name) :
    let next : Disk :=
      { disk with
        active := some { dir with buffer := some (entries ++ [entry]) }
        buffered := disk.buffered ++ [entry] }
    Intact env next ∧ Rely env disk next := by
  intro next
  have hbuffered : disk.buffered ⊆ next.buffered := List.subset_append_left _ _
  have hlive := h.active dir hactive
  have hold : dir.entries = entries := by
    rw [TreeDir.entries, hentries]
    rfl
  have hgrown : ∀ other ∈ disk.activeEntries, other ∈ next.activeEntries := by
    intro other hother
    obtain ⟨found, hfound, hin⟩ := mem_activeEntries.mp hother
    obtain rfl := Option.some.inj (hactive.symm.trans hfound)
    exact mem_activeEntries.mpr ⟨_, rfl, List.mem_append_left _ (hold ▸ hin)⟩
  have hsafe : ∀ other, Safe env disk other → Safe env next other := fun other => Or.imp_left (hgrown other)
  have hsubset : entries ++ [entry] ⊆ next.buffered := by
    intro other hother
    rcases List.mem_append.mp hother with hin | hin
    · exact List.mem_append_left _ (hlive.entries (hold.symm ▸ hin))
    · exact List.mem_append_right _ hin
  refine ⟨⟨?_, fun other hother => ?_, fun other hother => ?_, fun other hother => ?_, h.hours, fun leaf hleaf => ?_,
    fun other hother => ?_⟩, hbuffered, List.Subset.refl _, le_rfl, fun _ _ => rfl, fun _ => List.Subset.refl _,
    fun _ other _ => hsafe other⟩
  · rw [List.map_append]
    exact List.nodup_append.mpr ⟨h.names, List.nodup_singleton _, fun name hname other hother heq =>
      hfresh (List.mem_singleton.mp hother ▸ heq ▸ hname)⟩
  · obtain rfl := Option.some.inj hother
    exact (hlive.mono hbuffered (List.Subset.refl _)).setBuffer hsubset
  · exact (h.backup other hother).mono hbuffered (List.Subset.refl _)
  · exact (h.staged other hother).mono hbuffered (List.Subset.refl _)
  · obtain ⟨found, hfound, hin⟩ := h.leaves leaf hleaf
    rw [Disk.tree, hactive] at hfound
    obtain rfl := Option.some.inj hfound
    exact ⟨_, rfl, hin⟩
  · rcases List.mem_append.mp hother with hin | hin
    · exact (h.entries other hin).imp_left (hsafe other)
    · refine Or.inl (Or.inl (mem_activeEntries.mpr ⟨_, rfl, List.mem_append_right _ hin⟩))

theorem Intact.saveNode (h : Intact env disk) {node : TreeNode} {names : List BufferName}
    (hactive : disk.active = some dir) (hdir : nodeDir node.id = [] ∨ nodeDir node.id ∈ dir.dirs)
    (hlegal : Legal env disk (.saveNode node names)) :
    let next : Disk :=
      { disk with active := some (dir.save node names), written := disk.wrote node.id names }
    Intact env next ∧ Rely env disk next := by
  intro next
  obtain ⟨hseen, hmetadata⟩ := hlegal
  have hwritten : disk.written ⊆ next.written := by
    change disk.written ⊆ disk.wrote node.id names
    rw [Disk.wrote]
    split_ifs
    · exact List.subset_append_left _ _
    · exact List.Subset.refl _
  have hrecorded : ∀ name ∈ metadataNames node.metadata, Recorded next node.id name := by
    intro name hname
    rcases hmetadata name hname with ⟨hhour, hin⟩ | hold
    · refine ⟨names, ?_, hin⟩
      change (node.id, names) ∈ disk.wrote node.id names
      rw [Disk.wrote, if_pos hhour]
      exact List.mem_append_right _ List.mem_cons_self
    · exact hold.mono hwritten
  have hmono : ∀ other, Sound disk other → Sound next other :=
    fun other hother => hother.mono (List.Subset.refl _) hwritten
  have hsafe : ∀ entry, Safe env disk entry → Safe env next entry := by
    intro entry hentry
    rcases hentry with hlive | hold
    · obtain ⟨found, hfound, hin⟩ := mem_activeEntries.mp hlive
      obtain rfl := Option.some.inj (hactive.symm.trans hfound)
      exact Or.inl (mem_activeEntries.mpr ⟨_, rfl, hin⟩)
    · exact Or.inr (hold.mono hwritten)
  have hnew : ∀ leaf ∈ next.written, leaf ∈ disk.written ∨ (node.id.length = 4 ∧ leaf = (node.id, names)) := by
    intro leaf hleaf
    change leaf ∈ disk.wrote node.id names at hleaf
    rw [Disk.wrote] at hleaf
    split_ifs at hleaf with hhour
    · exact (List.mem_append.mp hleaf).imp_right fun hlast => ⟨hhour, List.mem_singleton.mp hlast⟩
    · exact Or.inl hleaf
  refine ⟨⟨h.names, fun other hother => ?_, fun other hother => hmono other (h.backup other hother),
    fun other hother => hmono other (h.staged other hother), fun leaf hleaf => ?_, fun leaf hleaf => ?_,
    fun entry hentry => (h.entries entry hentry).imp_left (hsafe entry)⟩, List.Subset.refl _, hwritten, le_rfl,
    fun _ _ => rfl, fun _ => List.Subset.refl _, fun _ entry _ => hsafe entry⟩
  · obtain rfl := Option.some.inj hother
    exact (hmono dir (h.active dir hactive)).save hdir hrecorded
  · rcases hnew leaf hleaf with hold | ⟨hhour, rfl⟩
    · exact h.hours leaf hold
    · exact hhour
  · refine ⟨_, rfl, ?_⟩
    rcases hnew leaf hleaf with hold | ⟨-, rfl⟩
    · obtain ⟨found, hfound, hin⟩ := h.leaves leaf hold
      rw [Disk.tree, hactive] at hfound
      obtain rfl := Option.some.inj hfound
      refine hin.save fun heq => ?_
      have hsubset := hseen (heq ▸ h.hours leaf hold)
      rw [Disk.activeFolded, hactive] at hsubset
      exact heq ▸ hsubset
    · exact TreeDir.holds_save_self dir node names

theorem Intact.moveActive (h : Intact env disk) (hactive : disk.active = some dir) (hbackup : disk.backup = none) :
    let next : Disk := { disk with active := none, backup := some dir, swaps := disk.swaps + 1 }
    Intact env next ∧ Rely env disk next := by
  intro next
  have hswaps : next.swaps ≠ disk.swaps := Nat.succ_ne_self _
  have hmono : ∀ other, Sound disk other → Sound next other :=
    fun other hother => hother.mono (List.Subset.refl _) (List.Subset.refl _)
  refine ⟨⟨h.names, fun _ hother => (nomatch hother), fun other hother => ?_,
    fun other hother => hmono other (h.staged other hother), h.hours, fun leaf hleaf => ?_,
    fun entry hentry => ?_⟩, List.Subset.refl _, List.Subset.refl _, Nat.le_succ _,
    fun heq => absurd heq hswaps, fun heq => absurd heq hswaps, fun heq => absurd heq hswaps⟩
  · obtain rfl := Option.some.inj hother
    exact hmono dir (h.active dir hactive)
  · obtain ⟨found, hfound, hin⟩ := h.leaves leaf hleaf
    rw [Disk.tree, hactive] at hfound
    obtain rfl := Option.some.inj hfound
    exact ⟨dir, rfl, hin⟩
  · rcases h.entries entry hentry with (hlive | hrecorded) | hold
    · obtain ⟨found, hfound, hin⟩ := mem_activeEntries.mp hlive
      obtain rfl := Option.some.inj (hactive.symm.trans hfound)
      exact Or.inr (mem_backupEntries.mpr ⟨dir, rfl, hin⟩)
    · exact Or.inl (Or.inr hrecorded)
    · rw [Disk.backupEntries, hbackup] at hold
      exact absurd hold List.not_mem_nil

/-- A file operation where it is harmless. -/
theorem Intact.perform (h : Intact env disk) (hlegal : Legal env disk action)
    (hnext : disk.perform action = some next) : Intact env next ∧ Rely env disk next := by
  have hkeeps : Keeps env disk next → Intact env next ∧ Rely env disk next :=
    fun hkeeps => ⟨h.keeps hkeeps, hkeeps.rely⟩
  cases action with
  | read =>
      obtain rfl := Option.some.inj hnext
      exact ⟨h, Rely.refl env disk⟩
  | createBuffer =>
      obtain rfl := Option.some.inj hnext
      exact hkeeps (h.createBuffer hlegal)
  | createDirs path =>
      obtain rfl := Option.some.inj hnext
      exact hkeeps (h.createDirs hlegal path)
  | writeEntry entry =>
      obtain ⟨dir, hactive, hnext⟩ := Option.bind_eq_some_iff.mp hnext
      obtain ⟨entries, hentries, hnext⟩ := Option.bind_eq_some_iff.mp hnext
      obtain rfl := Option.some.inj hnext
      exact h.writeEntry hactive hentries hlegal
  | saveNode node names =>
      obtain ⟨dir, hactive, hnext⟩ := Option.bind_eq_some_iff.mp hnext
      split_ifs at hnext with hdir
      obtain rfl := Option.some.inj hnext
      exact h.saveNode hactive hdir hlegal
  | deleteEntry name =>
      obtain rfl := Option.some.inj hnext
      exact hkeeps (h.deleteEntry hlegal)
  | restoreBackup =>
      obtain ⟨dir, hbackup, hnext⟩ := Option.bind_eq_some_iff.mp hnext
      split_ifs at hnext with hfree
      obtain rfl := Option.some.inj hnext
      exact hkeeps (h.restoreBackup hbackup hfree)
  | adoptEntry name =>
      obtain ⟨dir, hactive, hnext⟩ := Option.bind_eq_some_iff.mp hnext
      obtain ⟨entries, hentries, hnext⟩ := Option.bind_eq_some_iff.mp hnext
      obtain ⟨backup, hbackup, hnext⟩ := Option.bind_eq_some_iff.mp hnext
      obtain ⟨entry, hentry, hnext⟩ := Option.bind_eq_some_iff.mp hnext
      have hfound := List.find?_some hentry
      obtain rfl : entry.name = name := of_decide_eq_true hfound
      obtain rfl := Option.some.inj hnext
      exact hkeeps (h.adoptEntry hactive hentries hbackup (List.mem_of_find?_eq_some hentry))
  | removePart part =>
      obtain ⟨dir, hbackup, hnext⟩ := Option.bind_eq_some_iff.mp hnext
      obtain rfl := Option.some.inj hnext
      refine hkeeps (h.setBackup hlegal.1 hlegal.2 (fun other hother => ?_) fun other hother => ?_)
      · obtain rfl := Option.some.inj hother
        exact (h.backup dir hbackup).remove part
      · obtain rfl := Option.some.inj hother
        intro entry hentry
        exact mem_backupEntries.mpr ⟨dir, hbackup, dir.remove_entries_subset part hentry⟩
  | removeBackup =>
      obtain ⟨dir, hbackup, hnext⟩ := Option.bind_eq_some_iff.mp hnext
      obtain rfl := Option.some.inj hnext
      exact hkeeps (h.setBackup hlegal.1 hlegal.2 (fun _ hother => (nomatch hother)) fun _ hother => (nomatch hother))
  | clearStaged =>
      obtain rfl := Option.some.inj hnext
      exact hkeeps (h.setStaged fun _ hother => nomatch hother)
  | stageNode node names =>
      obtain rfl := Option.some.inj hnext
      refine hkeeps (h.setStaged fun other hother => ?_)
      obtain rfl := Option.some.inj hother
      have hstaged : Sound disk (disk.staged.getD .empty) := by
        cases hdir : disk.staged with
        | none => exact sound_empty disk
        | some dir => exact h.staged dir hdir
      refine (hstaged.makeDirs (nodeDir node.id)).save ?_ hlegal
      by_cases hroot : nodeDir node.id = []
      · exact Or.inl hroot
      · exact Or.inr (TreeDir.mem_dirs_makeDirs.mpr (Or.inr ⟨List.prefix_rfl, hroot⟩))
  | moveActive =>
      obtain ⟨dir, hactive, hnext⟩ := Option.bind_eq_some_iff.mp hnext
      split_ifs at hnext
      obtain rfl := Option.some.inj hnext
      exact h.moveActive hactive hlegal
  | moveStaged =>
      obtain ⟨dir, hstaged, hnext⟩ := Option.bind_eq_some_iff.mp hnext
      split_ifs at hnext with hfree
      obtain rfl := Option.some.inj hnext
      exact hkeeps (h.moveStaged hstaged hfree hlegal)

end Keeps

end TinyCortex.TimeTree
