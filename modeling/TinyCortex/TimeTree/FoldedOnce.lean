import TinyCortex.TimeTree.Summarise

/-! Every buffer entry is folded once. The receipts of the leaves name everything in the buffer that was
folded, and no run has anything folded in the buffer but what it read, so a retry folds what is new. -/

namespace TinyCortex.TimeTree.Runtime

open Table

variable {env : RuntimeEnv} {initial : List TreeNode} {s next : Runtime} {run : Run} {entry : Entry}
  {hour : Hour} {hours : List Hour}

/-- The entry is in the input of a leaf, and its leaf is there. -/
def Folded (env : RuntimeEnv) (s : Runtime) (entry : Entry) : Prop :=
  entry.name ∈ s.foldedNames ∧ (readNode s.nodes (env.hourOf entry.name.millis).id).isSome

/-- The run has written everything above the leaf of the entry. -/
def Propagated (env : RuntimeEnv) (s : Runtime) (run : Nat) (entry : Entry) : Prop :=
  ∀ id ∈ (env.hourOf entry.name.millis).ancestors, (run, id) ∈ s.propagated

/-- How far a run is with the entries that it read. -/
def Reached (env : RuntimeEnv) (s : Runtime) (run : Run) : Phase → Prop
  | .folding hours => run.snapshot ⊆ s.buffer ∧
      ∀ entry ∈ run.snapshot, env.hourOf entry.name.millis ∈ hours ∨ Folded env s entry
  | .propagating ids failed => (∀ entry ∈ run.snapshot, Folded env s entry) ∧
      ids.Pairwise (fun a b => b.length ≤ a.length) ∧
      (∀ id ∈ ids, ∃ entry ∈ run.snapshot, id ∈ (env.hourOf entry.name.millis).ancestors) ∧
      (failed = [] → ∀ entry ∈ run.snapshot, ∀ id ∈ (env.hourOf entry.name.millis).ancestors,
        id ∈ ids ∨ ((readNode s.nodes id).isSome ∧ (run.number, id) ∈ s.propagated))
  | .deleting names => (∀ entry ∈ run.snapshot, Folded env s entry ∧ Propagated env s run.number entry) ∧
      names ⊆ run.snapshot.map Entry.name ∧
      ∀ entry ∈ s.buffer, entry ∈ run.snapshot → entry.name ∈ names
  | .clearing _ => (∀ entry ∈ run.snapshot, Folded env s entry) ∧
      ∀ entry ∈ s.buffer, entry ∉ run.snapshot

/-- What holds while a run is in progress: nothing that was folded is in the buffer but what it read. -/
structure InProgress (env : RuntimeEnv) (s : Runtime) (run : Run) : Prop where
  number : run.number = s.runs
  snapshot : run.snapshot ⊆ s.buffered
  distinct : (run.snapshot.map Entry.name).Nodup
  fresh : ∀ entry ∈ s.buffer, entry.name ∈ s.foldedNames → entry ∈ run.snapshot
  reached : Reached env s run run.phase

/-- Every entry is accounted for. -/
structure Accounted (env : RuntimeEnv) (s : Runtime) : Prop where
  names : (s.buffered.map Entry.name).Nodup
  buffer : s.buffer.Sublist s.buffered
  folds : ∀ fold ∈ s.folds, fold.run ≤ s.runs ∧
    ∀ entry ∈ fold.entries, entry ∈ s.buffered ∧ fold.hour = env.hourOf entry.name.millis
  once : s.foldedNames.Nodup
  receipts : ∀ node ∈ s.nodes, metadataNames node.metadata ⊆ s.foldedNames
  covered : ∀ entry ∈ s.buffer, entry.name ∈ s.foldedNames →
    entry.name ∈ alreadyApplied (readNode s.nodes (env.hourOf entry.name.millis).id)
  deleted : ∀ entry ∈ s.buffered, entry ∉ s.buffer → Kept env s entry
  run : ∀ run, s.run = some run → InProgress env s run

theorem mem_foldedNames {name : BufferName} :
    name ∈ s.foldedNames ↔ ∃ fold ∈ s.folds, ∃ entry ∈ fold.entries, entry.name = name := by
  rw [foldedNames, List.mem_map]
  constructor
  · rintro ⟨entry, hmem, rfl⟩
    obtain ⟨fold, hfold, hentry⟩ := List.mem_flatMap.mp hmem
    exact ⟨fold, hfold, entry, hentry, rfl⟩
  · rintro ⟨fold, hfold, entry, hentry, rfl⟩
    exact ⟨entry, List.mem_flatMap.mpr ⟨fold, hfold, hentry⟩, rfl⟩

/-- A folded name was buffered. -/
theorem Accounted.buffered_of_folded (h : Accounted env s) {name : BufferName}
    (hname : name ∈ s.foldedNames) : name ∈ s.buffered.map Entry.name := by
  obtain ⟨fold, hfold, entry, hentry, rfl⟩ := mem_foldedNames.mp hname
  exact List.mem_map_of_mem ((h.folds fold hfold).2 entry hentry).1

/-- What is folded and propagated by the run in progress is accounted for without the buffer. -/
theorem Accounted.kept (h : Accounted env s) (hbuffered : entry ∈ s.buffered)
    (hfolded : entry.name ∈ s.foldedNames) {number : Nat} (hnumber : number = s.runs)
    (hpropagated : Propagated env s number entry) : Kept env s entry := by
  obtain ⟨fold, hfold, other, hother, hname⟩ := mem_foldedNames.mp hfolded
  obtain ⟨hle, hentries⟩ := h.folds fold hfold
  obtain ⟨hmem, hhour⟩ := hentries other hother
  obtain rfl := eq_of_pk_eq h.names hmem hbuffered hname
  exact ⟨fold, hfold, hother, hhour, number, hnumber ▸ hle, hpropagated⟩

theorem accounted_empty (env : RuntimeEnv) (hclean : ∀ node ∈ initial, metadataNames node.metadata = []) :
    Accounted env (empty initial) where
  names := List.nodup_nil
  buffer := List.Sublist.refl _
  folds := fun _ h => absurd h List.not_mem_nil
  once := List.nodup_nil
  receipts := fun node hnode => by
    rw [hclean node hnode]
    exact List.nil_subset _
  covered := fun _ h => absurd h List.not_mem_nil
  deleted := fun _ h => absurd h List.not_mem_nil
  run := fun _ h => by cases h

/-! ### The buffer and the start of a run -/

theorem Accounted.bufferWrite (h : Accounted env s) {name : BufferName} {content : String}
    (hname : name ∉ s.buffered.map Entry.name) :
    Accounted env (step env s (.bufferWrite name content)) := by
  have hnew : name ∉ s.foldedNames := fun hmem => hname (h.buffered_of_folded hmem)
  have hfresh : ∀ snapshot : List Entry, snapshot ⊆ s.buffered → ∀ entry : Entry,
      entry.name = name → entry ∉ snapshot :=
    fun snapshot hsnapshot entry heq hmem => hname (heq ▸ List.mem_map_of_mem (hsnapshot hmem))
  have hsplit : ∀ entry ∈ s.buffer ++ [Entry.mk name content], entry ∈ s.buffer ∨ entry.name = name := by
    intro entry hmem
    rcases List.mem_append.mp hmem with hold | hlast
    · exact Or.inl hold
    · rw [List.mem_singleton.mp hlast]
      exact Or.inr rfl
  refine ⟨?_, ?_, ?_, h.once, h.receipts, ?_, ?_, ?_⟩
  · change ((s.buffered ++ [Entry.mk name content]).map Entry.name).Nodup
    rw [List.map_append, List.nodup_append]
    refine ⟨h.names, List.nodup_singleton _, fun other hother last hlast heq => ?_⟩
    obtain rfl := List.mem_singleton.mp hlast
    exact hname (heq ▸ hother)
  · exact h.buffer.append (List.Sublist.refl _)
  · intro fold hfold
    refine ⟨(h.folds fold hfold).1, fun entry hentry => ?_⟩
    obtain ⟨hmem, hhour⟩ := (h.folds fold hfold).2 entry hentry
    exact ⟨List.mem_append_left _ hmem, hhour⟩
  · intro entry hmem hfolded
    rcases hsplit entry hmem with hold | heq
    · exact h.covered entry hold hfolded
    · exact absurd (heq ▸ hfolded) hnew
  · intro entry hmem hnot
    rcases List.mem_append.mp hmem with hold | hlast
    · exact h.deleted entry hold fun hin => hnot (List.mem_append_left _ hin)
    · exact absurd (List.mem_append_right _ hlast) hnot
  · intro run hrun
    have hprogress := h.run run hrun
    have hother := hfresh run.snapshot hprogress.snapshot
    refine ⟨hprogress.number, fun entry hmem => List.mem_append_left _ (hprogress.snapshot hmem),
      hprogress.distinct, ?_, ?_⟩
    · intro entry hmem hfolded
      rcases hsplit entry hmem with hold | heq
      · exact hprogress.fresh entry hold hfolded
      · exact absurd (heq ▸ hfolded) hnew
    · have hreached := hprogress.reached
      cases hphase : run.phase with
      | folding hours =>
          rw [hphase] at hreached
          obtain ⟨hbuffer, hfolded⟩ := hreached
          exact ⟨fun entry hmem => List.mem_append_left _ (hbuffer hmem), hfolded⟩
      | propagating ids failed =>
          rw [hphase] at hreached
          exact hreached
      | deleting names =>
          rw [hphase] at hreached
          obtain ⟨hdone, hnames, hleft⟩ := hreached
          refine ⟨hdone, hnames, fun entry hmem hin => ?_⟩
          rcases hsplit entry hmem with hold | heq
          · exact hleft entry hold hin
          · exact absurd hin (hother entry heq)
      | clearing hours =>
          rw [hphase] at hreached
          obtain ⟨hfolded, hgone⟩ := hreached
          refine ⟨hfolded, fun entry hmem hin => ?_⟩
          rcases hsplit entry hmem with hold | heq
          · exact hgone entry hold hin
          · exact absurd hin (hother entry heq)

/-- Only the history of completed runs changed. -/
theorem Accounted.setCompleted (h : Accounted env s) (completed : Option (List Hour)) :
    Accounted env { s with completed := completed } := by
  refine ⟨h.names, h.buffer, h.folds, h.once, h.receipts, h.covered, h.deleted, fun run hrun => ?_⟩
  have hprogress := h.run run hrun
  exact ⟨hprogress.number, hprogress.snapshot, hprogress.distinct, hprogress.fresh, hprogress.reached⟩

theorem Accounted.halt (h : Accounted env s) : Accounted env s.halt :=
  ⟨h.names, h.buffer, h.folds, h.once, h.receipts, h.covered, h.deleted, fun _ hrun => nomatch hrun⟩

/-- The run goes on with another phase that it has reached. -/
theorem Accounted.enter (h : Accounted env s) (hrun : s.run = some run) {phase : Phase}
    (hreached : Reached env s run phase) : Accounted env (s.enter run phase) := by
  refine ⟨h.names, h.buffer, h.folds, h.once, h.receipts, h.covered, h.deleted, fun other hother => ?_⟩
  obtain rfl := Option.some.inj hother
  have hprogress := h.run run hrun
  exact ⟨hprogress.number, hprogress.snapshot, hprogress.distinct, hprogress.fresh, hreached⟩

theorem Accounted.start (h : Accounted env s) : Accounted env (step env s .start) := by
  rw [step]
  split_ifs with hidle
  · refine ⟨h.names, h.buffer, fun fold hfold => ?_, h.once, h.receipts, h.covered, h.deleted,
      fun run hrun => ?_⟩
    · exact ⟨(h.folds fold hfold).1.trans (Nat.le_succ _), (h.folds fold hfold).2⟩
    · obtain rfl := Option.some.inj hrun
      have hperm := List.perm_insertionSort (fun a b : Entry => a.name.render ≤ b.name.render) s.buffer
      refine ⟨rfl, List.Subset.trans hperm.subset h.buffer.subset, ?_, ?_, ?_, ?_⟩
      · exact (hperm.map Entry.name).nodup_iff.mpr (h.names.sublist (h.buffer.map _))
      · exact fun entry hmem _ => hperm.symm.subset hmem
      · exact hperm.subset
      · exact fun entry hmem => Or.inl (mem_groupHours.mpr ⟨entry, hmem, rfl⟩)
  · exact h.setCompleted none

/-! ### Folding -/

theorem hourId_injective {hour other : Hour} (h : hour.id = other.id) : hour = other := by
  cases hour
  cases other
  simpa [Hour.id] using h

/-- Everything that a leaf mentions was folded. -/
theorem Accounted.applied_subset (h : Accounted env s) (id : NodeId) :
    alreadyApplied (readNode s.nodes id) ⊆ s.foldedNames := by
  cases hread : readNode s.nodes id with
  | none => exact List.nil_subset _
  | some node =>
      obtain ⟨-, row, hrow, hmetadata⟩ := readNode_some hread
      exact List.Subset.trans (alreadyApplied_subset node) (hmetadata ▸ h.receipts row hrow)

/-- An entry of the hour is new, or it was folded before. -/
theorem Accounted.new_or_folded (h : Accounted env s) (hmem : entry ∈ hourGroup env run.snapshot hour) :
    entry ∈ newEntries (readNode s.nodes hour.id) (hourGroup env run.snapshot hour) ∨
      entry.name ∈ s.foldedNames := by
  by_cases happlied : entry.name ∈ alreadyApplied (readNode s.nodes hour.id)
  · exact Or.inr (h.applied_subset hour.id happlied)
  · exact Or.inl (mem_newEntries.mpr ⟨hmem, happlied⟩)

theorem Kept.mono (hfolds : s.folds ⊆ next.folds) (hpropagated : s.propagated ⊆ next.propagated)
    (h : Kept env s entry) : Kept env next entry := by
  obtain ⟨fold, hfold, hentry, hhour, run, hle, hids⟩ := h
  exact ⟨fold, hfolds hfold, hentry, hhour, run, hle, fun id hid => hpropagated (hids id hid)⟩

/-- A leaf is written with what is new in the buffer. -/
theorem Accounted.foldLeaf (h : Accounted env s) (hrun : s.run = some run)
    (hphase : run.phase = .folding (hour :: hours)) (summary input : String) (nowMs : Int) :
    let existing := readNode s.nodes hour.id
    let group := hourGroup env run.snapshot hour
    Accounted env
      { s.enter run (.folding hours) with
        nodes := writeNode (foldedLeaf hour group existing summary nowMs) s.nodes
        folds := s.folds ++ [⟨run.number, hour, newEntries existing group, input⟩] } := by
  intro existing group
  have hprogress := h.run run hrun
  have hreached := hprogress.reached
  rw [hphase] at hreached
  obtain ⟨hbuffer, hdone⟩ := hreached
  let leaf := foldedLeaf hour group existing summary nowMs
  let after : Runtime :=
    { s.enter run (.folding hours) with
      nodes := writeNode leaf s.nodes
      folds := s.folds ++ [⟨run.number, hour, newEntries existing group, input⟩] }
  have hnames : after.foldedNames = s.foldedNames ++ (newEntries existing group).map Entry.name := by
    change ((s.folds ++ [_]).flatMap Fold.entries).map Entry.name = _
    rw [List.flatMap_append, List.map_append, List.flatMap_singleton]
    rfl
  have hgroup : ∀ entry ∈ newEntries existing group, entry ∈ run.snapshot ∧
      env.hourOf entry.name.millis = hour :=
    fun entry hmem => mem_hourGroup.mp (mem_newEntries.mp hmem).1
  have hsame : ∀ entry ∈ s.buffer, ∀ other ∈ newEntries existing group, other.name = entry.name →
      other = entry := fun entry hmem other hother heq =>
    eq_of_pk_eq h.names (hprogress.snapshot (hgroup other hother).1) (h.buffer.subset hmem) heq
  have hread : ∀ other : Hour, other ≠ hour → readNode after.nodes other.id = readNode s.nodes other.id :=
    fun other hne => readNode_writeNode_of_ne fun heq => hne (hourId_injective heq).symm
  have happlied : alreadyApplied (readNode after.nodes hour.id) = group.map Entry.name := by
    have hself := readNode_writeNode_self leaf s.nodes
    exact congrArg alreadyApplied hself
  have hfresh : ∀ entry ∈ s.buffer, entry.name ∈ after.foldedNames → entry ∈ run.snapshot := by
    intro entry hmem hfolded
    rw [hnames, List.mem_append] at hfolded
    rcases hfolded with hold | hnew
    · exact hprogress.fresh entry hmem hold
    · obtain ⟨other, hother, heq⟩ := List.mem_map.mp hnew
      exact hsame entry hmem other hother heq ▸ (hgroup other hother).1
  refine ⟨h.names, h.buffer, ?_, ?_, ?_, ?_, ?_, ?_⟩
  · intro fold hfold
    rcases List.mem_append.mp hfold with hold | hlast
    · exact h.folds fold hold
    · obtain rfl := List.mem_singleton.mp hlast
      refine ⟨hprogress.number.le, fun entry hentry => ?_⟩
      exact ⟨hprogress.snapshot (hgroup entry hentry).1, (hgroup entry hentry).2.symm⟩
  · change after.foldedNames.Nodup
    rw [hnames, List.nodup_append]
    refine ⟨h.once, ?_, fun name hold other hnew heq => ?_⟩
    · have hsub : (newEntries existing group).Sublist run.snapshot :=
        List.filter_sublist.trans List.filter_sublist
      exact hprogress.distinct.sublist (hsub.map _)
    · obtain ⟨entry, hentry, rfl⟩ := List.mem_map.mp hnew
      obtain ⟨hin, hhour⟩ := hgroup entry hentry
      have hcovered := h.covered entry (hbuffer hin) (heq ▸ hold)
      rw [hhour] at hcovered
      exact (mem_newEntries.mp hentry).2 hcovered
  · intro node hnode
    change metadataNames node.metadata ⊆ after.foldedNames
    rw [hnames]
    rcases mem_upsert hnode with rfl | hold
    · change metadataNames (some (.receipt (group.map Entry.name) (previousMetadata existing))) ⊆ _
      rw [metadataNames_receipt]
      intro name hname
      rcases List.mem_append.mp hname with hin | hunder
      · obtain ⟨entry, hentry, rfl⟩ := List.mem_map.mp hin
        rcases h.new_or_folded hentry with hnew | hfolded
        · exact List.mem_append_right _ (List.mem_map_of_mem hnew)
        · exact List.mem_append_left _ hfolded
      · have hbefore := metadataNames_previousMetadata existing hunder
        cases hexisting : existing with
        | none =>
            rw [hexisting] at hbefore
            exact absurd hbefore List.not_mem_nil
        | some node =>
            rw [hexisting] at hbefore
            obtain ⟨-, row, hrow, hmetadata⟩ := readNode_some hexisting
            exact List.mem_append_left _ (h.receipts row hrow (hmetadata ▸ hbefore))
    · exact fun name hname => List.mem_append_left _ (h.receipts node hold hname)
  · intro entry hmem hfolded
    change entry.name ∈ alreadyApplied (readNode after.nodes _)
    by_cases hhour : env.hourOf entry.name.millis = hour
    · rw [hhour, happlied]
      exact List.mem_map_of_mem (mem_hourGroup.mpr ⟨hfresh entry hmem hfolded, hhour⟩)
    · rw [hread _ hhour]
      change entry.name ∈ after.foldedNames at hfolded
      rw [hnames, List.mem_append] at hfolded
      refine h.covered entry hmem (hfolded.resolve_right fun hnew => hhour ?_)
      obtain ⟨other, hother, heq⟩ := List.mem_map.mp hnew
      exact hsame entry hmem other hother heq ▸ (hgroup other hother).2
  · intro entry hmem hnot
    exact (h.deleted entry hmem hnot).mono (List.subset_append_left _ _) (List.Subset.refl _)
  · intro other hother
    obtain rfl := Option.some.inj hother
    refine ⟨hprogress.number, hprogress.snapshot, hprogress.distinct, hfresh, hbuffer, fun entry hmem => ?_⟩
    change _ ∨ entry.name ∈ after.foldedNames ∧ (readNode after.nodes _).isSome
    rw [hnames]
    by_cases hhour : env.hourOf entry.name.millis = hour
    · refine Or.inr ⟨?_, ?_⟩
      · rcases h.new_or_folded (mem_hourGroup.mpr ⟨hmem, hhour⟩) with hnew | hfolded
        · exact List.mem_append_right _ (List.mem_map_of_mem hnew)
        · exact List.mem_append_left _ hfolded
      · rw [hhour]
        have hself := readNode_writeNode_self leaf s.nodes
        exact (congrArg Option.isSome hself).trans rfl
    · rcases hdone entry hmem with hin | ⟨hfolded, hleaf⟩
      · exact Or.inl ((List.mem_cons.mp hin).resolve_left hhour)
      · exact Or.inr ⟨List.mem_append_left _ hfolded, readNode_isSome_writeNode leaf hleaf⟩

theorem Accounted.foldHour (h : Accounted env s) (hrun : s.run = some run)
    (hphase : run.phase = .folding (hour :: hours)) (reply : Option String) (nowMs : Int) :
    Accounted env (foldHour env reply nowMs s run hour hours) := by
  unfold Runtime.foldHour
  dsimp only
  split_ifs with hnone hleaf
  · refine h.enter hrun ?_
    have hreached := (h.run run hrun).reached
    rw [hphase] at hreached
    refine ⟨hreached.1, fun entry hmem => ?_⟩
    by_cases hhour : env.hourOf entry.name.millis = hour
    · rcases h.new_or_folded (mem_hourGroup.mpr ⟨hmem, hhour⟩) with hnew | hfolded
      · rw [hnone] at hnew
        exact absurd hnew List.not_mem_nil
      · exact Or.inr ⟨hfolded, hhour.symm ▸ hleaf⟩
    · exact (hreached.2 entry hmem).imp_left fun hin => (List.mem_cons.mp hin).resolve_left hhour
  · exact h.halt
  · split
    · exact h.halt
    · exact h.foldLeaf hrun hphase _ _ nowMs

/-! ### Propagation -/

theorem ancestors_length {id : NodeId} (h : id ∈ hour.ancestors) : id.length < hour.id.length := by
  simp only [Hour.ancestors, List.mem_cons, List.not_mem_nil, or_false] at h
  rcases h with rfl | rfl | rfl | rfl
  all_goals simp [Hour.id]

/-- Below every node over an hour is another one, or the leaf. -/
theorem ancestors_child {id : NodeId} (h : id ∈ hour.ancestors) :
    ∃ child, child.dropLast = id ∧ child.length = id.length + 1 ∧
      (child = hour.id ∨ child ∈ hour.ancestors) := by
  simp only [Hour.ancestors, List.mem_cons, List.not_mem_nil, or_false] at h ⊢
  rcases h with rfl | rfl | rfl | rfl
  · exact ⟨hour.id, rfl, rfl, Or.inl rfl⟩
  · exact ⟨_, rfl, rfl, Or.inr (Or.inl rfl)⟩
  · exact ⟨_, rfl, rfl, Or.inr (Or.inr (Or.inl rfl))⟩
  · exact ⟨[hour.year], rfl, rfl, Or.inr (Or.inr (Or.inr (Or.inl rfl)))⟩

/-- The levels below the next node are written, so it has children. -/
theorem Accounted.children_ne_nil (h : Accounted env s) (hrun : s.run = some run) {id : NodeId}
    {ids : List NodeId} (hphase : run.phase = .propagating (id :: ids) []) :
    readChildren s.nodes id ≠ [] := by
  have hreached := (h.run run hrun).reached
  rw [hphase] at hreached
  obtain ⟨hfolded, hsorted, hids, hdone⟩ := hreached
  obtain ⟨entry, hentry, hover⟩ := hids id List.mem_cons_self
  obtain ⟨child, rfl, hlength, hleaf⟩ := ancestors_child hover
  have hroot : child ≠ [] := by
    rintro rfl
    cases hlength
  refine readChildren_ne_nil ?_ hroot
  rcases hleaf with rfl | hchild
  · exact (hfolded entry hentry).2
  · rcases hdone rfl entry hentry child hchild with hlater | hwritten
    · have hle : child.length ≤ child.dropLast.length := by
        rcases List.mem_cons.mp hlater with heq | hrest
        · exact (congrArg List.length heq).le
        · exact (List.pairwise_cons.mp hsorted).1 child hrest
      omega
    · exact hwritten.1

/-- A node above the leaves is written. -/
theorem Accounted.writeUpper (h : Accounted env s) (hrun : s.run = some run) {id : NodeId}
    {ids failed : List NodeId} (hphase : run.phase = .propagating (id :: ids) failed) {written : TreeNode}
    (hid : written.id = id) (hmetadata : written.metadata = none) :
    Accounted env
      { s.enter run (.propagating ids failed) with
        nodes := writeNode written s.nodes
        propagated := s.propagated ++ [(run.number, id)] } := by
  have hprogress := h.run run hrun
  have hreached := hprogress.reached
  rw [hphase] at hreached
  obtain ⟨hfolded, hsorted, hids, hdone⟩ := hreached
  obtain ⟨entry, -, hover⟩ := hids id List.mem_cons_self
  have hleaf : ∀ other : Hour, readNode (writeNode written s.nodes) other.id = readNode s.nodes other.id := by
    refine fun other => readNode_writeNode_of_ne fun heq => ?_
    have hlength := ancestors_length hover
    rw [← hid, heq] at hlength
    exact lt_irrefl _ hlength
  refine ⟨h.names, h.buffer, h.folds, h.once, ?_, ?_, ?_, ?_⟩
  · intro node hnode
    rcases mem_upsert hnode with rfl | hold
    · rw [hmetadata]
      exact List.nil_subset _
    · exact h.receipts node hold
  · intro entry hmem hname
    change entry.name ∈ alreadyApplied (readNode (writeNode written s.nodes) _)
    rw [hleaf]
    exact h.covered entry hmem hname
  · intro entry hmem hnot
    exact (h.deleted entry hmem hnot).mono (List.Subset.refl s.folds) (List.subset_append_left _ _)
  · intro other hother
    obtain rfl := Option.some.inj hother
    refine ⟨hprogress.number, hprogress.snapshot, hprogress.distinct, hprogress.fresh, ?_, ?_, ?_, ?_⟩
    · exact fun entry hmem => ⟨(hfolded entry hmem).1, readNode_isSome_writeNode written (hfolded entry hmem).2⟩
    · exact (List.pairwise_cons.mp hsorted).2
    · exact fun other hmem => hids other (List.mem_cons_of_mem _ hmem)
    · intro hnone entry hmem other hother
      by_cases heq : other = id
      · refine Or.inr ⟨?_, List.mem_append_right _ (heq ▸ List.mem_cons_self)⟩
        change (readNode (writeNode written s.nodes) other).isSome
        rw [heq, ← hid, readNode_writeNode_self]
        rfl
      · rcases hdone hnone entry hmem other hother with hlater | ⟨hpresent, hlogged⟩
        · exact Or.inl ((List.mem_cons.mp hlater).resolve_left heq)
        · exact Or.inr ⟨readNode_isSome_writeNode written hpresent, List.mem_append_left _ hlogged⟩

theorem Accounted.propagate (h : Accounted env s) (hrun : s.run = some run) {id : NodeId}
    {ids failed : List NodeId} (hphase : run.phase = .propagating (id :: ids) failed)
    (reply : Option String) (nowMs : Int) :
    Accounted env (propagate env reply nowMs s run id ids failed) := by
  have hreached := (h.run run hrun).reached
  rw [hphase] at hreached
  obtain ⟨hfolded, hsorted, hids, hdone⟩ := hreached
  have hlater : ∀ other ∈ ids, ∃ entry ∈ run.snapshot, other ∈ (env.hourOf entry.name.millis).ancestors :=
    fun other hmem => hids other (List.mem_cons_of_mem _ hmem)
  unfold Runtime.propagate
  split
  · refine h.enter hrun ⟨hfolded, (List.pairwise_cons.mp hsorted).2, hlater, fun hnone => ?_⟩
    exact absurd hnone (List.append_ne_nil_of_right_ne_nil _ (List.cons_ne_nil _ _))
  · rename_i nodes hnodes
    rcases propagateNode_some hnodes with ⟨hnone, rfl⟩ | ⟨hsome, written, hid, hmetadata, rfl⟩
    · rw [if_pos hnone]
      refine h.enter hrun ⟨hfolded, (List.pairwise_cons.mp hsorted).2, hlater, fun hfailed => ?_⟩
      rw [hfailed] at hphase
      exact absurd hnone (h.children_ne_nil hrun hphase)
    · rw [if_neg hsome]
      exact h.writeUpper hrun hphase hid hmetadata

/-! ### The end of a run -/

theorem Accounted.delete (h : Accounted env s) (hrun : s.run = some run) {name : BufferName}
    {names : List BufferName} (hphase : run.phase = .deleting (name :: names)) :
    Accounted env
      { s.enter run (.deleting names) with buffer := s.buffer.filter fun entry => entry.name ≠ name } := by
  have hprogress := h.run run hrun
  have hreached := hprogress.reached
  rw [hphase] at hreached
  obtain ⟨hdone, hnames, hleft⟩ := hreached
  have hsub : ∀ entry ∈ s.buffer.filter (fun entry => entry.name ≠ name), entry ∈ s.buffer ∧ entry.name ≠ name :=
    fun entry hmem => ⟨(List.mem_filter.mp hmem).1, of_decide_eq_true (List.mem_filter.mp hmem).2⟩
  refine ⟨h.names, List.filter_sublist.trans h.buffer, h.folds, h.once, h.receipts, ?_, ?_, ?_⟩
  · exact fun entry hmem => h.covered entry (hsub entry hmem).1
  · intro entry hmem hnot
    by_cases hin : entry ∈ s.buffer
    · have hname : entry.name = name := by
        by_contra hne
        exact hnot (List.mem_filter.mpr ⟨hin, decide_eq_true hne⟩)
      obtain ⟨other, hother, heq⟩ := List.mem_map.mp (hnames List.mem_cons_self)
      obtain rfl := eq_of_pk_eq h.names (hprogress.snapshot hother) hmem (heq.trans hname.symm)
      obtain ⟨⟨hfolded, -⟩, hpropagated⟩ := hdone other hother
      exact h.kept hmem hfolded hprogress.number hpropagated
    · exact h.deleted entry hmem hin
  · intro other hother
    obtain rfl := Option.some.inj hother
    refine ⟨hprogress.number, hprogress.snapshot, hprogress.distinct, ?_, hdone, ?_, ?_⟩
    · exact fun entry hmem => hprogress.fresh entry (hsub entry hmem).1
    · exact fun other hmem => hnames (List.mem_cons_of_mem _ hmem)
    · intro entry hmem hin
      obtain ⟨hold, hne⟩ := hsub entry hmem
      exact (List.mem_cons.mp (hleft entry hold hin)).resolve_left hne

theorem Accounted.clear (h : Accounted env s) (hrun : s.run = some run)
    (hphase : run.phase = .clearing (hour :: hours)) :
    Accounted env { s.enter run (.clearing hours) with nodes := clearReceipt hour s.nodes } := by
  have hprogress := h.run run hrun
  have hreached := hprogress.reached
  rw [hphase] at hreached
  obtain ⟨hfolded, hgone⟩ := hreached
  rcases clearReceipt_cases hour s.nodes with ⟨heq, -⟩ | ⟨node, names, previous, hread, hmetadata, heq⟩
  · rw [heq]
    exact h.enter hrun ⟨hfolded, hgone⟩
  · rw [heq]
    refine ⟨h.names, h.buffer, h.folds, h.once, ?_, ?_, h.deleted, ?_⟩
    · intro other hother
      rcases mem_upsert hother with rfl | hold
      · obtain ⟨-, row, hrow, hsame⟩ := readNode_some hread
        refine List.Subset.trans ?_ (h.receipts row hrow)
        rw [hsame, hmetadata, metadataNames_receipt]
        exact List.subset_append_right _ _
      · exact h.receipts other hold
    · intro entry hmem hname
      exact absurd (hprogress.fresh entry hmem hname) (hgone entry hmem)
    · intro other hother
      obtain rfl := Option.some.inj hother
      refine ⟨hprogress.number, hprogress.snapshot, hprogress.distinct, hprogress.fresh, ?_, hgone⟩
      exact fun entry hmem => ⟨(hfolded entry hmem).1, readNode_isSome_writeNode _ (hfolded entry hmem).2⟩

theorem Accounted.advance (h : Accounted env s) (hrun : s.run = some run) (reply : Option String)
    (nowMs : Int) : Accounted env (advance env reply nowMs s run) := by
  have hreached := (h.run run hrun).reached
  unfold Runtime.advance
  split
  · rename_i hphase
    rw [hphase] at hreached
    have hfolded : ∀ entry ∈ run.snapshot, Folded env s entry :=
      fun entry hmem => (hreached.2 entry hmem).resolve_left List.not_mem_nil
    refine h.enter hrun ⟨hfolded, propagationIds_sorted _, fun id hid => ?_, fun _ entry hmem id hid => ?_⟩
    · obtain ⟨hour, hhour, hover⟩ := mem_propagationIds.mp hid
      obtain ⟨entry, hmem, rfl⟩ := mem_groupHours.mp hhour
      exact ⟨entry, hmem, hover⟩
    · exact Or.inl (mem_propagationIds.mpr ⟨_, mem_groupHours.mpr ⟨entry, hmem, rfl⟩, hid⟩)
  · rename_i hphase
    exact h.foldHour hrun hphase reply nowMs
  · rename_i failed hphase
    rw [hphase] at hreached
    obtain ⟨hfolded, -, -, hdone⟩ := hreached
    split_ifs with hnone
    · refine h.enter hrun ⟨fun entry hmem => ⟨hfolded entry hmem, fun id hid => ?_⟩, List.Subset.refl _,
        fun entry _ hmem => List.mem_map_of_mem hmem⟩
      exact ((hdone hnone entry hmem id hid).resolve_left List.not_mem_nil).2
    · exact h.halt
  · rename_i hphase
    exact h.propagate hrun hphase reply nowMs
  · rename_i hphase
    rw [hphase] at hreached
    obtain ⟨hdone, -, hleft⟩ := hreached
    exact h.enter hrun ⟨fun entry hmem => (hdone entry hmem).1,
      fun entry hmem hin => absurd (hleft entry hmem hin) List.not_mem_nil⟩
  · rename_i hphase
    exact h.delete hrun hphase
  · exact h.halt.setCompleted _
  · rename_i hphase
    exact h.clear hrun hphase

theorem Accounted.step (h : Accounted env s) {label : Label} (hnames : Names s label) :
    Accounted env (step env s label) := by
  cases label with
  | bufferWrite name content => exact h.bufferWrite hnames
  | start => exact h.start
  | advance reply nowMs =>
      rw [Runtime.step]
      split
      · exact h.setCompleted none
      · rename_i run hrun
        exact (h.setCompleted none).advance hrun reply nowMs
  | crash => exact h.halt.setCompleted none

/-! ### What the leaves keep under their receipts -/

/-- The leaf of an hour is there with the metadata that it had before. -/
def Restored (initial : List TreeNode) (s : Runtime) (hour : Hour) : Prop :=
  ∃ node, readNode s.nodes hour.id = some node ∧ node.metadata = metadataBefore initial hour.id

/-- Under at most one receipt, every leaf has the metadata that it had before. -/
structure Restorable (env : RuntimeEnv) (initial : List TreeNode) (s : Runtime) : Prop where
  metadata : ∀ (hour : Hour) (node : TreeNode), readNode s.nodes hour.id = some node →
    node.metadata = metadataBefore initial hour.id ∨
      ∃ names, node.metadata = some (.receipt names (metadataBefore initial hour.id))
  absent : ∀ hour : Hour, readNode s.nodes hour.id = none → metadataBefore initial hour.id = none
  clearing : ∀ run left, s.run = some run → run.phase = .clearing left →
    ∀ hour ∈ groupHours env run.snapshot, hour ∈ left ∨ Restored initial s hour
  completed : ∀ hours, s.completed = some hours → ∀ hour ∈ hours, Restored initial s hour

theorem restorable_empty (env : RuntimeEnv) (initial : List TreeNode) :
    Restorable env initial (empty initial) where
  metadata := fun hour node hread => by
    rw [metadataBefore]
    change readNode initial hour.id = some node at hread
    exact Or.inl (hread ▸ rfl)
  absent := fun hour hread => by
    rw [metadataBefore]
    change readNode initial hour.id = none at hread
    exact hread ▸ rfl
  clearing := fun _ _ h => nomatch h
  completed := fun _ h => nomatch h

theorem pendingFoldReceipt_before (hclean : ∀ node ∈ initial, pendingFoldReceipt node.metadata = none)
    (id : NodeId) : pendingFoldReceipt (metadataBefore initial id) = none := by
  rw [metadataBefore]
  cases hread : readNode initial id with
  | none => rfl
  | some node =>
      obtain ⟨-, row, hrow, hmetadata⟩ := readNode_some hread
      rw [Option.bind_some, ← hmetadata]
      exact hclean row hrow

/-- The leaves stay, and the run goes anywhere but on with its clearing. -/
theorem Restorable.of_leaves (h : Restorable env initial s)
    (hleaves : ∀ hour : Hour, readNode next.nodes hour.id = readNode s.nodes hour.id)
    (hrun : ∀ run left, next.run = some run → run.phase = .clearing left →
      ∀ hour ∈ groupHours env run.snapshot, hour ∈ left ∨ Restored initial s hour)
    (hcompleted : next.completed = none) : Restorable env initial next where
  metadata := fun hour node hread => h.metadata hour node (hleaves hour ▸ hread)
  absent := fun hour hread => h.absent hour (hleaves hour ▸ hread)
  clearing := by
    intro run left hrun' hphase hour hhour
    refine (hrun run left hrun' hphase hour hhour).imp_right fun hrestored => ?_
    rw [Restored, hleaves]
    exact hrestored
  completed := fun _ h => by
    rw [hcompleted] at h
    cases h

/-- What a fold puts under its receipt is the metadata from before, unless it takes the receipt for it. -/
theorem Restorable.previousMetadata (h : Restorable env initial s)
    (hclean : ∀ node ∈ initial, pendingFoldReceipt node.metadata = none) (hour : Hour)
    (hsome : ∀ receipt ∈ leafReceipt (readNode s.nodes hour.id), receipt.previousMetadata.isSome) :
    previousMetadata (readNode s.nodes hour.id) = metadataBefore initial hour.id := by
  cases hread : readNode s.nodes hour.id with
  | none => exact (h.absent hour hread).symm
  | some node =>
      rw [hread] at hsome
      rw [TimeTree.previousMetadata, leafReceipt, Option.bind_some, Option.bind_some]
      rcases h.metadata hour node hread with hbefore | ⟨names, hreceipt⟩
      · rw [hbefore, pendingFoldReceipt_before hclean]
        rfl
      · have hpending : pendingFoldReceipt node.metadata = some ⟨names, metadataBefore initial hour.id⟩ :=
          congrArg pendingFoldReceipt hreceipt
        have hbase := hsome ⟨names, metadataBefore initial hour.id⟩ hpending
        obtain ⟨metadata, hmetadata⟩ := Option.isSome_iff_exists.mp hbase
        dsimp only at hmetadata
        rw [hpending, Option.bind_some, hmetadata]
        rfl

/-- A leaf is written with the metadata from before, or with a receipt over it. -/
theorem Restorable.writeLeaf (h : Restorable env initial s) {leaf : TreeNode} (hid : leaf.id = hour.id)
    (hleaf : leaf.metadata = metadataBefore initial hour.id ∨
      ∃ names, leaf.metadata = some (.receipt names (metadataBefore initial hour.id)))
    (hnodes : next.nodes = writeNode leaf s.nodes)
    (hrun : ∀ run left, next.run = some run → run.phase = .clearing left →
      ∀ hour ∈ groupHours env run.snapshot, hour ∈ left ∨ Restored initial next hour)
    (hcompleted : next.completed = none) : Restorable env initial next := by
  have hself := readNode_writeNode_self leaf s.nodes
  rw [hid] at hself
  have hother : ∀ other : Hour, other ≠ hour →
      readNode (writeNode leaf s.nodes) other.id = readNode s.nodes other.id :=
    fun other hne => readNode_writeNode_of_ne fun heq => hne (hourId_injective (hid.symm.trans heq)).symm
  refine ⟨fun other node hread => ?_, fun other hread => ?_, hrun, fun _ hdone => ?_⟩
  · rw [hnodes] at hread
    by_cases heq : other = hour
    · rw [heq] at hread ⊢
      obtain rfl := Option.some.inj (hself.symm.trans hread)
      exact hleaf
    · rw [hother other heq] at hread
      exact h.metadata other node hread
  · rw [hnodes] at hread
    by_cases heq : other = hour
    · rw [heq] at hread
      cases hself.symm.trans hread
    · rw [hother other heq] at hread
      exact h.absent other hread
  · exact absurd (hcompleted.symm.trans hdone) (Option.some_ne_none _).symm

theorem Restorable.foldHour (h : Restorable env initial s) (hcompleted : s.completed = none)
    (hclean : ∀ node ∈ initial, pendingFoldReceipt node.metadata = none)
    (hsome : ∀ receipt ∈ leafReceipt (readNode s.nodes hour.id),
      newEntries (readNode s.nodes hour.id) (hourGroup env run.snapshot hour) ≠ [] →
        receipt.previousMetadata.isSome) (reply : Option String) (nowMs : Int) :
    Restorable env initial (foldHour env reply nowMs s run hour hours) := by
  have hfolding : ∀ (P : Run → List Hour → Prop) other left,
      some { run with phase := Phase.folding hours } = some other → other.phase = .clearing left →
        P other left := by
    intro P other left hother hphase
    obtain rfl := Option.some.inj hother
    cases hphase
  have hhalted : Restorable env initial s.halt :=
    h.of_leaves (fun _ => rfl) (fun _ _ h => nomatch h) hcompleted
  unfold Runtime.foldHour
  dsimp only
  split_ifs with hnone hleaf
  · exact h.of_leaves (fun _ => rfl) (hfolding _) hcompleted
  · exact hhalted
  · split
    · exact hhalted
    · have hprevious := h.previousMetadata hclean hour fun receipt hmem => hsome receipt hmem hnone
      refine h.writeLeaf rfl (Or.inr ⟨(hourGroup env run.snapshot hour).map Entry.name, ?_⟩) rfl (hfolding _)
        hcompleted
      exact congrArg (fun previous => some (Metadata.receipt _ previous)) hprevious

theorem Restorable.clear (h : Restorable env initial s) (haccounted : Accounted env s)
    (hcompleted : s.completed = none) (hrun : s.run = some run)
    (hphase : run.phase = .clearing (hour :: hours))
    (hclean : ∀ node ∈ initial, pendingFoldReceipt node.metadata = none) :
    Restorable env initial { s.enter run (.clearing hours) with nodes := clearReceipt hour s.nodes } := by
  have hreached := (haccounted.run run hrun).reached
  rw [hphase] at hreached
  obtain ⟨hfolded, -⟩ := hreached
  have hclearing := h.clearing run _ hrun hphase
  have hbefore := pendingFoldReceipt_before hclean
  rcases clearReceipt_cases hour s.nodes with ⟨heq, hnone⟩ | ⟨node, names, previous, hread, hmetadata, heq⟩
  · rw [heq]
    refine h.of_leaves (fun _ => rfl) (fun other left hother hleft hour' hmem => ?_) hcompleted
    obtain rfl := Option.some.inj hother
    obtain rfl := Phase.clearing.inj hleft
    rcases hclearing hour' hmem with hleft | hrestored
    · rcases List.mem_cons.mp hleft with rfl | hin
      · obtain ⟨entry, hentry, rfl⟩ := mem_groupHours.mp hmem
        obtain ⟨node, hread⟩ := Option.isSome_iff_exists.mp (hfolded entry hentry).2
        rcases h.metadata _ node hread with hsame | ⟨names, hreceipt⟩
        · exact Or.inr ⟨node, hread, hsame⟩
        · have hpending := hnone node hread
          rw [hreceipt] at hpending
          cases hpending
      · exact Or.inl hin
    · exact Or.inr hrestored
  · have hprevious : previous = metadataBefore initial hour.id := by
      rcases h.metadata hour node hread with hsame | ⟨names', hreceipt⟩
      · have hpending := hbefore hour.id
        rw [← hsame, hmetadata] at hpending
        cases hpending
      · rw [hmetadata] at hreceipt
        exact (Metadata.receipt.inj (Option.some.inj hreceipt)).2
    obtain ⟨hid, -⟩ := readNode_some hread
    let leaf : TreeNode := { node with metadata := previous }
    have hleaf : leaf.id = hour.id := hid
    rw [heq]
    refine h.writeLeaf hleaf (Or.inl hprevious) rfl (fun other left hother hleft hour' hmem => ?_) hcompleted
    obtain rfl := Option.some.inj hother
    obtain rfl := Phase.clearing.inj hleft
    by_cases hsame : hour' = hour
    · have hself := readNode_writeNode_self leaf s.nodes
      rw [hleaf] at hself
      rw [hsame]
      exact Or.inr ⟨_, hself, hprevious⟩
    · have hother : readNode (writeNode leaf s.nodes) hour'.id = readNode s.nodes hour'.id :=
        readNode_writeNode_of_ne fun heq => hsame (hourId_injective (hleaf.symm.trans heq)).symm
      rcases hclearing hour' hmem with hin | ⟨found, hfound, hrestored⟩
      · exact Or.inl ((List.mem_cons.mp hin).resolve_left hsame)
      · exact Or.inr ⟨found, hother.trans hfound, hrestored⟩

theorem Restorable.enter (h : Restorable env initial s) (hcompleted : s.completed = none) {phase : Phase}
    (hphase : ∀ left, phase = .clearing left →
      ∀ hour ∈ groupHours env run.snapshot, hour ∈ left ∨ Restored initial s hour) :
    Restorable env initial (s.enter run phase) := by
  refine h.of_leaves (fun _ => rfl) (fun other left hother hleft => ?_) hcompleted
  obtain rfl := Option.some.inj hother
  exact hphase left hleft

theorem Restorable.advance (h : Restorable env initial s) (haccounted : Accounted env s)
    (hcompleted : s.completed = none) (hrun : s.run = some run)
    (hclean : ∀ node ∈ initial, pendingFoldReceipt node.metadata = none) {reply : Option String} {nowMs : Int}
    (hkeeps : KeepsMetadata env s (.advance reply nowMs)) :
    Restorable env initial (advance env reply nowMs s run) := by
  have hhalted : Restorable env initial s.halt :=
    h.of_leaves (fun _ => rfl) (fun _ _ h => nomatch h) hcompleted
  unfold Runtime.advance
  split
  · exact h.enter hcompleted fun _ hleft => nomatch hleft
  · rename_i hour hours hphase
    have hnext : Run.nextHour run = some hour := by
      rw [Run.nextHour, hphase]
    exact h.foldHour hcompleted hclean (hkeeps run hrun hour hnext) reply nowMs
  · split_ifs
    · exact h.enter hcompleted fun _ hleft => nomatch hleft
    · exact hhalted
  · rename_i id ids failed hphase
    have hreached := (haccounted.run run hrun).reached
    rw [hphase] at hreached
    obtain ⟨-, -, hids, -⟩ := hreached
    obtain ⟨entry, -, hover⟩ := hids id List.mem_cons_self
    have hrunning : ∀ other left, some { run with phase := Phase.propagating ids failed } = some other →
        other.phase = .clearing left → ∀ hour ∈ groupHours env other.snapshot,
          hour ∈ left ∨ Restored initial s hour := by
      intro other left hother hleft
      obtain rfl := Option.some.inj hother
      cases hleft
    unfold propagate
    split
    · exact h.enter hcompleted fun _ hleft => nomatch hleft
    · rename_i nodes hnodes
      refine h.of_leaves (fun other => ?_) hrunning hcompleted
      rcases propagateNode_some hnodes with ⟨-, rfl⟩ | ⟨-, written, hid, -, rfl⟩
      · rfl
      · refine readNode_writeNode_of_ne fun heq => ?_
        have hlength := ancestors_length hover
        rw [← hid, heq] at hlength
        exact lt_irrefl _ hlength
  · exact h.enter hcompleted fun left hleft hour hmem => Or.inl (Phase.clearing.inj hleft ▸ hmem)
  · refine h.of_leaves (fun _ => rfl) (fun other left hother hleft => ?_) hcompleted
    obtain rfl := Option.some.inj hother
    cases hleft
  · rename_i hphase
    refine ⟨h.metadata, h.absent, fun _ _ hnone => (nomatch hnone), fun hours hhours hour hmem => ?_⟩
    obtain rfl := Option.some.inj hhours
    exact (h.clearing run [] hrun hphase hour hmem).resolve_left List.not_mem_nil
  · rename_i hphase
    exact h.clear haccounted hcompleted hrun hphase hclean

theorem Restorable.step (h : Restorable env initial s) (haccounted : Accounted env s)
    (hclean : ∀ node ∈ initial, pendingFoldReceipt node.metadata = none) {label : Label}
    (hkeeps : KeepsMetadata env s label) : Restorable env initial (step env s label) := by
  have hidle : Restorable env initial { s with completed := none } :=
    h.of_leaves (fun _ => rfl) h.clearing rfl
  cases label with
  | bufferWrite name content => exact h.of_leaves (fun _ => rfl) h.clearing rfl
  | start =>
      rw [Runtime.step]
      split_ifs
      · refine h.of_leaves (fun _ => rfl) (fun other left hother hleft => ?_) rfl
        obtain rfl := Option.some.inj hother
        cases hleft
      · exact hidle
  | advance reply nowMs =>
      rw [Runtime.step]
      split
      · exact hidle
      · rename_i run hrun
        exact hidle.advance (haccounted.setCompleted none) rfl hrun hclean hkeeps
  | crash => exact h.of_leaves (fun _ => rfl) (fun _ _ h => nomatch h) rfl

/-- In every run on a namespace whose leaves have no receipts, with crashes and failures anywhere, every
entry is folded once, provided that nothing is folded over a receipt that has no metadata under it. -/
theorem foldedOnce_run (env : RuntimeEnv) (initial : List TreeNode) (labels : List Label)
    (hclean : ∀ node ∈ initial, pendingFoldReceipt node.metadata = none)
    (hnames : (machine env initial).AllSteps Names labels)
    (hkeeps : (machine env initial).AllSteps (KeepsMetadata env) labels) :
    (machine env initial).Throughout (FoldedOnce env initial) labels := by
  have hboth : (machine env initial).AllSteps (fun s label => Names s label ∧ KeepsMetadata env s label)
      labels := fun done label rest heq => ⟨hnames done label rest heq, hkeeps done label rest heq⟩
  have hbare : ∀ node ∈ initial, metadataNames node.metadata = [] := by
    intro node hnode
    rcases hmetadata : node.metadata with _ | ⟨value | ⟨names, previous⟩⟩
    · rfl
    · rfl
    · have hnone := hclean node hnode
      rw [hmetadata] at hnone
      cases hnone
  have hstep : ∀ s label, Accounted env s ∧ Restorable env initial s →
      Names s label ∧ KeepsMetadata env s label →
        Accounted env ((machine env initial).step s label) ∧
          Restorable env initial ((machine env initial).step s label) :=
    fun s label h hok => ⟨h.1.step hok.1, h.2.step h.1 hclean hok.2⟩
  have hstart := And.intro (accounted_empty env hbare) (restorable_empty env initial)
  refine (machine env initial).throughout_of_steps hstart hstep ?_ hboth
  rintro s ⟨haccounted, h⟩
  refine ⟨haccounted.once, haccounted.deleted, fun hours hhours hour hmem => ?_⟩
  obtain ⟨node, hread, hmetadata⟩ := h.completed hours hhours hour hmem
  exact ⟨node, hread, hmetadata ▸ pendingFoldReceipt_before hclean hour.id, hmetadata⟩

/-- A day of hours, and a token for each character. -/
def dayEnv : RuntimeEnv := ⟨fun millis => ⟨2024, 3, 15, (millis / 3600000).toNat⟩, String.length, fun _ => 100⟩

/-- The steps of a run whose summariser answers. -/
def steps (n : Nat) : List Label := List.replicate n (.advance (some "summary") 7)

/-- A leaf that has metadata of its own. -/
def taggedLeaf : TreeNode := ⟨[2024, 3, 15, 0], "before", 0, 1, 1, some (.text "tagged")⟩

/-- A run dies after it wrote the leaf; another one folds a later entry of the hour and completes. -/
def lateEntry : List Label :=
  [.bufferWrite ⟨0, "a"⟩ "one", .start] ++ steps 1 ++
    [.crash, .bufferWrite ⟨1, "b"⟩ "two", .start] ++ steps 12

theorem foldedOnce_run_lateEntry :
    (machine dayEnv [taggedLeaf]).Throughout (FoldedOnce dayEnv [taggedLeaf]) lateEntry := by
  refine foldedOnce_run dayEnv [taggedLeaf] lateEntry ?_ ?_ ?_
  · intro node hnode
    rw [List.mem_singleton.mp hnode]
    rfl
  · exact (Machine.allSteps_iff_stepsFrom _).mpr (by decide)
  · exact (Machine.allSteps_iff_stepsFrom _).mpr (by decide)

theorem lateEntry_keepsReceipt :
    ¬∀ env initial labels, (∀ node ∈ initial, pendingFoldReceipt node.metadata = none) →
      (machine env initial).AllSteps Names labels →
      (machine env initial).Throughout (FoldedOnce env initial) labels := by
  intro hall
  have hnames : (machine dayEnv []).AllSteps Names lateEntry :=
    (Machine.allSteps_iff_stepsFrom _).mpr (by decide)
  have honce := hall dayEnv [] lateEntry (fun _ h => absurd h List.not_mem_nil) hnames lateEntry List.prefix_rfl
  obtain ⟨node, hread, hnone, -⟩ := honce.cleared [⟨2024, 3, 15, 0⟩] (by decide) ⟨2024, 3, 15, 0⟩
    List.mem_cons_self
  have hkept : (leafReceipt (readNode ((machine dayEnv []).run lateEntry).nodes
      (Hour.mk 2024 3 15 0).id)).isSome = true := by decide
  rw [hread, leafReceipt, Option.bind_some, hnone] at hkept
  cases hkept

end TinyCortex.TimeTree.Runtime
