import TinyCortex.Sources.Upserts

/-! What the registry persists (`sources/registry.rs`): over every run of its operations the sources in the file are
valid, as long as the upserts, which validate nothing, are given proper targets. -/

namespace TinyCortex.Sources

section Steps

variable {ω usd α : Type} {codec : TomlCodec ω usd} {faults : Faults} {file : ConfigFile ω}
  {sources entries : List (MemorySourceEntry usd)}

/-- The entries are in the file, beside what was in it. -/
def Saved (codec : TomlCodec ω usd) (faults : Faults) (file : ConfigFile ω) (entries : List (MemorySourceEntry usd))
    (file' : ConfigFile ω) : Prop :=
  ∃ table value, readTable faults.reread file = .ok table ∧ codec.encode entries = .ok value ∧ faults.write = none ∧
    file' = some (table.insert sourcesKey value)

/-- Saving writes the entries or fails and leaves the file. -/
theorem save_cases (answer : α) :
    (save codec faults file entries answer).1 = file ∧ (∃ e, (save codec faults file entries answer).2 = .error e) ∨
      Saved codec faults file entries (save codec faults file entries answer).1 ∧
        (save codec faults file entries answer).2 = .ok answer := by
  unfold save writeAll
  cases hread : readTable faults.reread file with
  | error e => exact Or.inl ⟨Eq.refl _, e, Eq.refl _⟩
  | ok table =>
      cases hencode : codec.encode entries with
      | error e => exact Or.inl ⟨Eq.refl _, e, Eq.refl _⟩
      | ok value =>
          cases hwrite : faults.write with
          | some e => exact Or.inl ⟨Eq.refl _, e, Eq.refl _⟩
          | none => exact Or.inr ⟨⟨table, value, hread, hencode, hwrite, Eq.refl _⟩, Eq.refl _⟩

/-- What the operations make of the sources, when they save. -/
def Change (operation : Operation usd) (sources entries : List (MemorySourceEntry usd)) : Prop :=
  match operation with
  | .add entry => validateEntry entry = .ok () ∧ entry.id ∉ sources.map (·.id) ∧ entries = sources ++ [entry]
  | .update id patch => ∃ entry, sources.find? (·.id = id) = some entry ∧
      validateEntry (patch.applyTo entry) = .ok () ∧ entries = updateFirst (·.id = id) patch.applyTo sources
  | .remove id => entries = sources.filter (·.id ≠ id)
  | .removeComposioSourceByConnectionId connectionId =>
      entries = sources.filter fun entry => !boundTo connectionId entry
  | .upsertComposioSource uuids target => entries = upsertAll uuids sources [target]
  | .upsertComposioSourcesBatch uuids targets => entries = upsertAll uuids sources targets
  | .applyAllIn => entries = sources.map allIn

/-- An operation leaves the file, or it saves a change of the sources in it and succeeds. -/
def Outcome (codec : TomlCodec ω usd) (faults : Faults) (file : ConfigFile ω) (operation : Operation usd)
    (file' : ConfigFile ω) (answer : Except String α) : Prop :=
  file' = file ∨ ∃ sources entries, list codec faults file = .ok sources ∧ Change operation sources entries ∧
    Saved codec faults file entries file' ∧ ∃ value, answer = .ok value

theorem outcome_save (operation : Operation usd) (hlist : list codec faults file = .ok sources)
    (hchange : Change operation sources entries) (answer : α) :
    Outcome codec faults file operation (save codec faults file entries answer).1
      (save codec faults file entries answer).2 := by
  have hcases : (save codec faults file entries answer).1 = file ∧ (∃ e, (save codec faults file entries answer).2 = .error e) ∨
      Saved codec faults file entries (save codec faults file entries answer).1 ∧
        (save codec faults file entries answer).2 = .ok answer := save_cases answer
  rcases hcases with
    ⟨hsame, -⟩ | ⟨hsaved, hanswer⟩
  · exact Or.inl hsame
  · exact Or.inr ⟨sources, entries, hlist, hchange, hsaved, answer, hanswer⟩

theorem outcome_load {operation : Operation usd}
    {k : List (MemorySourceEntry usd) → ConfigFile ω × Except String α}
    (h : ∀ sources, list codec faults file = .ok sources →
      Outcome codec faults file operation (k sources).1 (k sources).2) :
    Outcome codec faults file operation (load codec faults k file).1 (load codec faults k file).2 := by
  unfold load
  cases hlist : list codec faults file with
  | error e => exact Or.inl (Eq.refl _)
  | ok sources => exact h sources hlist

theorem outcome_add (entry : MemorySourceEntry usd) : Outcome codec faults file (.add entry)
    (add codec faults entry file).1 (add codec faults entry file).2 := by
  unfold add
  cases hvalid : validateEntry entry with
  | error e => exact Or.inl (Eq.refl _)
  | ok _ =>
      refine outcome_load fun sources hlist => ?_
      by_cases hany : sources.any (·.id = entry.id) = true
      · rw [if_pos hany]
        exact Or.inl (Eq.refl _)
      · rw [if_neg hany]
        refine outcome_save (.add entry) hlist ⟨hvalid, fun hmem => hany ?_, Eq.refl _⟩ entry
        obtain ⟨other, hother, hid⟩ := List.mem_map.mp hmem
        exact List.any_eq_true.mpr ⟨other, hother, decide_eq_true hid⟩

theorem outcome_update (id : String) (patch : MemorySourcePatch usd) : Outcome codec faults file (.update id patch)
    (update codec faults id patch file).1 (update codec faults id patch file).2 := by
  unfold update
  refine outcome_load fun sources hlist => ?_
  cases hfind : sources.find? (·.id = id) with
  | none => exact Or.inl (Eq.refl _)
  | some entry =>
      dsimp only
      cases hchecked : (patch.validateForKind entry.kind).bind fun _ => validateEntry (patch.applyTo entry) with
      | error e => exact Or.inl (Eq.refl _)
      | ok _ =>
          have hvalid : validateEntry (patch.applyTo entry) = .ok () := by
            cases hkind : patch.validateForKind entry.kind with
            | error e =>
                rw [hkind] at hchecked
                cases hchecked
            | ok _ =>
                rw [hkind] at hchecked
                exact hchecked
          exact outcome_save (.update id patch) hlist ⟨entry, hfind, hvalid, Eq.refl _⟩ (patch.applyTo entry)

theorem outcome_remove (id : String) : Outcome codec faults file (.remove id) (remove codec faults id file).1
    (remove codec faults id file).2 := by
  unfold remove
  refine outcome_load fun sources hlist => ?_
  dsimp only
  split_ifs
  · exact outcome_save (.remove id) hlist (Eq.refl _) true
  · exact Or.inl (Eq.refl _)

theorem outcome_removeComposio (connectionId : String) :
    Outcome codec faults file (.removeComposioSourceByConnectionId connectionId)
      (removeComposioSourceByConnectionId codec faults connectionId file).1
      (removeComposioSourceByConnectionId codec faults connectionId file).2 := by
  unfold removeComposioSourceByConnectionId
  refine outcome_load fun sources hlist => ?_
  dsimp only
  split_ifs
  · exact outcome_save (.removeComposioSourceByConnectionId connectionId) hlist (Eq.refl _) _
  · exact Or.inl (Eq.refl _)

theorem outcome_upsert (uuids : UuidSource) (target : ComposioUpsertTarget) :
    Outcome codec faults file (.upsertComposioSource uuids target)
      (upsertComposioSource codec faults uuids target file).1
      (upsertComposioSource codec faults uuids target file).2 :=
  outcome_load fun _ hlist => outcome_save (.upsertComposioSource uuids target) hlist (Eq.refl _) _

theorem outcome_batch (uuids : UuidSource) (targets : List ComposioUpsertTarget) :
    Outcome codec faults file (.upsertComposioSourcesBatch uuids targets)
      (upsertComposioSourcesBatch codec faults uuids targets file).1
      (upsertComposioSourcesBatch codec faults uuids targets file).2 := by
  unfold upsertComposioSourcesBatch
  split_ifs
  · exact Or.inl (Eq.refl _)
  · exact outcome_load fun _ hlist =>
      outcome_save (.upsertComposioSourcesBatch uuids targets) hlist (Eq.refl _) _

theorem outcome_applyAllIn : Outcome codec faults file (.applyAllIn : Operation usd)
    (applyAllIn codec faults file).1 (applyAllIn codec faults file).2 :=
  outcome_load fun _ hlist => outcome_save .applyAllIn hlist (Eq.refl _) _

theorem Outcome.forget {operation : Operation usd} {result : ConfigFile ω × Except String α}
    (h : Outcome codec faults file operation result.1 result.2) :
    Outcome codec faults file operation (result.map id fun answer => answer.map fun _ => ()).1
      (result.map id fun answer => answer.map fun _ => ()).2 := by
  rcases h with hsame | ⟨sources, entries, hlist, hchange, hsaved, value, hvalue⟩
  · exact Or.inl hsame
  · refine Or.inr ⟨sources, entries, hlist, hchange, hsaved, (), ?_⟩
    change result.2.map _ = _
    rw [hvalue]
    rfl

theorem outcome_perform (operation : Operation usd) : Outcome codec faults file operation
    (perform codec faults file operation).1 (perform codec faults file operation).2 := by
  cases operation with
  | add entry => exact (outcome_add entry).forget
  | update id patch => exact (outcome_update id patch).forget
  | remove id => exact (outcome_remove id).forget
  | removeComposioSourceByConnectionId connectionId => exact (outcome_removeComposio connectionId).forget
  | upsertComposioSource uuids target => exact (outcome_upsert uuids target).forget
  | upsertComposioSourcesBatch uuids targets => exact (outcome_batch uuids targets).forget
  | applyAllIn => exact outcome_applyAllIn.forget

/-- An operation that fails leaves the file as it is. -/
theorem unchanged_of_error {operation : Operation usd} {e : String}
    (h : (perform codec faults file operation).2 = .error e) : (perform codec faults file operation).1 = file := by
  rcases outcome_perform operation with hsame | ⟨-, -, -, -, -, value, hvalue⟩
  · exact hsame
  · rw [h] at hvalue
    cases hvalue

end Steps

/-! ### What a change does to valid sources -/

section Changes

variable {ω usd : Type} {codec : TomlCodec ω usd} {faults : Faults} {file : ConfigFile ω}
  {sources entries : List (MemorySourceEntry usd)} {operation : Operation usd}

/-- The targets that an operation upserts. -/
def Operation.targets : Operation usd → List ComposioUpsertTarget
  | .upsertComposioSource _ target => [target]
  | .upsertComposioSourcesBatch _ targets => targets
  | _ => []

theorem Valid.filter (h : Valid sources) (p : MemorySourceEntry usd → Bool) : Valid (sources.filter p) :=
  ⟨(List.filter_sublist.map _).nodup h.1, fun entry hentry => h.2 entry (List.mem_of_mem_filter hentry)⟩

/-- Changed sources are valid, those of upserts when the targets are proper. -/
theorem valid_change_iff (h : Valid sources) (hchange : Change operation sources entries) :
    Valid entries ↔ ProperTargets sources operation.targets := by
  have hnone : ProperTargets sources [] := ⟨nofun, nofun, nofun⟩
  cases operation with
  | add entry =>
      obtain ⟨hvalid, hfresh, rfl⟩ := hchange
      refine iff_of_true ⟨?_, fun other hother => ?_⟩ hnone
      · rw [List.map_append, List.map_singleton, ← List.concat_eq_append]
        exact h.1.concat hfresh
      · rcases List.mem_append.mp hother with hold | hnew
        · exact h.2 other hold
        · rw [List.mem_singleton.mp hnew]
          exact hvalid
  | update id patch =>
      obtain ⟨found, hfound, hvalid, rfl⟩ := hchange
      refine iff_of_true ⟨?_, fun other hother => ?_⟩ hnone
      · rw [map_id_updateFirst (f := patch.applyTo) fun _ => Eq.refl _]
        exact h.1
      · rcases mem_updateFirst hother with hold | ⟨found', hfound', rfl⟩
        · exact h.2 other hold
        · rw [hfound, Option.some.injEq] at hfound'
          rw [← hfound']
          exact hvalid
  | remove id =>
      obtain rfl := hchange
      exact iff_of_true (h.filter _) hnone
  | removeComposioSourceByConnectionId connectionId =>
      obtain rfl := hchange
      exact iff_of_true (h.filter _) hnone
  | upsertComposioSource uuids target =>
      obtain rfl := hchange
      exact valid_upsertAll_iff uuids h
  | upsertComposioSourcesBatch uuids targets =>
      obtain rfl := hchange
      exact valid_upsertAll_iff uuids h
  | applyAllIn =>
      obtain rfl := hchange
      refine iff_of_true ⟨?_, fun other hother => ?_⟩ hnone
      · rw [List.map_map]
        exact h.1
      · obtain ⟨entry, hentry, rfl⟩ := List.mem_map.mp hother
        exact h.2 entry hentry

/-! ### Reading back -/

def noFaults : Faults := ⟨none, none, none⟩

theorem list_noFaults (h : list codec faults file = .ok sources) : list codec noFaults file = .ok sources := by
  cases file with
  | none => exact h
  | some table =>
      unfold list readTable at h
      cases hfault : faults.read with
      | some e =>
          rw [hfault] at h
          cases h
      | none =>
          rw [hfault] at h
          exact h

theorem readTable_eq {fault : Option String} {table : OrderedMap String ω} (h : readTable fault file = .ok table) :
    table = file.getD [] := by
  cases file with
  | none => exact (Except.ok.inj h).symm
  | some found =>
      cases fault with
      | some e => cases h
      | none => exact (Except.ok.inj h).symm

/-- What is saved is read back, and the other keys keep their values. -/
theorem Saved.reads {file' : ConfigFile ω} (h : Saved codec faults file entries file') :
    list codec noFaults file' = .ok entries ∧
      (∀ key, key ≠ sourcesKey → (file'.getD []).get key = (file.getD []).get key) ∧
      ∀ entry ∈ entries, ∀ tokens, entry.maxTokensPerSync = some tokens → tokens < 2 ^ 63 := by
  obtain ⟨table, value, hread, hencode, -, rfl⟩ := h
  obtain rfl := readTable_eq hread
  refine ⟨?_, fun key hkey => ?_, (codec.encode_iff entries).mp ⟨value, hencode⟩⟩
  · have hget : (OrderedMap.insert (file.getD []) sourcesKey value).get sourcesKey = some value := by
      rw [OrderedMap.get_insert, if_pos (Eq.refl _)]
    simp only [list, readTable, noFaults, Except.bind, hget]
    exact codec.roundTrip entries value hencode
  · change (OrderedMap.insert (file.getD []) sourcesKey value).get key = _
    rw [OrderedMap.get_insert, if_neg hkey.symm]

end Changes

/-! ### Runs -/

section Runs

variable {ω usd : Type} {codec : TomlCodec ω usd} {start file : ConfigFile ω}

/-- The sources in the file are valid, and every other key has the value it had at the start. -/
structure Good (codec : TomlCodec ω usd) (start file : ConfigFile ω) : Prop where
  sources : ∃ sources, list codec noFaults file = .ok sources ∧ Valid sources
  others : ∀ key, key ≠ sourcesKey → (file.getD []).get key = (start.getD []).get key

/-- No budget is too large for an integer of the file. -/
def Bounded (codec : TomlCodec ω usd) (file : ConfigFile ω) : Prop :=
  ∀ sources, list codec noFaults file = .ok sources → ∀ entry ∈ sources, ∀ tokens,
    entry.maxTokensPerSync = some tokens → tokens < 2 ^ 63

/-- The file can be read and written. -/
def Writable (faults : Faults) (file : ConfigFile ω) : Prop :=
  (file = none ∨ faults.read = none ∧ faults.reread = none) ∧ faults.write = none

/-- The upserts of the operation, if they are written, have proper targets for the sources in the file. -/
def Proper (codec : TomlCodec ω usd) (file : ConfigFile ω) (event : Faults × Operation usd) : Prop :=
  Writable event.1 file → ∀ sources, list codec noFaults file = .ok sources →
    ProperTargets sources event.2.targets

theorem tokens_upsert {uuids : UuidSource} {sources : List (MemorySourceEntry usd)} {target : ComposioUpsertTarget}
    (h : ∀ entry ∈ sources, ∀ tokens, entry.maxTokensPerSync = some tokens → tokens < 2 ^ 63) :
    ∀ entry ∈ (upsertComposioEntryInPlace uuids sources target).1, ∀ tokens,
      entry.maxTokensPerSync = some tokens → tokens < 2 ^ 63 := by
  intro entry hentry tokens htokens
  cases hfind : sources.find? (boundTo target.connectionId) with
  | some existing =>
      rw [upsert_existing hfind] at hentry
      rcases mem_updateFirst hentry with hold | ⟨found, hfound, rfl⟩
      · exact h entry hold tokens htokens
      · exact h found (List.mem_of_find?_eq_some hfound) tokens htokens
  | none =>
      rw [upsert_new hfind] at hentry
      rcases List.mem_append.mp hentry with hold | hnew
      · exact h entry hold tokens htokens
      · rw [List.mem_singleton.mp hnew] at htokens
        cases htokens

theorem tokens_upsertAll {uuids : UuidSource} {sources : List (MemorySourceEntry usd)}
    {targets : List ComposioUpsertTarget}
    (h : ∀ entry ∈ sources, ∀ tokens, entry.maxTokensPerSync = some tokens → tokens < 2 ^ 63) :
    ∀ entry ∈ upsertAll uuids sources targets, ∀ tokens, entry.maxTokensPerSync = some tokens → tokens < 2 ^ 63 := by
  induction targets using List.reverseRecOn with
  | nil => exact h
  | append_singleton targets target ih =>
      rw [upsertAll_concat]
      exact tokens_upsert ih

theorem Writable.list {faults : Faults} (h : Writable faults file) :
    list codec faults file = list codec noFaults file := by
  rcases h.1 with rfl | ⟨hread, -⟩
  · rfl
  · unfold Sources.list
    rw [hread]
    rfl

theorem Writable.saved {faults : Faults} (h : Writable faults file) {entries : List (MemorySourceEntry usd)} {α : Type}
    (hbounded : ∀ entry ∈ entries, ∀ tokens, entry.maxTokensPerSync = some tokens → tokens < 2 ^ 63) (answer : α) :
    Saved codec faults file entries (save codec faults file entries answer).1 := by
  obtain ⟨value, hencode⟩ := (codec.encode_iff entries).mpr hbounded
  have hread : readTable faults.reread file = .ok (file.getD []) := by
    rcases h.1 with rfl | ⟨-, hreread⟩
    · rfl
    · rw [hreread]
      cases file <;> rfl
  refine ⟨file.getD [], value, hread, hencode, h.2, ?_⟩
  unfold save writeAll
  rw [hread, hencode, h.2]

/-- An upsert that can be written is written. -/
theorem saved_upsert {faults : Faults} {operation : Operation usd} (htargets : operation.targets ≠ [])
    (hwritable : Writable faults file) {sources : List (MemorySourceEntry usd)}
    (hlist : list codec noFaults file = .ok sources)
    (hbounded : ∀ entry ∈ sources, ∀ tokens, entry.maxTokensPerSync = some tokens → tokens < 2 ^ 63) :
    ∃ entries, Change operation sources entries ∧
      Saved codec faults file entries (perform codec faults file operation).1 := by
  have hload : ∀ {α : Type} (k : List (MemorySourceEntry usd) → ConfigFile ω × Except String α),
      load codec faults k file = k sources := by
    intro α k
    unfold load
    rw [hwritable.list, hlist]
  cases operation with
  | upsertComposioSource uuids target =>
      refine ⟨_, Eq.refl _, ?_⟩
      change Saved _ _ _ _ (upsertComposioSource codec faults uuids target file).1
      rw [upsertComposioSource, hload]
      exact hwritable.saved (tokens_upsert hbounded) _
  | upsertComposioSourcesBatch uuids targets =>
      refine ⟨_, Eq.refl _, ?_⟩
      change Saved _ _ _ _ (upsertComposioSourcesBatch codec faults uuids targets file).1
      have hne : targets ≠ [] := htargets
      rw [upsertComposioSourcesBatch, if_neg hne, hload]
      exact hwritable.saved (tokens_upsertAll hbounded) _
  | add => exact absurd (Eq.refl _) htargets
  | update => exact absurd (Eq.refl _) htargets
  | remove => exact absurd (Eq.refl _) htargets
  | removeComposioSourceByConnectionId => exact absurd (Eq.refl _) htargets
  | applyAllIn => exact absurd (Eq.refl _) htargets

/-- An operation with proper targets keeps the file good. -/
theorem good_perform (hgood : Good codec start file ∧ Bounded codec file) {event : Faults × Operation usd}
    (hproper : Proper codec file event) :
    Good codec start (perform codec event.1 file event.2).1 ∧ Bounded codec (perform codec event.1 file event.2).1 := by
  obtain ⟨⟨⟨sources, hlist, hvalid⟩, hothers⟩, hbounded⟩ := hgood
  have houtcome : Outcome codec event.1 file event.2 (perform codec event.1 file event.2).1 _ :=
    outcome_perform event.2
  rcases houtcome with hsame | ⟨sources', entries, hlist', hchange, hsaved, -⟩
  · rw [hsame]
    exact ⟨⟨⟨sources, hlist, hvalid⟩, hothers⟩, hbounded⟩
  · have hsources := list_noFaults hlist'
    rw [hlist, Except.ok.injEq] at hsources
    subst hsources
    obtain ⟨hreads, hkeys, htokens⟩ := hsaved.reads
    have hwritable : Writable event.1 file := by
      obtain ⟨table, value, hread, -, hwrite, -⟩ := hsaved
      refine ⟨?_, hwrite⟩
      cases file with
      | none => exact Or.inl (Eq.refl _)
      | some found =>
          refine Or.inr ⟨?_, ?_⟩
          · cases hfault : event.1.read with
            | none => rfl
            | some e =>
                unfold Sources.list readTable at hlist'
                rw [hfault] at hlist'
                cases hlist'
          · cases hfault : event.1.reread with
            | none => rfl
            | some e =>
                rw [hfault] at hread
                cases hread
    refine ⟨⟨⟨entries, hreads, ?_⟩, fun key hkey => (hkeys key hkey).trans (hothers key hkey)⟩, ?_⟩
    · exact (valid_change_iff hvalid hchange).mpr (hproper hwritable sources hlist)
    · intro again hagain
      rw [hreads, Except.ok.injEq] at hagain
      rw [← hagain]
      exact htokens

/-- An upsert with improper targets that is written makes the sources invalid. -/
theorem not_good_perform (hgood : Good codec start file ∧ Bounded codec file) {event : Faults × Operation usd}
    (hproper : ¬Proper codec file event) : ¬Good codec start (perform codec event.1 file event.2).1 := by
  obtain ⟨⟨⟨sources, hlist, hvalid⟩, -⟩, hbounded⟩ := hgood
  unfold Proper at hproper
  push Not at hproper
  obtain ⟨hwritable, sources', hlist', htargets⟩ := hproper
  rw [hlist, Except.ok.injEq] at hlist'
  subst hlist'
  have hne : event.2.targets ≠ [] := by
    intro hnil
    rw [hnil] at htargets
    exact htargets ⟨nofun, nofun, nofun⟩
  obtain ⟨entries, hchange, hsaved⟩ := saved_upsert hne hwritable hlist (hbounded sources hlist)
  rintro ⟨⟨sources', hlist', hvalid'⟩, -⟩
  rw [hsaved.reads.1, Except.ok.injEq] at hlist'
  subst hlist'
  exact htargets ((valid_change_iff hvalid hchange).mp hvalid')

/-- The sources in the file stay valid throughout a run exactly when its upserts have proper targets; no operation
that fails changes the file. -/
theorem registry_throughout_iff (hstart : list codec noFaults start = .ok []) (events : List (Faults × Operation usd)) :
    ((registry codec start).Throughout (Good codec start) events ↔
      (registry codec start).AllSteps (Proper codec) events) ∧
    ∀ faults file operation e, (perform codec faults file operation).2 = .error e →
      (perform codec faults file operation).1 = file := by
  have hbegin : Good codec start start ∧ Bounded codec start := by
    refine ⟨⟨⟨[], hstart, List.nodup_nil, fun _ hmem => absurd hmem List.not_mem_nil⟩, fun _ _ => Eq.refl _⟩, ?_⟩
    intro sources hsources
    rw [hstart, Except.ok.injEq] at hsources
    subst hsources
    exact fun _ hmem => absurd hmem List.not_mem_nil
  have hrun := @Machine.throughout_iff _ _ (registry codec start)
    (fun file => Good codec start file ∧ Bounded codec file) (Good codec start) (Proper codec) hbegin
    (fun _ _ hgood hproper => good_perform hgood hproper) (fun _ hgood => hgood.1)
    (fun _ _ hgood hproper => not_good_perform hgood hproper) events
  exact ⟨hrun, fun _ _ _ _ h => unchanged_of_error h⟩

end Runs

/-! ### One upsert from an empty file -/

section Example

/-- Entries are written as they are, unless a budget is too large. -/
def plainCodec : TomlCodec (List (MemorySourceEntry Unit)) Unit where
  encode entries :=
    if ∀ entry ∈ entries, ∀ tokens ∈ entry.maxTokensPerSync, tokens < 2 ^ 63 then .ok entries
    else .error "out of range"
  decode := .ok
  encode_iff entries := by
    by_cases hall : ∀ entry ∈ entries, ∀ tokens ∈ entry.maxTokensPerSync, tokens < 2 ^ 63
    · rw [if_pos hall]
      exact iff_of_true ⟨entries, Eq.refl _⟩ fun entry hentry tokens htokens => hall entry hentry tokens htokens
    · rw [if_neg hall]
      refine iff_of_false (fun ⟨_, h⟩ => ?_) hall
      cases h
  roundTrip entries value h := by
    split_ifs at h
    exact congrArg Except.ok (Except.ok.inj h).symm

/-- Identifiers that are longer than all in use. -/
def longerUuids : UuidSource where
  newV4 used := String.ofList (List.replicate (used.map String.length).sum 'a')
  fresh used hmem := by
    have hle : ∀ {used : List String} {text : String}, text ∈ used → text.length ≤ (used.map String.length).sum := by
      intro used text htext
      induction used with
      | nil => exact absurd htext List.not_mem_nil
      | cons first rest ih =>
          rw [List.map_cons, List.sum_cons]
          rcases List.mem_cons.mp htext with rfl | hrest
          · omega
          · have hbound := ih hrest
            omega
    have hsrc : "src_".length = 4 := by decide
    have htail : (String.ofList (List.replicate (used.map String.length).sum 'a')).length =
        (used.map String.length).sum := by
      rw [String.length_ofList, List.length_replicate]
    have hlength := hle hmem
    rw [String.length_append, hsrc, htail] at hlength
    omega
  plain used c hc := by
    rw [String.toList_ofList] at hc
    rw [List.eq_of_mem_replicate hc]
    decide

/-- An upsert without a label puts an invalid source into the file. -/
theorem not_good_unlabelled :
    ¬(registry plainCodec none).Throughout (Good plainCodec none)
      [(noFaults, .upsertComposioSource longerUuids ⟨"gmail", "conn-1", ""⟩)] := by
  intro hgood
  have hbegin : Good plainCodec none none ∧ Bounded plainCodec none := by
    refine ⟨⟨⟨[], Eq.refl _, List.nodup_nil, fun _ hmem => absurd hmem List.not_mem_nil⟩, fun _ _ => Eq.refl _⟩, ?_⟩
    intro sources hsources
    rw [← Except.ok.inj hsources]
    exact fun _ hmem => absurd hmem List.not_mem_nil
  refine not_good_perform hbegin (fun hproper => ?_) (hgood _ List.prefix_rfl)
  exact (hproper ⟨Or.inl (Eq.refl _), Eq.refl _⟩ [] (Eq.refl _)).label "conn-1" _ (Eq.refl _) (Eq.refl _)

theorem registry_throughout_gmail :
    (registry plainCodec none).Throughout (Good plainCodec none)
      [(noFaults, .upsertComposioSource longerUuids ⟨"gmail", "conn-1", "Mail"⟩)] := by
  refine (registry_throughout_iff (Eq.refl _) _).1.mpr ((Machine.allSteps_iff_stepsFrom _).mpr ⟨?_, trivial⟩)
  intro _ sources hsources
  rw [← Except.ok.inj hsources]
  refine ⟨?_, ?_, ?_⟩
  · intro target htarget
    rw [List.mem_singleton.mp htarget]
    decide
  · intro connectionId target hlast
    rw [List.mem_singleton.mp (mem_of_lastTarget hlast).1]
    decide
  · intro connectionId target hfirst _
    rw [List.mem_singleton.mp (mem_of_firstTarget hfirst).1]
    decide

end Example

end TinyCortex.Sources
