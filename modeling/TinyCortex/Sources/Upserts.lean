import TinyCortex.Sources.Registry

/-! The entries behind a batch of upserts (`sources/registry.rs`, `upsert_composio_entry_in_place`): nobody validates
them, and they are valid when the last label, the first toolkit and the connection of each target are. -/

namespace TinyCortex.Sources

/-! ### Changing the first -/

section UpdateFirst

variable {usd : Type} {p q : MemorySourceEntry usd → Bool} {f : MemorySourceEntry usd → MemorySourceEntry usd}
  {sources : List (MemorySourceEntry usd)} {entry : MemorySourceEntry usd}

theorem map_id_updateFirst (hid : ∀ entry, (f entry).id = entry.id) (sources : List (MemorySourceEntry usd)) :
    (updateFirst p f sources).map (·.id) = sources.map (·.id) := by
  induction sources with
  | nil => rfl
  | cons entry rest ih =>
      unfold updateFirst
      split_ifs
      · rw [List.map_cons, List.map_cons, hid]
      · rw [List.map_cons, List.map_cons, ih]

theorem mem_updateFirst (h : entry ∈ updateFirst p f sources) :
    entry ∈ sources ∨ ∃ found, sources.find? p = some found ∧ entry = f found := by
  induction sources with
  | nil => exact absurd h List.not_mem_nil
  | cons first rest ih =>
      unfold updateFirst at h
      split_ifs at h with hp
      · rcases List.mem_cons.mp h with heq | hrest
        · exact Or.inr ⟨first, List.find?_cons_of_pos hp, heq⟩
        · exact Or.inl (List.mem_cons_of_mem _ hrest)
      · rcases List.mem_cons.mp h with rfl | hrest
        · exact Or.inl List.mem_cons_self
        · rcases ih hrest with hmem | ⟨found, hfound, heq⟩
          · exact Or.inl (List.mem_cons_of_mem _ hmem)
          · exact Or.inr ⟨found, by rw [List.find?_cons_of_neg hp, hfound], heq⟩

theorem find?_updateFirst (hp : ∀ entry, p (f entry) = p entry) :
    (updateFirst p f sources).find? p = (sources.find? p).map f := by
  induction sources with
  | nil => rfl
  | cons first rest ih =>
      unfold updateFirst
      by_cases hfirst : p first = true
      · rw [if_pos hfirst, List.find?_cons_of_pos hfirst, List.find?_cons_of_pos ((hp first).trans hfirst)]
        rfl
      · rw [if_neg hfirst, List.find?_cons_of_neg hfirst, List.find?_cons_of_neg hfirst, ih]

theorem find?_updateFirst_of_disjoint (hq : ∀ entry, q (f entry) = q entry)
    (hdisjoint : ∀ entry, p entry = true → q entry = false) :
    (updateFirst p f sources).find? q = sources.find? q := by
  induction sources with
  | nil => rfl
  | cons first rest ih =>
      unfold updateFirst
      by_cases hfirst : p first = true
      · have hnot : ¬q first = true := by
          rw [hdisjoint first hfirst]
          exact Bool.false_ne_true
        rw [if_pos hfirst, List.find?_cons_of_neg hnot, List.find?_cons_of_neg (by rwa [hq])]
      · rw [if_neg hfirst]
        by_cases hqfirst : q first = true
        · rw [List.find?_cons_of_pos hqfirst, List.find?_cons_of_pos hqfirst]
        · rw [List.find?_cons_of_neg hqfirst, List.find?_cons_of_neg hqfirst, ih]

end UpdateFirst

/-! ### One upsert -/

section Upsert

variable {usd : Type} {uuids : UuidSource} {sources : List (MemorySourceEntry usd)} {target : ComposioUpsertTarget}
  {entry : MemorySourceEntry usd} {connectionId : String}

def relabel (label : String) (entry : MemorySourceEntry usd) : MemorySourceEntry usd := { entry with label := label }

theorem upsert_existing {existing : MemorySourceEntry usd}
    (h : sources.find? (boundTo target.connectionId) = some existing) :
    (upsertComposioEntryInPlace uuids sources target).1 =
      updateFirst (boundTo target.connectionId) (relabel target.label) sources := by
  unfold upsertComposioEntryInPlace
  rw [h]
  rfl

theorem upsert_new (h : sources.find? (boundTo target.connectionId) = none) :
    (upsertComposioEntryInPlace uuids sources target).1 =
      sources ++ [newComposioEntry ("src_" ++ uuids.newV4 (sources.map (·.id))) target] := by
  unfold upsertComposioEntryInPlace
  rw [h]

theorem boundTo_iff : boundTo connectionId entry = true ↔
    entry.kind = .composio ∧ entry.connectionId = some connectionId := by
  rw [boundTo, Bool.and_eq_true, decide_eq_true_eq, decide_eq_true_eq]

theorem boundTo_new (id : String) : boundTo target.connectionId (newComposioEntry id target : MemorySourceEntry usd) =
    true := boundTo_iff.mpr ⟨Eq.refl _, Eq.refl _⟩

/-- An upsert changes what is found for its own connection only. -/
theorem find?_upsert_of_ne (h : target.connectionId ≠ connectionId) :
    (upsertComposioEntryInPlace uuids sources target).1.find? (boundTo connectionId) =
      sources.find? (boundTo connectionId) := by
  have hdisjoint : ∀ entry : MemorySourceEntry usd, boundTo target.connectionId entry = true →
      boundTo connectionId entry = false := by
    intro entry hbound
    rw [← Bool.not_eq_true, boundTo_iff]
    rintro ⟨-, hother⟩
    rw [(boundTo_iff.mp hbound).2] at hother
    exact h (Option.some.inj hother)
  cases hfind : sources.find? (boundTo target.connectionId) with
  | some existing =>
      rw [upsert_existing hfind]
      exact find?_updateFirst_of_disjoint (fun _ => Eq.refl _) hdisjoint
  | none =>
      rw [upsert_new hfind, List.find?_append, List.find?_cons_of_neg, List.find?_nil, Option.or_none]
      rw [hdisjoint _ (boundTo_new _)]
      exact Bool.false_ne_true

/-- What an upsert leaves for its connection: the entry that was there, or a new one, with the label. -/
theorem find?_upsert_self : (upsertComposioEntryInPlace uuids sources target).1.find? (boundTo target.connectionId) =
    some (((sources.find? (boundTo target.connectionId)).map (relabel target.label)).getD
      (newComposioEntry ("src_" ++ uuids.newV4 (sources.map (·.id))) target)) := by
  cases hfind : sources.find? (boundTo target.connectionId) with
  | some existing =>
      have hupdate : (updateFirst (boundTo target.connectionId) (relabel target.label) sources).find?
        (boundTo target.connectionId) = _ := find?_updateFirst (f := relabel target.label) fun _ => Eq.refl _
      rw [upsert_existing hfind, hupdate, hfind]
      rfl
  | none =>
      rw [upsert_new hfind, List.find?_append, hfind, List.find?_cons_of_pos (boundTo_new _)]
      rfl

theorem nodup_upsert (h : (sources.map (·.id)).Nodup) :
    ((upsertComposioEntryInPlace uuids sources target).1.map (·.id)).Nodup := by
  cases hfind : sources.find? (boundTo target.connectionId) with
  | some existing =>
      have hids := map_id_updateFirst (p := boundTo target.connectionId) (f := relabel target.label)
        (fun _ => Eq.refl _) sources
      rw [upsert_existing hfind, hids]
      exact h
  | none =>
      rw [upsert_new hfind, List.map_append, List.map_singleton, ← List.concat_eq_append]
      exact h.concat (uuids.fresh _)

theorem properId_uuid (used : List String) : ProperId ("src_" ++ uuids.newV4 used) := by
  have hchars : ∀ c ∈ ("src_" ++ uuids.newV4 used).toList, c ≠ ':' ∧ Text.isControl c = false := by
    intro c hc
    rw [String.toList_append, List.mem_append] at hc
    rcases hc with hlead | huuid
    · have hall : ∀ c ∈ "src_".toList, c ≠ ':' ∧ Text.isControl c = false := by decide
      exact hall c hlead
    · exact uuids.plain used c huuid
  have hfirst : 's' ∈ ("src_" ++ uuids.newV4 used).toList := by
    rw [String.toList_append]
    exact List.mem_append_left _ (by decide)
  exact ⟨Text.trim_ne_empty hfirst (by decide), fun hcolon => (hchars _ hcolon).1 (Eq.refl _),
    fun c hc => (hchars c hc).2⟩

theorem properId_upsert (h : ∀ entry ∈ sources, ProperId entry.id)
    (hentry : entry ∈ (upsertComposioEntryInPlace uuids sources target).1) : ProperId entry.id := by
  cases hfind : sources.find? (boundTo target.connectionId) with
  | some existing =>
      rw [upsert_existing hfind] at hentry
      rcases mem_updateFirst hentry with hold | ⟨found, hfound, rfl⟩
      · exact h entry hold
      · exact h found (List.mem_of_find?_eq_some hfound)
  | none =>
      rw [upsert_new hfind] at hentry
      rcases List.mem_append.mp hentry with hold | hnew
      · exact h entry hold
      · rw [List.mem_singleton.mp hnew]
        exact properId_uuid _

end Upsert

/-! ### A batch -/

section Batch

variable {usd : Type} {uuids : UuidSource} {sources : List (MemorySourceEntry usd)}
  {targets : List ComposioUpsertTarget} {target : ComposioUpsertTarget} {entry : MemorySourceEntry usd}
  {connectionId : String}

def firstTarget (targets : List ComposioUpsertTarget) (connectionId : String) : Option ComposioUpsertTarget :=
  targets.find? (·.connectionId = connectionId)

def lastTarget (targets : List ComposioUpsertTarget) (connectionId : String) : Option ComposioUpsertTarget :=
  targets.reverse.find? (·.connectionId = connectionId)

theorem upsertAll_concat : upsertAll uuids sources (targets ++ [target]) =
    (upsertComposioEntryInPlace uuids (upsertAll uuids sources targets) target).1 := by
  rw [upsertAll, List.foldl_append]
  rfl

theorem lastTarget_concat : lastTarget (targets ++ [target]) connectionId =
    if target.connectionId = connectionId then some target else lastTarget targets connectionId := by
  rw [lastTarget, List.reverse_append]
  change (target :: targets.reverse).find? _ = _
  rw [List.find?_cons]
  by_cases hsame : target.connectionId = connectionId
  · rw [decide_eq_true hsame, if_pos hsame]
  · rw [decide_eq_false hsame, if_neg hsame]
    rfl

theorem firstTarget_concat : firstTarget (targets ++ [target]) connectionId =
    (firstTarget targets connectionId).or (if target.connectionId = connectionId then some target else none) := by
  rw [firstTarget, List.find?_append, List.find?_cons]
  congr 1
  by_cases hsame : target.connectionId = connectionId
  · rw [decide_eq_true hsame, if_pos hsame]
  · rw [decide_eq_false hsame, if_neg hsame]
    rfl

/-- The label behind a batch is that of the last target. -/
theorem label_upsertAll : ((upsertAll uuids sources targets).find? (boundTo connectionId)).map (·.label) =
    ((lastTarget targets connectionId).map (·.label)).or ((sources.find? (boundTo connectionId)).map (·.label)) := by
  induction targets using List.reverseRecOn with
  | nil => rfl
  | append_singleton targets target ih =>
      rw [upsertAll_concat, lastTarget_concat]
      by_cases hsame : target.connectionId = connectionId
      · subst hsame
        rw [find?_upsert_self, if_pos (Eq.refl _)]
        cases (upsertAll uuids sources targets).find? (boundTo target.connectionId) with
        | none => rfl
        | some existing => rfl
      · rw [find?_upsert_of_ne hsame, ih, if_neg hsame]

/-- The toolkit is that of the entry that was there, or of the first target. -/
theorem toolkit_upsertAll : ((upsertAll uuids sources targets).find? (boundTo connectionId)).map (·.toolkit) =
    ((sources.find? (boundTo connectionId)).map (·.toolkit)).or
      ((firstTarget targets connectionId).map fun target => some target.toolkit) := by
  induction targets using List.reverseRecOn with
  | nil => exact (Option.or_none).symm
  | append_singleton targets target ih =>
      rw [upsertAll_concat, firstTarget_concat]
      by_cases hsame : target.connectionId = connectionId
      · subst hsame
        rw [find?_upsert_self, if_pos (Eq.refl _)]
        cases hfind : (upsertAll uuids sources targets).find? (boundTo target.connectionId) with
        | none =>
            rw [hfind, Option.map_none, eq_comm, Option.or_eq_none_iff] at ih
            rw [ih.1, Option.none_or, Option.map_eq_none_iff.mp ih.2]
            rfl
        | some existing =>
            rw [hfind] at ih
            change some existing.toolkit = _
            change some existing.toolkit = _ at ih
            cases hold : sources.find? (boundTo target.connectionId) with
            | some old =>
                rw [hold] at ih
                exact ih
            | none =>
                rw [hold] at ih
                cases hfirst : firstTarget targets target.connectionId with
                | none =>
                    rw [hfirst] at ih
                    cases ih
                | some first =>
                    rw [hfirst] at ih
                    exact ih
      · rw [find?_upsert_of_ne hsame, ih, if_neg hsame, Option.or_none]

theorem nodup_upsertAll (h : (sources.map (·.id)).Nodup) : ((upsertAll uuids sources targets).map (·.id)).Nodup := by
  induction targets using List.reverseRecOn with
  | nil => exact h
  | append_singleton targets target ih =>
      rw [upsertAll_concat]
      exact nodup_upsert ih

theorem properId_upsertAll (h : ∀ entry ∈ sources, ProperId entry.id)
    (hentry : entry ∈ upsertAll uuids sources targets) : ProperId entry.id := by
  induction targets using List.reverseRecOn generalizing entry with
  | nil => exact h entry hentry
  | append_singleton targets target ih =>
      rw [upsertAll_concat] at hentry
      exact properId_upsert (fun _ hold => ih hold) hentry

/-- An entry behind a batch was there before, or is the one of a connection of a target. -/
theorem mem_upsertAll (hnd : (sources.map (·.id)).Nodup) (h : entry ∈ upsertAll uuids sources targets) :
    entry ∈ sources ∨
      ∃ target ∈ targets, (upsertAll uuids sources targets).find? (boundTo target.connectionId) = some entry := by
  induction targets using List.reverseRecOn generalizing entry with
  | nil => exact Or.inl h
  | append_singleton targets target ih =>
      have hbefore : ((upsertAll uuids sources targets).map (·.id)).Nodup := nodup_upsertAll hnd
      have hnd' : ((upsertComposioEntryInPlace uuids (upsertAll uuids sources targets) target).1.map (·.id)).Nodup :=
        nodup_upsert hbefore
      rw [upsertAll_concat] at h ⊢
      have hself : (upsertComposioEntryInPlace uuids (upsertAll uuids sources targets) target).1.find?
        (boundTo target.connectionId) = _ := find?_upsert_self
      -- An old entry is still there unless it was relabelled, and then the identifier tells it.
      have hold : entry ∈ upsertAll uuids sources targets → entry ∈ sources ∨ ∃ target' ∈ targets ++ [target],
          (upsertComposioEntryInPlace uuids (upsertAll uuids sources targets) target).1.find?
            (boundTo target'.connectionId) = some entry := by
        intro hmem
        rcases ih hmem with hsources | ⟨target', htarget', hfind⟩
        · exact Or.inl hsources
        right
        by_cases hsame : target.connectionId = target'.connectionId
        · rw [← hsame] at hfind
          rw [hfind] at hself
          refine ⟨target, List.mem_append_right _ (List.mem_singleton_self _), ?_⟩
          have hrelabelled := List.mem_of_find?_eq_some hself
          have heq : relabel target.label entry = entry :=
            List.inj_on_of_nodup_map hnd' hrelabelled h (Eq.refl _)
          rw [hself]
          exact congrArg some heq
        · refine ⟨target', List.mem_append_left _ htarget', ?_⟩
          rw [find?_upsert_of_ne hsame, hfind]
      cases hfind : (upsertAll uuids sources targets).find? (boundTo target.connectionId) with
      | some existing =>
          have hcases := h
          rw [upsert_existing hfind] at hcases
          rcases mem_updateFirst hcases with hmem | ⟨found, hfound, rfl⟩
          · exact hold hmem
          · right
            refine ⟨target, List.mem_append_right _ (List.mem_singleton_self _), ?_⟩
            rw [hself, hfound]
            rfl
      | none =>
          have hcases := h
          rw [upsert_new hfind] at hcases
          rcases List.mem_append.mp hcases with hmem | hnew
          · exact hold hmem
          · right
            refine ⟨target, List.mem_append_right _ (List.mem_singleton_self _), ?_⟩
            rw [hself, hfind, List.mem_singleton.mp hnew]
            rfl

/-- Distinct identifiers, and entries that pass validation. -/
def Valid (sources : List (MemorySourceEntry usd)) : Prop :=
  (sources.map (·.id)).Nodup ∧ ∀ entry ∈ sources, validateEntry entry = .ok ()

/-- The connections of the targets, the last label of each and, where there is no source yet, the first toolkit are not
empty. -/
structure ProperTargets (sources : List (MemorySourceEntry usd)) (targets : List ComposioUpsertTarget) : Prop where
  connection : ∀ target ∈ targets, target.connectionId ≠ ""
  label : ∀ connectionId target, lastTarget targets connectionId = some target → target.label ≠ ""
  toolkit : ∀ connectionId target, firstTarget targets connectionId = some target →
    sources.find? (boundTo connectionId) = none → target.toolkit ≠ ""

theorem lastTarget_of_mem (h : target ∈ targets) :
    ∃ last, lastTarget targets target.connectionId = some last := by
  refine Option.isSome_iff_exists.mp (List.find?_isSome.mpr ⟨target, List.mem_reverse.mpr h, ?_⟩)
  exact decide_eq_true (Eq.refl _)

theorem mem_of_lastTarget (h : lastTarget targets connectionId = some target) :
    target ∈ targets ∧ target.connectionId = connectionId := by
  have hfound := List.find?_some h
  exact ⟨List.mem_reverse.mp (List.mem_of_find?_eq_some h), of_decide_eq_true hfound⟩

theorem mem_of_firstTarget (h : firstTarget targets connectionId = some target) :
    target ∈ targets ∧ target.connectionId = connectionId := by
  have hfound := List.find?_some h
  exact ⟨List.mem_of_find?_eq_some h, of_decide_eq_true hfound⟩

/-- A target has its source behind the batch, with the last label. -/
theorem exists_upsertAll (uuids : UuidSource) (sources : List (MemorySourceEntry usd)) (h : target ∈ targets) :
    ∃ last entry, lastTarget targets target.connectionId = some last ∧
      (upsertAll uuids sources targets).find? (boundTo target.connectionId) = some entry ∧ entry.label = last.label := by
  obtain ⟨last, hlast⟩ := lastTarget_of_mem h
  have hlabel : ((upsertAll uuids sources targets).find? (boundTo target.connectionId)).map (·.label) = _ :=
    label_upsertAll
  rw [hlast, Option.map_some, Option.some_or] at hlabel
  obtain ⟨entry, hentry, heq⟩ := Option.map_eq_some_iff.mp hlabel
  exact ⟨last, entry, hlast, hentry, heq⟩

/-- A batch leaves valid entries exactly when its targets are proper. -/
theorem valid_upsertAll_iff (uuids : UuidSource) (hvalid : Valid sources) :
    Valid (upsertAll uuids sources targets) ↔ ProperTargets sources targets := by
  have hcomposio : ∀ {entry : MemorySourceEntry usd} {connectionId : String}, boundTo connectionId entry = true →
      (Complete entry ↔ Present entry.toolkit ∧ Present entry.connectionId) := by
    intro entry connectionId hbound
    rw [Complete, (boundTo_iff.mp hbound).1]
  constructor
  · rintro ⟨-, hall⟩
    have hfound : ∀ target ∈ targets, ∃ last entry, lastTarget targets target.connectionId = some last ∧
        (upsertAll uuids sources targets).find? (boundTo target.connectionId) = some entry ∧
        entry.label = last.label ∧ entry.label ≠ "" ∧ Present entry.toolkit ∧ Present entry.connectionId ∧
        entry.connectionId = some target.connectionId := by
      intro target htarget
      obtain ⟨last, entry, hlast, hentry, hlabel⟩ := exists_upsertAll uuids sources htarget
      have hbound := List.find?_some hentry
      obtain ⟨-, hne, hcomplete⟩ := validateEntry_eq_ok_iff.mp (hall entry (List.mem_of_find?_eq_some hentry))
      obtain ⟨htoolkit, hconnection⟩ := (hcomposio hbound).mp hcomplete
      exact ⟨last, entry, hlast, hentry, hlabel, hne, htoolkit, hconnection, (boundTo_iff.mp hbound).2⟩
    refine ⟨fun target htarget => ?_, fun connectionId target hlast => ?_, fun connectionId target hfirst hnone => ?_⟩
    · obtain ⟨-, entry, -, -, -, -, -, ⟨text, htext, hne⟩, hconnection⟩ := hfound target htarget
      rw [hconnection, Option.some.injEq] at htext
      rwa [htext]
    · obtain ⟨htarget, rfl⟩ := mem_of_lastTarget hlast
      obtain ⟨last, entry, hlast', -, hlabel, hne, -⟩ := hfound target htarget
      rw [hlast, Option.some.injEq] at hlast'
      rwa [hlast', ← hlabel]
    · obtain ⟨htarget, rfl⟩ := mem_of_firstTarget hfirst
      obtain ⟨-, entry, -, hentry, -, -, ⟨text, htext, hne⟩, -⟩ := hfound target htarget
      have htoolkit : ((upsertAll uuids sources targets).find? (boundTo target.connectionId)).map (·.toolkit) = _ :=
        toolkit_upsertAll
      rw [hentry, hnone, hfirst] at htoolkit
      change some entry.toolkit = some (some target.toolkit) at htoolkit
      rw [Option.some.injEq, htext, Option.some.injEq] at htoolkit
      rwa [← htoolkit]
  · intro hproper
    have hids : ∀ entry ∈ sources, ProperId entry.id := fun entry hentry =>
      (validateEntry_eq_ok_iff.mp (hvalid.2 entry hentry)).1
    refine ⟨nodup_upsertAll hvalid.1, fun entry hentry => ?_⟩
    rcases mem_upsertAll hvalid.1 hentry with hold | ⟨target, htarget, hfind⟩
    · exact hvalid.2 entry hold
    have hbound := List.find?_some hfind
    obtain ⟨last, found, hlast, hfound, hlabel⟩ := exists_upsertAll uuids sources htarget
    rw [hfind, Option.some.injEq] at hfound
    subst hfound
    refine validateEntry_eq_ok_iff.mpr ⟨properId_upsertAll hids hentry, ?_, (hcomposio hbound).mpr ⟨?_, ?_⟩⟩
    · rw [hlabel]
      exact hproper.label _ last hlast
    · have htoolkit : ((upsertAll uuids sources targets).find? (boundTo target.connectionId)).map (·.toolkit) = _ :=
        toolkit_upsertAll
      rw [hfind, Option.map_some] at htoolkit
      cases hold : sources.find? (boundTo target.connectionId) with
      | some old =>
          rw [hold, Option.map_some, Option.some_or, Option.some.injEq] at htoolkit
          obtain ⟨-, -, hcomplete⟩ :=
            validateEntry_eq_ok_iff.mp (hvalid.2 old (List.mem_of_find?_eq_some hold))
          rw [htoolkit]
          exact ((hcomposio (List.find?_some hold)).mp hcomplete).1
      | none =>
          rw [hold, Option.map_none, Option.none_or, eq_comm, Option.map_eq_some_iff] at htoolkit
          obtain ⟨first, hfirst, heq⟩ := htoolkit
          exact ⟨first.toolkit, heq.symm, hproper.toolkit _ first hfirst hold⟩
    · exact ⟨target.connectionId, (boundTo_iff.mp hbound).2, hproper.connection target htarget⟩

end Batch

end TinyCortex.Sources
