import TinyCortex.Sync.Pages

/-! What a stored state vouches for: a synced key stands for a stored item, and what is not ahead of a
cursor is stored. -/

namespace TinyCortex.Sync

variable {ι : Type} (source : Source ι)

/-- The sort cursor is known not to be older than the window. -/
def InWindow (window cursor : Option String) : Prop := ∀ floor ∈ window, ∃ c ∈ cursor, floor ≤ c

/-- The cursor of the scope does not keep the item out. -/
def Ahead (state : SyncState) (scope : String) (item : ι) : Prop :=
  reached (source.cursorOf state scope) (source.sortCursor item) = false

namespace Archive

variable (archive : Archive ι)

/-- A listed item with a key, in the window, that is not stored. -/
structure Missing (scope : String) (item : ι) : Prop where
  listed : item ∈ archive.listing scope
  keyed : (source.dedupKey item).isSome
  inWindow : InWindow (archive.window scope) (source.sortCursor item)
  unstored : (scope, item) ∉ archive.stored

/-- What a state vouches for. -/
structure Backed (state : SyncState) : Prop where
  synced : ∀ key ∈ state.syncedIds, ∃ scope, ∃ item ∈ archive.listing scope,
    source.dedupKey item = some key ∧ (scope, item) ∈ archive.stored
  split : ∀ scope, ∃ fresh old, archive.listing scope = fresh ++ old ∧
    (∀ item ∈ fresh, Ahead source state scope item) ∧ ∀ item ∈ old, ¬archive.Missing source scope item

/-- Nothing listed after an item in the listing has a greater sort cursor. -/
def NewestFirst : Prop := ∀ scope, (archive.listing scope).Pairwise fun item later =>
  ∀ c ∈ source.sortCursor item, ∀ d ∈ source.sortCursor later, d ≤ c

/-- A dedup key stands for one item of one scope. -/
def KeysDistinct : Prop := ∀ scope scope' item item', item ∈ archive.listing scope →
  item' ∈ archive.listing scope' → ∀ key, source.dedupKey item = some key →
    source.dedupKey item' = some key → scope = scope' ∧ item = item'

end Archive

section Facts

variable {source} {archive archive' : Archive ι} {state state' : SyncState} {scope : String} {item : ι}

theorem Archive.Missing.mono (h : archive'.Missing source scope item)
    (hlisting : archive'.listing scope = archive.listing scope)
    (hwindow : archive'.window scope = archive.window scope) (hstored : archive.stored ⊆ archive'.stored) :
    archive.Missing source scope item where
  listed := hlisting ▸ h.listed
  keyed := h.keyed
  inWindow := hwindow ▸ h.inWindow
  unstored := fun hmem => h.unstored (hstored hmem)

/-- A state goes on vouching while documents are added and its cursors stay. -/
theorem Archive.Backed.mono (h : archive.Backed source state) (hlisting : archive'.listing = archive.listing)
    (hwindow : archive'.window = archive.window) (hstored : archive.stored ⊆ archive'.stored)
    (hcursor : ∀ scope, source.cursorOf state' scope = source.cursorOf state scope)
    (hsynced : ∀ key ∈ state'.syncedIds, key ∈ state.syncedIds ∨ ∃ scope,
      ∃ item ∈ archive'.listing scope, source.dedupKey item = some key ∧ (scope, item) ∈ archive'.stored) :
    archive'.Backed source state' where
  synced := by
    intro key hkey
    rcases hsynced key hkey with hold | hnew
    · obtain ⟨scope, item, hitem, hdedup, hmem⟩ := h.synced key hold
      exact ⟨scope, item, hlisting ▸ hitem, hdedup, hstored hmem⟩
    · exact hnew
  split := by
    intro scope
    obtain ⟨fresh, old, heq, hfresh, hold⟩ := h.split scope
    refine ⟨fresh, old, (congrFun hlisting scope).trans heq, ?_, ?_⟩
    · intro item hitem
      unfold Ahead
      rw [hcursor]
      exact hfresh item hitem
    · intro item hitem hmissing
      exact hold item hitem
        (hmissing.mono (congrFun hlisting scope) (congrFun hwindow scope) hstored)

/-- What is missing is ahead of the cursor, and so is all that is listed before it. -/
theorem Archive.Backed.ahead (h : archive.Backed source state) {before after : List ι}
    (hlisting : archive.listing scope = before ++ item :: after)
    (hmissing : archive.Missing source scope item) :
    ∀ other ∈ before ++ [item], Ahead source state scope other := by
  obtain ⟨fresh, old, heq, hfresh, hold⟩ := h.split scope
  rw [hlisting] at heq
  rcases List.append_eq_append_iff.mp heq with hlong | hshort
  · obtain ⟨more, hmore, hrest⟩ := hlong
    cases more with
    | nil =>
        refine absurd hmissing (hold item ?_)
        rw [List.nil_append] at hrest
        rw [← hrest]
        exact List.mem_cons_self
    | cons first more =>
        obtain ⟨rfl, -⟩ := List.cons.inj hrest
        intro other hother
        apply hfresh other
        rw [hmore]
        rcases List.mem_append.mp hother with hbefore | hitem
        · exact List.mem_append_left _ hbefore
        · rw [List.mem_singleton.mp hitem]
          exact List.mem_append_right _ List.mem_cons_self
  · obtain ⟨more, -, hrest⟩ := hshort
    refine absurd hmissing (hold item ?_)
    rw [hrest]
    exact List.mem_append_right _ List.mem_cons_self

/-- What is handled is not missing. -/
theorem Archive.Backed.not_missing (h : archive.Backed source state)
    (hdistinct : archive.KeysDistinct source)
    (hhandled : Handled source state.syncedIds archive.stored scope item) :
    ¬archive.Missing source scope item := by
  intro hmissing
  obtain ⟨key, hkey⟩ := Option.isSome_iff_exists.mp hmissing.keyed
  rcases hhandled key hkey with hsynced | hstored
  · obtain ⟨scope', item', hitem', hkey', hstored⟩ := h.synced key hsynced
    obtain ⟨rfl, rfl⟩ := hdistinct scope scope' item item' hmissing.listed hitem' key hkey hkey'
    exact hmissing.unstored hstored
  · exact hmissing.unstored hstored

/-- An item that is not ahead, and all that come after it in a part of the listing, are not missing. -/
theorem Archive.Backed.not_missing_of_reached (h : archive.Backed source state) {done rest : List ι}
    (hlisted : (done ++ item :: rest).Sublist (archive.listing scope))
    (hreached : ¬Ahead source state scope item) :
    ∀ other ∈ item :: rest, ¬archive.Missing source scope other := by
  obtain ⟨fresh, old, heq, hfresh, hold⟩ := h.split scope
  rw [heq] at hlisted
  obtain ⟨first, second, hparts, hfirst, hsecond⟩ := List.sublist_append_iff.mp hlisted
  have hbehind : item ∉ first := fun hmem => hreached (hfresh item (hfirst.subset hmem))
  intro other hother
  apply hold other
  apply hsecond.subset
  rcases List.append_eq_append_iff.mp hparts with hlong | hshort
  · obtain ⟨more, hmore, hrest⟩ := hlong
    cases more with
    | nil =>
        rw [List.nil_append] at hrest
        rw [← hrest]
        exact hother
    | cons head more =>
        obtain ⟨rfl, -⟩ := List.cons.inj hrest
        refine absurd ?_ hbehind
        rw [hmore]
        exact List.mem_append_right _ List.mem_cons_self
  · obtain ⟨more, -, hrest⟩ := hshort
    rw [hrest]
    exact List.mem_append_right _ hother

/-- Below the floor of the window nothing is missing. -/
theorem Archive.NewestFirst.not_missing_of_older (h : archive.NewestFirst source) {done rest : List ι}
    {floor : Option String} (hlisted : (done ++ item :: rest).Sublist (archive.listing scope))
    (hwindow : ∀ f ∈ floor, archive.window scope = some f)
    (holder : older floor (source.sortCursor item)) :
    ∀ other ∈ item :: rest, ¬archive.Missing source scope other := by
  obtain ⟨c, f, hc, hf, hlt⟩ : ∃ c f, source.sortCursor item = some c ∧ floor = some f ∧ c < f := by
    unfold older at holder
    split at holder
    next c f hc => exact ⟨c, f, hc, rfl, of_decide_eq_true holder⟩
    next => cases holder
  have hle (d : String) (other : ι) (hother : other ∈ item :: rest)
      (hd : source.sortCursor other = some d) : d ≤ c := by
    rcases List.mem_cons.mp hother with rfl | hrest
    · rw [hc] at hd
      exact (Option.some.inj hd).symm.le
    · have hpairs := List.pairwise_append.mp ((h scope).sublist hlisted)
      exact (List.pairwise_cons.mp hpairs.2.1).1 other hrest c hc d hd
  intro other hother hmissing
  obtain ⟨d, hd, hfd⟩ := hmissing.inWindow f (hwindow f hf)
  exact absurd (hfd.trans (hle d other hother hd)) (not_le_of_gt hlt)

end Facts

end TinyCortex.Sync
