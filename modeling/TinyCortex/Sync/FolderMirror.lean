import TinyCortex.Lib.Decimal
import TinyCortex.Sync.Workspace

/-! A folder source mirrors its folder: what each loop of a tick leaves, what the calls to the sink since the
last tick that succeeded say about the stored documents, and the runs of ticks. -/

namespace TinyCortex.Sync.Workspace

theorem lastCall_nil (itemId : String) : lastCall [] itemId = none := rfl

theorem lastCall_concat (calls : List SinkCall) (call : SinkCall) (itemId : String) :
    lastCall (calls ++ [call]) itemId = if call.itemId = itemId then some call else lastCall calls itemId := by
  rw [lastCall, List.filter_append, List.filter_cons]
  by_cases h : call.itemId = itemId
  · rw [if_pos (decide_eq_true h), if_pos h, List.filter_nil, List.getLast?_concat]
  · rw [if_neg (by rwa [decide_eq_true_iff]), if_neg h, List.filter_nil, List.append_nil]
    rfl

/-- Equal versions of a file with a time and another file are equal times. -/
theorem File.updatedAtMs_of_version {file other : File} (hsome : file.updatedAtMs.isSome)
    (h : other.version = file.version) : other.updatedAtMs = file.updatedAtMs := by
  obtain ⟨time, htime⟩ := Option.isSome_iff_exists.mp hsome
  have hversion : file.version = toString time := by rw [File.version, htime]
  rw [hversion, File.version] at h
  rw [htime]
  cases hother : other.updatedAtMs with
  | some value =>
      rw [hother] at h
      rw [Decimal.toString_inj h]
  | none =>
      rw [hother] at h
      have hmem : 'u' ∈ "unknown".toList := by decide
      rw [show "unknown" = toString time from h] at hmem
      exact absurd (Decimal.isDigit_of_mem hmem) (by decide)

theorem lastCall_upsert (calls : List SinkCall) (file : File) (itemId : String) :
    lastCall (calls ++ [.upsert file.id file.version]) itemId =
      if file.id = itemId then some (.upsert file.id file.version) else lastCall calls itemId :=
  lastCall_concat calls _ itemId

theorem lastCall_delete (calls : List SinkCall) (itemId other : String) :
    lastCall (calls ++ [.delete itemId]) other =
      if itemId = other then some (.delete itemId) else lastCall calls other :=
  lastCall_concat calls _ other

section Tick

variable {fromTimestampMillis : Int → Option Int} {source : MemorySourceEntry}

theorem sourceId_inj {itemId other : String} (h : sourceId source itemId = sourceId source other) :
    itemId = other :=
  (String.append_right_inj _).mp h

theorem document_congr {nowMs : Int} {file other : File} (hid : other.id = file.id)
    (htime : other.updatedAtMs = file.updatedAtMs) (hbody : other.body = file.body) :
    document fromTimestampMillis source nowMs other = document fromTimestampMillis source nowMs file := by
  rw [document, document, hid, htime, hbody]

/-- The document under an item's id. -/
def Host.stored (source : MemorySourceEntry) (host : Host) (itemId : String) : Option LocalDocument :=
  host.documents.get (sourceId source itemId)

theorem Host.stored_upsert (host : Host) (nowMs : Int) (file : File) (itemId : String) :
    (host.upsert fromTimestampMillis source nowMs file).stored source itemId =
      if file.id = itemId then some (document fromTimestampMillis source nowMs file)
      else host.stored source itemId := by
  rw [Host.stored, Host.upsert, OrderedMap.get_insert]
  by_cases h : file.id = itemId
  · rw [if_pos (congrArg _ h), if_pos h]
  · rw [if_neg fun hid => h (sourceId_inj hid), if_neg h]
    rfl

theorem Host.stored_delete (host : Host) (itemId other : String) :
    (host.delete source itemId).stored source other =
      if itemId = other then none else host.stored source other := by
  rw [Host.stored, Host.delete, OrderedMap.get_erase]
  by_cases h : itemId = other
  · rw [if_pos (congrArg _ h), if_pos h]
  · rw [if_neg fun hid => h (sourceId_inj hid), if_neg h]
    rfl

/-- Whatever each upsert keeps, the loop over the items keeps, also when it ends early. -/
theorem itemLoop_keeps {P : Host → Prop} {tick : Tick} {saved : OrderedMap String String} {files : List File}
    {host : Host} {versions : OrderedMap String String} {ingested : Nat}
    (hupsert : ∀ file ∈ files, ∀ host, P host →
      P (host.upsert fromTimestampMillis source (tick.nowMs file.id) file)) (h : P host) :
    P (itemLoop fromTimestampMillis source tick saved files host versions ingested).1 := by
  induction files generalizing host versions ingested with
  | nil => exact h
  | cons file files ih =>
      have hrest := fun other hother => hupsert other (List.mem_cons_of_mem file hother)
      have hafter := hupsert file List.mem_cons_self host h
      dsimp only [itemLoop]
      by_cases hskips : skips saved file
      · rw [if_pos hskips]
        exact ih hrest h
      rw [if_neg hskips]
      by_cases hread : tick.readFails file.id
      · rw [if_pos hread]
        exact h
      rw [if_neg hread]
      cases tick.upsert file.id with
      | done => exact ih hrest hafter
      | failed => exact h
      | failedAfter => exact hafter

/-- What the loop over the items leaves when it comes to its end. -/
structure ItemsDone (fromTimestampMillis : Int → Option Int) (source : MemorySourceEntry)
    (saved : OrderedMap String String) (files : List File) (before after : Host)
    (versions found : OrderedMap String String) : Prop where
  stored : ∀ file ∈ files, ¬skips saved file → (∃ nowMs, after.stored source file.id =
    some (document fromTimestampMillis source nowMs file)) ∧ (lastCall after.calls file.id).isSome
  others : ∀ itemId, (∀ file ∈ files, file.id = itemId → skips saved file) →
    after.stored source itemId = before.stored source itemId ∧
      lastCall after.calls itemId = lastCall before.calls itemId
  listed : ∀ file ∈ files, found.get file.id = some file.version
  unlisted : ∀ itemId, itemId ∉ files.map File.id → found.get itemId = versions.get itemId

theorem itemLoop_done {tick : Tick} {saved : OrderedMap String String} {files : List File} {host after : Host}
    {versions found : OrderedMap String String} {ingested count : Nat} (hnames : (files.map File.id).Nodup)
    (h : itemLoop fromTimestampMillis source tick saved files host versions ingested =
      (after, .ok (found, count))) :
    ItemsDone fromTimestampMillis source saved files host after versions found := by
  induction files generalizing host versions ingested with
  | nil =>
      obtain ⟨rfl, hok⟩ := Prod.mk.inj h
      obtain ⟨rfl, -⟩ := Prod.mk.inj (Except.ok.inj hok)
      exact ⟨fun _ hfile => absurd hfile List.not_mem_nil, fun _ _ => ⟨rfl, rfl⟩,
        fun _ hfile => absurd hfile List.not_mem_nil, fun _ _ => rfl⟩
  | cons file files ih =>
      obtain ⟨hfresh, hrest⟩ := List.nodup_cons.mp hnames
      have hapart : ∀ other ∈ files, other.id ≠ file.id := by
        intro other hother hid
        exact hfresh (hid ▸ List.mem_map_of_mem hother)
      -- the versions are noted before anything else happens to the item
      have hversions : ∀ {middle}, ItemsDone fromTimestampMillis source saved files middle after
          (versions.insert file.id file.version) found →
          (∀ other ∈ file :: files, found.get other.id = some other.version) ∧
            ∀ itemId, itemId ∉ (file :: files).map File.id → found.get itemId = versions.get itemId := by
        intro middle hdone
        refine ⟨fun other hother => ?_, fun itemId hitem => ?_⟩
        · rcases List.mem_cons.mp hother with rfl | hother
          · rw [hdone.unlisted _ hfresh, OrderedMap.get_insert, if_pos rfl]
          · exact hdone.listed other hother
        · obtain ⟨hne, hitem⟩ := not_or.mp fun h => hitem (List.mem_cons.mpr h)
          rw [hdone.unlisted itemId hitem, OrderedMap.get_insert, if_neg (Ne.symm hne)]
      dsimp only [itemLoop] at h
      by_cases hskips : skips saved file
      · rw [if_pos hskips] at h
        have hdone := ih hrest h
        refine ⟨fun other hother hnot => ?_, fun itemId hall => ?_, hversions hdone |>.1, hversions hdone |>.2⟩
        · rcases List.mem_cons.mp hother with rfl | hother
          · exact absurd hskips hnot
          · exact hdone.stored other hother hnot
        · exact hdone.others itemId fun other hother => hall other (List.mem_cons_of_mem file hother)
      rw [if_neg hskips] at h
      by_cases hread : tick.readFails file.id
      · rw [if_pos hread] at h
        cases (Prod.mk.inj h).2
      rw [if_neg hread] at h
      cases hupsert : tick.upsert file.id with
      | failed =>
          rw [hupsert] at h
          cases (Prod.mk.inj h).2
      | failedAfter =>
          rw [hupsert] at h
          cases (Prod.mk.inj h).2
      | done =>
          rw [hupsert] at h
          have hdone := ih hrest h
          have hkeep := hdone.others file.id fun other hother hid => absurd hid (hapart other hother)
          refine ⟨fun other hother hnot => ?_, fun itemId hall => ?_, hversions hdone |>.1,
            hversions hdone |>.2⟩
          · rcases List.mem_cons.mp hother with rfl | hother
            · refine ⟨⟨tick.nowMs other.id, ?_⟩, ?_⟩
              · rw [hkeep.1, Host.stored_upsert, if_pos rfl]
              · rw [hkeep.2]
                dsimp only [Host.upsert]
                rw [lastCall_upsert, if_pos rfl]
                rfl
            · exact hdone.stored other hother hnot
          · have hne : file.id ≠ itemId := fun hid => hskips (hall file List.mem_cons_self hid)
            obtain ⟨hstored, hcalls⟩ :=
              hdone.others itemId fun other hother => hall other (List.mem_cons_of_mem file hother)
            refine ⟨?_, ?_⟩
            · rw [hstored, Host.stored_upsert, if_neg hne]
            · rw [hcalls]
              dsimp only [Host.upsert]
              rw [lastCall_upsert, if_neg hne]

/-- Whatever each deletion keeps, the loop over the removed items keeps. -/
theorem deleteLoop_keeps {P : Host → Prop} {tick : Tick} {removed : List String} {host : Host}
    (hdelete : ∀ itemId ∈ removed, ∀ host, P host → P (host.delete source itemId)) (h : P host) :
    P (deleteLoop source tick removed host).1 := by
  induction removed generalizing host with
  | nil => exact h
  | cons itemId rest ih =>
      have hrest := fun other hother => hdelete other (List.mem_cons_of_mem itemId hother)
      have hafter := hdelete itemId List.mem_cons_self host h
      dsimp only [deleteLoop]
      cases tick.delete itemId with
      | done => exact ih hrest hafter
      | failed => exact h
      | failedAfter => exact hafter

/-- What the loop over the removed items leaves when it comes to its end. -/
structure ItemsDeleted (source : MemorySourceEntry) (removed : List String) (before after : Host) : Prop where
  deleted : ∀ itemId ∈ removed, after.stored source itemId = none ∧ (lastCall after.calls itemId).isSome
  others : ∀ itemId, itemId ∉ removed → after.stored source itemId = before.stored source itemId ∧
    lastCall after.calls itemId = lastCall before.calls itemId

theorem deleteLoop_done {tick : Tick} {removed : List String} {host after : Host}
    (h : deleteLoop source tick removed host = (after, .ok ())) : ItemsDeleted source removed host after := by
  induction removed generalizing host with
  | nil =>
      obtain ⟨rfl, -⟩ := Prod.mk.inj h
      exact ⟨fun _ hitem => absurd hitem List.not_mem_nil, fun _ _ => ⟨rfl, rfl⟩⟩
  | cons itemId rest ih =>
      dsimp only [deleteLoop] at h
      cases hdelete : tick.delete itemId with
      | failed =>
          rw [hdelete] at h
          cases (Prod.mk.inj h).2
      | failedAfter =>
          rw [hdelete] at h
          cases (Prod.mk.inj h).2
      | done =>
          rw [hdelete] at h
          have hdone := ih h
          refine ⟨fun other hother => ?_, fun other hother => ?_⟩
          · by_cases hrest : other ∈ rest
            · exact hdone.deleted other hrest
            · obtain rfl := (List.mem_cons.mp hother).resolve_right hrest
              obtain ⟨hstored, hcalls⟩ := hdone.others other hrest
              rw [hstored, hcalls, Host.stored_delete, if_pos rfl]
              dsimp only [Host.delete]
              rw [lastCall_delete, if_pos rfl]
              exact ⟨rfl, rfl⟩
          · obtain ⟨hne, hrest⟩ := not_or.mp fun h => hother (List.mem_cons.mpr h)
            obtain ⟨hstored, hcalls⟩ := hdone.others other hrest
            rw [hstored, hcalls, Host.stored_delete, if_neg (Ne.symm hne)]
            dsimp only [Host.delete]
            rw [lastCall_delete, if_neg (Ne.symm hne)]
            exact ⟨rfl, rfl⟩

theorem itemLoop_unfailing {tick : Tick} {saved : OrderedMap String String} {files : List File}
    {host after : Host} {versions : OrderedMap String String} {ingested : Nat}
    {done : OrderedMap String String × Nat} (h : itemLoop fromTimestampMillis source tick saved files host
      versions ingested = (after, .ok done)) {file : File} (hfile : file ∈ files) (hskips : ¬skips saved file) :
    ¬tick.readFails file.id ∧ tick.upsert file.id = .done := by
  induction files generalizing host versions ingested with
  | nil => exact absurd hfile List.not_mem_nil
  | cons first files ih =>
      dsimp only [itemLoop] at h
      by_cases hfirst : skips saved first
      · rw [if_pos hfirst] at h
        have hne : file ≠ first := fun heq => hskips (heq ▸ hfirst)
        exact ih h ((List.mem_cons.mp hfile).resolve_left hne)
      rw [if_neg hfirst] at h
      by_cases hread : tick.readFails first.id
      · rw [if_pos hread] at h
        cases (Prod.mk.inj h).2
      rw [if_neg hread] at h
      cases hupsert : tick.upsert first.id with
      | done =>
          rw [hupsert] at h
          rcases List.mem_cons.mp hfile with rfl | hfile
          · exact ⟨hread, hupsert⟩
          · exact ih h hfile
      | failed =>
          rw [hupsert] at h
          cases (Prod.mk.inj h).2
      | failedAfter =>
          rw [hupsert] at h
          cases (Prod.mk.inj h).2

theorem deleteLoop_unfailing {tick : Tick} {removed : List String} {host after : Host}
    (h : deleteLoop source tick removed host = (after, .ok ())) {itemId : String} (hitem : itemId ∈ removed) :
    tick.delete itemId = .done := by
  induction removed generalizing host with
  | nil => exact absurd hitem List.not_mem_nil
  | cons first rest ih =>
      dsimp only [deleteLoop] at h
      cases hdelete : tick.delete first with
      | done =>
          rw [hdelete] at h
          rcases List.mem_cons.mp hitem with rfl | hitem
          · exact hdelete
          · exact ih h hitem
      | failed =>
          rw [hdelete] at h
          cases (Prod.mk.inj h).2
      | failedAfter =>
          rw [hdelete] at h
          cases (Prod.mk.inj h).2

theorem mem_removedItems {tick : Tick} {saved : OrderedMap String String} {itemId : String}
    (hkind : source.kind = .folder) : itemId ∈ removedItems source tick saved ↔
      (saved.get itemId).isSome ∧ itemId ∉ tick.files.map File.id := by
  rw [removedItems, if_pos hkind, List.mem_filter, (tick.order.perm _).mem_iff, OrderedMap.mem_keys_iff,
    decide_eq_true_iff]

/-- How a tick of an enabled source ends: early, with whatever each call to the sink keeps, or with both loops
done and the state stored, whether the call says so or not; it succeeds only if no call failed. -/
theorem runTick_cases {tick : Tick} {host : Host} {P : Host → Prop} (henabled : source.enabled)
    (hnames : (tick.files.map File.id).Nodup)
    (hupsert : ∀ file ∈ tick.files, ∀ host, P host →
      P (host.upsert fromTimestampMillis source (tick.nowMs file.id) file))
    (hdelete : ∀ itemId host, P host → P (host.delete source itemId)) (h : P host) :
    (∃ after error, runTick fromTimestampMillis source tick host = (after, .error error) ∧ P after) ∨
      ∃ middle deleted versions result, ItemsDone fromTimestampMillis source host.load.itemVersions
          tick.files host middle [] versions ∧
        ItemsDeleted source (removedItems source tick host.load.itemVersions) middle deleted ∧ P deleted ∧
          runTick fromTimestampMillis source tick host =
              ({ deleted with state := some ⟨versions, some tick.savedAtMs⟩ }, result) ∧
            (result.toBool → Unfailing source host tick) := by
  rw [runTick, if_neg (by rw [henabled]; exact Bool.noConfusion)]
  by_cases hload : tick.loadFails
  · rw [if_pos hload]
    exact Or.inl ⟨host, _, rfl, h⟩
  rw [if_neg hload]
  by_cases hlist : tick.listFails
  · rw [if_pos hlist]
    exact Or.inl ⟨host, _, rfl, h⟩
  rw [if_neg hlist]
  dsimp only
  have hitems : P (itemLoop fromTimestampMillis source tick host.load.itemVersions tick.files host [] 0).1 :=
    itemLoop_keeps hupsert h
  cases hloop : itemLoop fromTimestampMillis source tick host.load.itemVersions tick.files host [] 0 with
  | mk middle result =>
      rw [hloop] at hitems
      cases result with
      | error error => exact Or.inl ⟨middle, error, rfl, hitems⟩
      | ok done =>
          obtain ⟨versions, ingested⟩ := done
          have hdone := itemLoop_done hnames hloop
          have hremoved : P (deleteLoop source tick
              (removedItems source tick host.load.itemVersions) middle).1 :=
            deleteLoop_keeps (fun itemId _ => hdelete itemId) hitems
          dsimp only
          cases hdel : deleteLoop source tick (removedItems source tick host.load.itemVersions) middle with
          | mk deleted outcome =>
              rw [hdel] at hremoved
              cases outcome with
              | error error => exact Or.inl ⟨deleted, error, rfl, hremoved⟩
              | ok =>
                  have hdeleted := deleteLoop_done hdel
                  cases hsave : tick.save with
                  | failed => exact Or.inl ⟨deleted, _, rfl, hremoved⟩
                  | failedAfter =>
                      exact Or.inr ⟨middle, deleted, versions, _, hdone, hdeleted, hremoved, rfl,
                        fun hok => absurd hok Bool.false_ne_true⟩
                  | done =>
                      refine Or.inr ⟨middle, deleted, versions, _, hdone, hdeleted, hremoved, rfl, fun _ => ?_⟩
                      exact ⟨hload, hlist, fun file hfile hskips => (itemLoop_unfailing hloop hfile hskips).1,
                        fun file hfile hskips => (itemLoop_unfailing hloop hfile hskips).2,
                        fun itemId hitem => deleteLoop_unfailing hdel hitem, hsave⟩

end Tick

section Run

variable {fromTimestampMillis : Int → Option Int} {source : MemorySourceEntry}

/-- The version an item stands at, by the calls since the last tick that succeeded. -/
def lastKnown (settled : OrderedMap String String) (calls : List SinkCall) (itemId : String) : Option String :=
  match lastCall calls itemId with
  | none => settled.get itemId
  | some (.upsert _ version) => some version
  | some (.delete _) => none

/-- The document of an item is that of a file that was seen, at this version. -/
def Stands (fromTimestampMillis : Int → Option Int) (source : MemorySourceEntry) (seen : List File)
    (host : Host) (itemId : String) : Option String → Prop
  | none => host.stored source itemId = none
  | some version => ∃ file ∈ seen, file.id = itemId ∧ file.version = version ∧
      ∃ nowMs, host.stored source itemId = some (document fromTimestampMillis source nowMs file)

def Recorded (fromTimestampMillis : Int → Option Int) (source : MemorySourceEntry)
    (settled : OrderedMap String String) (seen : List File) (host : Host) : Prop :=
  ∀ itemId, Stands fromTimestampMillis source seen host itemId (lastKnown settled host.calls itemId)

variable {settled : OrderedMap String String} {seen : List File} {host : Host}

theorem Stands.mono {more : List File} {itemId : String} {version : Option String}
    (h : Stands fromTimestampMillis source seen host itemId version) :
    Stands fromTimestampMillis source (seen ++ more) host itemId version := by
  cases version with
  | none => exact h
  | some version =>
      obtain ⟨file, hfile, hrest⟩ := h
      exact ⟨file, List.mem_append_left _ hfile, hrest⟩

theorem Stands.congr {after : Host} {itemId : String} {version : Option String}
    (h : Stands fromTimestampMillis source seen host itemId version)
    (hstored : after.stored source itemId = host.stored source itemId) :
    Stands fromTimestampMillis source seen after itemId version := by
  cases version with
  | none => exact hstored.trans h
  | some version =>
      obtain ⟨file, hfile, hid, hversion, nowMs, hdoc⟩ := h
      exact ⟨file, hfile, hid, hversion, nowMs, hstored.trans hdoc⟩

theorem Recorded.upsert {nowMs : Int} {file : File}
    (h : Recorded fromTimestampMillis source settled seen host) (hfile : file ∈ seen) :
    Recorded fromTimestampMillis source settled seen (host.upsert fromTimestampMillis source nowMs file) := by
  intro itemId
  have hstored : (host.upsert fromTimestampMillis source nowMs file).stored source itemId = _ :=
    host.stored_upsert nowMs file itemId
  rw [lastKnown, Host.upsert, lastCall_upsert, ← Host.upsert]
  by_cases hid : file.id = itemId
  · rw [if_pos hid]
    rw [if_pos hid] at hstored
    exact ⟨file, hfile, hid, rfl, nowMs, hstored⟩
  · rw [if_neg hid]
    rw [if_neg hid] at hstored
    exact (h itemId).congr hstored

theorem Recorded.delete {itemId : String} (h : Recorded fromTimestampMillis source settled seen host) :
    Recorded fromTimestampMillis source settled seen (host.delete source itemId) := by
  intro other
  have hstored : (host.delete source itemId).stored source other = _ := host.stored_delete itemId other
  rw [lastKnown, Host.delete, lastCall_delete, ← Host.delete]
  by_cases hid : itemId = other
  · rw [if_pos hid]
    rw [if_pos hid] at hstored
    exact hstored
  · rw [if_neg hid]
    rw [if_neg hid] at hstored
    exact (h other).congr hstored

/-- What holds between ticks: the documents are what the calls say, and the saved versions of an item that no
call was about are still those of the last tick that succeeded. -/
structure Sound (fromTimestampMillis : Int → Option Int) (source : MemorySourceEntry) (w : World) : Prop where
  recorded : Recorded fromTimestampMillis source w.settled w.seen w.host
  same : ∀ itemId, lastCall w.host.calls itemId = none →
    w.host.load.itemVersions.get itemId = w.settled.get itemId

theorem Sound.empty : Sound fromTimestampMillis source World.empty :=
  ⟨fun _ => rfl, fun _ _ => rfl⟩

/-- What each call to the sink keeps during a tick. -/
structure Underway (fromTimestampMillis : Int → Option Int) (source : MemorySourceEntry) (w : World)
    (tick : Tick) (host : Host) : Prop where
  recorded : Recorded fromTimestampMillis source w.settled (w.seen ++ tick.files) host
  state : host.state = w.host.state
  calls : ∀ itemId, lastCall host.calls itemId = none → lastCall w.host.calls itemId = none

variable {w : World} {tick : Tick}

theorem Sound.underway (h : Sound fromTimestampMillis source w) :
    Underway fromTimestampMillis source w tick w.host :=
  ⟨fun itemId => (h.recorded itemId).mono, rfl, fun _ hnone => hnone⟩

theorem Underway.upsert {nowMs : Int} {file : File} (h : Underway fromTimestampMillis source w tick host)
    (hfile : file ∈ tick.files) :
    Underway fromTimestampMillis source w tick (host.upsert fromTimestampMillis source nowMs file) := by
  refine ⟨h.recorded.upsert (List.mem_append_right _ hfile), h.state, fun itemId hnone => h.calls itemId ?_⟩
  rw [Host.upsert, lastCall_upsert] at hnone
  by_cases hid : file.id = itemId
  · rw [if_pos hid] at hnone
    cases hnone
  · rwa [if_neg hid] at hnone

theorem Underway.delete {itemId : String} (h : Underway fromTimestampMillis source w tick host) :
    Underway fromTimestampMillis source w tick (host.delete source itemId) := by
  refine ⟨h.recorded.delete, h.state, fun other hnone => h.calls other ?_⟩
  rw [Host.delete, lastCall_delete] at hnone
  by_cases hid : itemId = other
  · rw [if_pos hid] at hnone
    cases hnone
  · rwa [if_neg hid] at hnone

section Done

variable {middle deleted : Host} {versions : OrderedMap String String}

/-- With both loops done, each listed file stands at its version and every other item is gone. -/
theorem mirrors_of_done (hkind : source.kind = .folder) (h : Sound fromTimestampMillis source w)
    (hfolder : Folder w tick) (hundeceived : Undeceived w tick)
    (hdone : ItemsDone fromTimestampMillis source w.host.load.itemVersions tick.files w.host middle [] versions)
    (hdeleted : ItemsDeleted source (removedItems source tick w.host.load.itemVersions) middle deleted) :
    Mirrors fromTimestampMillis source tick.files deleted.documents := by
  refine ⟨fun file hfile => ?_, fun itemId hitem => ?_⟩
  · have hlisted : file.id ∈ tick.files.map File.id := List.mem_map_of_mem hfile
    have hafter := (hdeleted.others file.id fun hremoved => ((mem_removedItems hkind).mp hremoved).2 hlisted).1
    rw [Host.stored] at hafter
    rw [hafter]
    by_cases hskips : skips w.host.load.itemVersions file
    · -- the document is from an earlier tick, at this version
      have honly : ∀ other ∈ tick.files, other.id = file.id → skips w.host.load.itemVersions other := by
        intro other hother hid
        rw [List.inj_on_of_nodup_map hfolder.names hother hfile hid]
        exact hskips
      rw [(hdone.others file.id honly).1]
      obtain ⟨hsome, hsaved⟩ := Bool.and_eq_true_iff.mp hskips
      have hknown : lastKnown w.settled w.host.calls file.id = some file.version := by
        rw [lastKnown]
        cases hcall : lastCall w.host.calls file.id with
        | none =>
            dsimp only
            rw [← h.same file.id hcall]
            exact beq_iff_eq.mp hsaved
        | some call => rw [(hundeceived file.id call hcall).2 file hfile rfl hskips]
      have hstands := h.recorded file.id
      rw [hknown] at hstands
      obtain ⟨other, hother, hid, hversion, nowMs, hdoc⟩ := hstands
      have htime := File.updatedAtMs_of_version hsome hversion
      refine ⟨nowMs, hdoc.trans ?_⟩
      rw [document_congr hid htime (hfolder.times file hfile other hother hid hsome htime)]
    · exact (hdone.stored file hfile hskips).1
  · by_cases hsaved : (w.host.load.itemVersions.get itemId).isSome
    · exact (hdeleted.deleted itemId ((mem_removedItems hkind).mpr ⟨hsaved, hitem⟩)).1
    · have hafter :=
        (hdeleted.others itemId fun hremoved => hsaved ((mem_removedItems hkind).mp hremoved).1).1
      have hmiddle := (hdone.others itemId fun file hfile hid =>
        absurd (hid ▸ List.mem_map_of_mem hfile) hitem).1
      rw [Host.stored] at hafter
      rw [hafter, hmiddle]
      have hknown : lastKnown w.settled w.host.calls itemId = none := by
        rw [lastKnown]
        cases hcall : lastCall w.host.calls itemId with
        | none =>
            dsimp only
            rw [← h.same itemId hcall]
            exact Option.not_isSome_iff_eq_none.mp hsaved
        | some call =>
            cases call with
            | upsert other version =>
                have hid : other = itemId := by
                  have hmem := List.mem_of_getLast? hcall
                  exact of_decide_eq_true (List.mem_filter.mp hmem).2
                exact absurd ((hundeceived itemId _ hcall).1 version (by rw [hid]) hitem) hsaved
            | delete other => rfl
      have hstands := h.recorded itemId
      rw [hknown] at hstands
      exact hstands

/-- An item that no call was about keeps its version in what the tick saves. -/
theorem same_of_done (hkind : source.kind = .folder) (h : Sound fromTimestampMillis source w)
    (hdone : ItemsDone fromTimestampMillis source w.host.load.itemVersions tick.files w.host middle [] versions)
    (hdeleted : ItemsDeleted source (removedItems source tick w.host.load.itemVersions) middle deleted)
    {itemId : String} (hnone : lastCall deleted.calls itemId = none) :
    versions.get itemId = w.settled.get itemId := by
  have hkept : itemId ∉ removedItems source tick w.host.load.itemVersions := by
    intro hremoved
    have hcalled := (hdeleted.deleted itemId hremoved).2
    rw [hnone] at hcalled
    cases hcalled
  rw [(hdeleted.others itemId hkept).2] at hnone
  have hskips : ∀ file ∈ tick.files, file.id = itemId → skips w.host.load.itemVersions file := by
    intro file hfile hid
    by_contra hnot
    have hcalled := (hdone.stored file hfile hnot).2
    rw [hid, hnone] at hcalled
    cases hcalled
  rw [(hdone.others itemId hskips).2] at hnone
  rw [← h.same itemId hnone]
  by_cases hlisted : itemId ∈ tick.files.map File.id
  · obtain ⟨file, hfile, hid⟩ := List.mem_map.mp hlisted
    have hsaved := (Bool.and_eq_true_iff.mp (hskips file hfile hid)).2
    rw [← hid, hdone.listed file hfile, beq_iff_eq.mp hsaved]
  · have hsaved : ¬(w.host.load.itemVersions.get itemId).isSome :=
      fun hsome => hkept ((mem_removedItems hkind).mpr ⟨hsome, hlisted⟩)
    rw [hdone.unlisted itemId hlisted, Option.not_isSome_iff_eq_none.mp hsaved]
    rfl

/-- What is mirrored is recorded by the versions of the listing. -/
theorem recorded_of_mirrors (hmirrors : Mirrors fromTimestampMillis source tick.files deleted.documents)
    (hdone : ItemsDone fromTimestampMillis source w.host.load.itemVersions tick.files w.host middle [] versions)
    {state : Option SyncState} : Recorded fromTimestampMillis source versions (w.seen ++ tick.files)
      ⟨deleted.documents, state, []⟩ := by
  intro itemId
  rw [lastKnown, lastCall_nil]
  by_cases hlisted : itemId ∈ tick.files.map File.id
  · obtain ⟨file, hfile, rfl⟩ := List.mem_map.mp hlisted
    dsimp only
    rw [hdone.listed file hfile]
    exact ⟨file, List.mem_append_right _ hfile, rfl, rfl, hmirrors.listed file hfile⟩
  · dsimp only
    rw [hdone.unlisted itemId hlisted]
    exact hmirrors.unlisted itemId hlisted

end Done

theorem Sound.step (hkind : source.kind = .folder) (henabled : source.enabled)
    (h : Sound fromTimestampMillis source w) (hfolder : Folder w tick)
    (hkept : Kept source w tick) :
    Sound fromTimestampMillis source (advance fromTimestampMillis source w tick) ∧
      MirrorsAfter fromTimestampMillis source w tick := by
  have hupsert : ∀ file ∈ tick.files, ∀ host, Underway fromTimestampMillis source w tick host →
      Underway fromTimestampMillis source w tick
        (host.upsert fromTimestampMillis source (tick.nowMs file.id) file) :=
    fun _ hfile _ hunder => hunder.upsert hfile
  have hdelete : ∀ itemId host, Underway fromTimestampMillis source w tick host →
      Underway fromTimestampMillis source w tick (host.delete source itemId) :=
    fun _ _ hunder => hunder.delete
  rw [MirrorsAfter, advance]
  rcases runTick_cases henabled hfolder.names hupsert hdelete h.underway with
    ⟨after, error, htick, hunder⟩ | ⟨middle, deleted, versions, result, hdone, hdeleted, hunder, htick, hunfailing⟩
  · rw [htick]
    refine ⟨⟨hunder.recorded, fun itemId hnone => ?_⟩, fun hok => absurd hok Bool.false_ne_true⟩
    dsimp only [Host.load]
    rw [hunder.state]
    exact h.same itemId (hunder.calls itemId hnone)
  · rw [htick]
    cases result with
    | error error =>
        refine ⟨⟨hunder.recorded, fun itemId hnone => ?_⟩, fun hok => absurd hok Bool.false_ne_true⟩
        exact same_of_done hkind h hdone hdeleted hnone
    | ok outcome =>
        have hmirrors := mirrors_of_done hkind h hfolder (hkept (hunfailing rfl)) hdone hdeleted
        exact ⟨⟨recorded_of_mirrors hmirrors hdone, fun _ _ => rfl⟩, fun _ _ => hmirrors⟩

/-- In a run whose ticks that succeed are not deceived by the failed ticks before them, each tick that succeeds
leaves the folder mirrored. -/
theorem mirrors_run (fromTimestampMillis : Int → Option Int) (source : MemorySourceEntry)
    (hkind : source.kind = .folder) (ticks : List Tick)
    (hfolder : (pipeline fromTimestampMillis source).AllSteps Folder ticks)
    (hkept : (pipeline fromTimestampMillis source).AllSteps (Kept source) ticks) :
    (pipeline fromTimestampMillis source).AllSteps (MirrorsAfter fromTimestampMillis source) ticks := by
  intro done tick rest heq
  by_cases henabled : source.enabled
  · have hboth : (pipeline fromTimestampMillis source).AllSteps
        (fun w tick => Folder w tick ∧ Kept source w tick) ticks :=
      fun before a after h => ⟨hfolder before a after h, hkept before a after h⟩
    have hsound := (pipeline fromTimestampMillis source).invariant_of_steps Sound.empty
      (fun _ _ h hok => (Sound.step hkind henabled h hok.1 hok.2).1)
      (Machine.AllSteps.of_prefix _ hboth ⟨tick :: rest, heq.symm⟩)
    exact (hsound.step hkind henabled (hfolder done tick rest heq) (hkept done tick rest heq)).2
  · exact fun _ h => absurd h henabled

end Run

instance {w : World} {tick : Tick} : Decidable (Folder w tick) :=
  decidable_of_iff ((tick.files.map File.id).Nodup ∧ ∀ file ∈ tick.files, ∀ other ∈ w.seen,
      other.id = file.id → file.updatedAtMs.isSome → other.updatedAtMs = file.updatedAtMs →
        other.body = file.body)
    ⟨fun h => ⟨h.1, h.2⟩, fun h => ⟨h.names, h.times⟩⟩

def notes : MemorySourceEntry := ⟨"folder-1", .folder, true⟩

/-- A tick in which nothing fails but the reading of some items. -/
def readTick (files : List File) (readFails : String → Bool) : Tick where
  files := files
  loadFails := false
  listFails := false
  readFails := readFails
  upsert := fun _ => .done
  delete := fun _ => .done
  save := .done
  nowMs := fun _ => 0
  savedAtMs := 0
  order := ⟨id, List.Perm.refl⟩

def daily : File := ⟨"daily.md", some 1000, "first"⟩

def plans : File := ⟨"plans.md", some 2000, "second"⟩

/-- The reading of the second file fails, when the first is stored. -/
def firstTick : Tick := readTick [daily, plans] fun itemId => itemId == "plans.md"

theorem run_firstTick : ((pipeline some notes).run [firstTick]).host.calls = [.upsert "daily.md" "1000"] ∧
    ((pipeline some notes).run [firstTick]).host.state = none ∧
    (pipeline some notes).StepsFrom Folder World.empty [firstTick, readTick [daily, plans] fun _ => false] ∧
    (pipeline some notes).StepsFrom Folder World.empty [firstTick, readTick [plans] fun _ => false] ∧
    (runTick some notes (readTick [plans] fun _ => false)
      ((pipeline some notes).run [firstTick]).host).2.toBool ∧
    ((pipeline some notes).run [firstTick, readTick [plans] fun _ => false]).host.documents.get
      (sourceId notes "daily.md") = some (document some notes 0 daily) := by
  decide +kernel

theorem mirrors_retried : (pipeline some notes).AllSteps (MirrorsAfter some notes)
    [firstTick, readTick [daily, plans] fun _ => false] := by
  obtain ⟨hcalls, hstate, hfolder, -⟩ := run_firstTick
  refine mirrors_run some notes rfl _ ((pipeline some notes).allSteps_iff_stepsFrom.mpr hfolder)
    ((pipeline some notes).allSteps_iff_stepsFrom.mpr ⟨fun _ itemId call hcall => ?_, fun _ => ?_, trivial⟩)
  · cases hcall
  · intro itemId call hcall
    have hfirst : ((pipeline some notes).step (pipeline some notes).start firstTick).host.calls =
      [] ++ [.upsert "daily.md" "1000"] := hcalls
    have hload : ((pipeline some notes).step (pipeline some notes).start firstTick).host.load = ⟨[], none⟩ := by
      rw [Host.load]
      exact congrArg (fun state => Option.getD state ⟨[], none⟩) hstate
    rw [hfirst, lastCall_concat] at hcall
    by_cases hid : "daily.md" = itemId
    · subst hid
      refine ⟨fun _ _ hunlisted => absurd (by decide) hunlisted, fun file _ _ hskips => ?_⟩
      rw [hload] at hskips
      exact absurd (Bool.and_eq_true_iff.mp hskips).2 Bool.false_ne_true
    · rw [if_neg (show ¬(SinkCall.upsert "daily.md" "1000").itemId = itemId from hid)] at hcall
      cases hcall

/-- The file that the failed tick stored is removed before the next tick: its document stays. -/
theorem mirrors_fails : ¬∀ ticks, (pipeline some notes).AllSteps Folder ticks →
    (pipeline some notes).AllSteps (MirrorsAfter some notes) ticks := by
  intro h
  obtain ⟨-, -, -, hfolder, hok, hdoc⟩ := run_firstTick
  have hmirrors := h _ ((pipeline some notes).allSteps_iff_stepsFrom.mpr hfolder) [firstTick]
    (readTick [plans] fun _ => false) [] rfl hok rfl
  have hnone := hmirrors.unlisted "daily.md" (by decide)
  rw [show advance some notes ((pipeline some notes).run [firstTick]) (readTick [plans] fun _ => false) =
    (pipeline some notes).run [firstTick, readTick [plans] fun _ => false] from rfl, hdoc] at hnone
  cases hnone

end TinyCortex.Sync.Workspace
