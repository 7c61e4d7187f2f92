import TinyCortex.Archivist.Store
import TinyCortex.Lib.JsonString
import TinyCortex.Lib.Ranking

/-! Turns are appended once. The numbers in use are those below a count; a call publishes under the count itself, for
what it found is at most the count and the link fails below it. -/

namespace TinyCortex.Archivist

open OrderedMap FrontMatter Locks

/-- The number of a call whose turn stands in the archive. -/
def Call.recorded : Call → Option UInt32
  | .linked seq _ => some seq
  | .ok seq => some seq
  | _ => none

def Call.uuids : Call → List (List Char)
  | .link _ uuid => [uuid]
  | .linked _ uuid => [uuid]
  | .lost _ uuid => [uuid]
  | _ => []

/-- What a call has found so far lies within the numbers in use. -/
def Call.Within (count : Nat) : Call → Prop
  | .scan max => -1 ≤ max ∧ max < count
  | .check seq => seq.toNat ≤ count
  | .stage seq => seq.toNat ≤ count
  | .link seq _ => seq.toNat ≤ count
  | _ => True

theorem Call.Within.mono {count more : Nat} (hle : count ≤ more) {call : Call} (h : call.Within count) :
    call.Within more := by
  have hcast : (count : Int) ≤ more := Int.ofNat_le.mpr hle
  cases call with
  | scan max => exact ⟨h.1, lt_of_lt_of_le h.2 hcast⟩
  | check seq => exact le_trans h hle
  | stage seq => exact le_trans h hle
  | link seq uuid => exact le_trans h hle
  | idle | linked | lost | missed | recheck | ok | failed => trivial

variable {ι : Type*} {json : JsonStrings} {given : ι → ArchivedTurn} {s : State ι} {count : Nat}

def Named (name : List Char) : Prop := (∃ n, name = fileName n) ∨ ∃ uuid, name = tmpName uuid

variable (json given) in

structure Holds (s : State ι) (count : Nat) : Prop where
  bound : count ≤ 2 ^ 32
  ordered : Ordered s.dir
  names : ∀ name, (get s.dir name).isSome → Named name
  numbers : ∀ n : UInt32, (∃ i, (s.calls i).recorded = some n) ↔ n.toNat < count
  filled : ∀ n, (get s.dir (fileName n)).isSome → n.toNat < count
  texts : ∀ i n, (s.calls i).recorded = some n →
    get s.dir (fileName n) = some (composeTurn json (assigned given i n))
  numbersOnce : Exclusive (fun call => call.recorded.toList) s.calls
  uuidsOnce : Exclusive Call.uuids s.calls
  present : ∀ i, ∀ uuid ∈ (s.calls i).uuids, (get s.dir (tmpName uuid)).isSome
  staged : ∀ i seq uuid, s.calls i = .link seq uuid →
    get s.dir (tmpName uuid) = some (composeTurn json (assigned given i seq))
  within : ∀ i, (s.calls i).Within count

namespace Holds

theorem start : Holds json given ⟨[], fun _ => .idle⟩ 0 where
  bound := Nat.zero_le _
  ordered := ordered_nil
  names name h := by cases h
  numbers n := iff_of_false (fun h => h.elim fun i hi => by cases hi) (Nat.not_lt_zero _)
  filled n h := by cases h
  texts i n h := by cases h
  numbersOnce i j n h := absurd h List.not_mem_nil
  uuidsOnce i j uuid h := absurd h List.not_mem_nil
  present i uuid h := absurd h List.not_mem_nil
  staged i seq uuid h := by cases h
  within i := trivial

theorem taken_iff (h : Holds json given s count) (n : UInt32) : s.taken n ↔ n.toNat < count := by
  refine ⟨h.filled n, fun hlt => ?_⟩
  obtain ⟨i, hi⟩ := (h.numbers n).mpr hlt
  rw [State.taken, h.texts i n hi]
  rfl

theorem within_start (count : Nat) : (Call.scan (-1)).Within count :=
  ⟨le_rfl, lt_of_lt_of_le (by decide) (Int.natCast_nonneg count)⟩

theorem scan_entry (h : Holds json given s count) {max : Int} (hmax : (Call.scan max).Within count) {name : List Char}
    (hname : (get s.dir name).isSome) : (Call.scan (scanEntry max name)).Within count := by
  rcases h.names name hname with ⟨n, rfl⟩ | ⟨uuid, rfl⟩
  · have hlt := h.filled n hname
    obtain ⟨hlow, hhigh⟩ := hmax
    rw [scanEntry_fileName]
    exact ⟨le_trans hlow (le_max_left _ _), max_lt hhigh (Int.ofNat_lt.mpr hlt)⟩
  · rw [scanEntry_tmpName]
    exact hmax

theorem scan_found {max : Int} (hmax : (Call.scan max).Within count) :
    (UInt32.ofNat (max + 1).toNat).toNat ≤ count := by
  obtain ⟨hlow, hhigh⟩ := hmax
  rw [UInt32.toNat_ofNat']
  exact le_trans (Nat.mod_le _ _) (by omega)

variable [DecidableEq ι]

/-- A step of one call that leaves the numbered files and the other calls' temporary files alone. -/
theorem move (h : Holds json given s count) {i : ι} {call : Call} {dir : Dir} (hordered : Ordered dir)
    (hnames : ∀ name, (get dir name).isSome → Named name)
    (hfiles : ∀ n, get dir (fileName n) = get s.dir (fileName n))
    (hothers : ∀ j, j ≠ i → ∀ uuid ∈ (s.calls j).uuids, get dir (tmpName uuid) = get s.dir (tmpName uuid))
    (huuids : ∀ uuid ∈ call.uuids, uuid ∈ (s.calls i).uuids ∨ Free Call.uuids s.calls uuid)
    (hpresent : ∀ uuid ∈ call.uuids, (get dir (tmpName uuid)).isSome)
    (hstaged : ∀ seq uuid, call = .link seq uuid →
      get dir (tmpName uuid) = some (composeTurn json (assigned given i seq)))
    (hrecorded : call.recorded = (s.calls i).recorded) (hwithin : call.Within count) :
    Holds json given ⟨dir, Function.update s.calls i call⟩ count := by
  have hsame (j : ι) : (Function.update s.calls i call j).recorded = (s.calls j).recorded := by
    by_cases hj : j = i
    · rw [hj, Function.update_self, hrecorded]
    · rw [Function.update_of_ne hj]
  exact
    { bound := h.bound
      ordered := hordered
      names := hnames
      numbers := fun n => by
        rw [← h.numbers n]
        exact exists_congr fun j => by rw [hsame j]
      filled := fun n hn => h.filled n (hfiles n ▸ hn)
      texts := fun j n hj => (hfiles n).trans (h.texts j n (hsame j ▸ hj))
      numbersOnce := h.numbersOnce.release (by rw [hrecorded]; exact List.Subset.refl _)
      uuidsOnce := h.uuidsOnce.update huuids
      present := by
        refine (Function.forall_update_iff s.calls fun _ c =>
          ∀ uuid ∈ c.uuids, (get dir (tmpName uuid)).isSome).mpr ⟨hpresent, ?_⟩
        intro j hj uuid huuid
        rw [hothers j hj uuid huuid]
        exact h.present j uuid huuid
      staged := by
        refine (Function.forall_update_iff s.calls fun j c => ∀ seq uuid, c = .link seq uuid →
          get dir (tmpName uuid) = some (composeTurn json (assigned given j seq))).mpr ⟨hstaged, ?_⟩
        intro j hj seq uuid hlink
        rw [hothers j hj uuid (by rw [hlink]; exact List.mem_singleton_self uuid)]
        exact h.staged j seq uuid hlink
      within := (Function.forall_update_iff s.calls fun _ c => c.Within count).mpr ⟨hwithin, fun j _ => h.within j⟩ }

/-- A step of one call that touches no file. -/
theorem put (h : Holds json given s count) {i : ι} {call : Call} (huuids : call.uuids ⊆ (s.calls i).uuids)
    (hlink : ∀ seq uuid, call ≠ .link seq uuid) (hrecorded : call.recorded = (s.calls i).recorded)
    (hwithin : call.Within count) : Holds json given (s.put i call) count :=
  h.move h.ordered h.names (fun _ => rfl) (fun _ _ _ _ => rfl) (fun _ huuid => Or.inl (huuids huuid))
    (fun uuid huuid => h.present i uuid (huuids huuid)) (fun seq uuid heq => absurd heq (hlink seq uuid)) hrecorded
    hwithin

theorem named_insert {dir : Dir} (hnames : ∀ name, (get dir name).isSome → Named name) {key text : List Char}
    (hkey : Named key) : ∀ name, (get (insert dir key text) name).isSome → Named name := by
  intro name hname
  rw [get_insert] at hname
  split_ifs at hname with heq
  · exact heq ▸ hkey
  · exact hnames name hname

/-- The temporary file is written under a fresh name. -/
theorem stage (h : Holds json given s count) {i : ι} {uuid text : List Char} {call : Call}
    (hfresh : get s.dir (tmpName uuid) = none) (huuids : call.uuids ⊆ [uuid])
    (hlink : ∀ seq other, call = .link seq other → other = uuid ∧ text = composeTurn json (assigned given i seq))
    (hrecorded : call.recorded = (s.calls i).recorded) (hwithin : call.Within count) :
    Holds json given ⟨insert s.dir (tmpName uuid) text, Function.update s.calls i call⟩ count := by
  have hfree : Free Call.uuids s.calls uuid := by
    intro j hj
    have hpresent := h.present j uuid hj
    rw [hfresh] at hpresent
    cases hpresent
  have hself : get (insert s.dir (tmpName uuid) text) (tmpName uuid) = some text := by
    rw [get_insert, if_pos rfl]
  refine h.move h.ordered.insert (named_insert h.names (Or.inr ⟨uuid, rfl⟩)) (fun n => ?_) (fun j _ other hother => ?_)
    (fun other hother => Or.inr ?_) (fun other hother => ?_) (fun seq other heq => ?_) hrecorded hwithin
  · rw [get_insert, if_neg (fileName_ne_tmpName n uuid).symm]
  · rw [get_insert, if_neg]
    intro heq
    rw [← tmpName_inj heq] at hother
    exact hfree j hother
  · rw [List.mem_singleton.mp (huuids hother)]
    exact hfree
  · rw [List.mem_singleton.mp (huuids hother), hself]
    rfl
  · obtain ⟨rfl, rfl⟩ := hlink seq other heq
    exact hself

/-- The temporary file of a call is removed, or is not. -/
theorem clean (h : Holds json given s count) {i : ι} {uuid : List Char} {call : Call} {removed : Bool}
    (hmine : uuid ∈ (s.calls i).uuids) (huuids : call.uuids = []) (hrecorded : call.recorded = (s.calls i).recorded)
    (hwithin : call.Within count) :
    Holds json given ⟨if removed then erase s.dir (tmpName uuid) else s.dir, Function.update s.calls i call⟩ count := by
  have hempty : ∀ other, other ∉ call.uuids := by
    intro other
    rw [huuids]
    exact List.not_mem_nil
  have hlink : ∀ seq other, call ≠ .link seq other := by
    rintro seq other rfl
    exact absurd huuids (List.cons_ne_nil _ _)
  cases removed with
  | false => exact h.put (by rw [huuids]; exact List.nil_subset _) hlink hrecorded hwithin
  | true =>
      refine h.move h.ordered.erase (fun name hname => ?_) (fun n => ?_) (fun j hj other hother => ?_)
        (fun other hother => absurd hother (hempty other)) (fun other hother => absurd hother (hempty other))
        (fun seq other heq => absurd heq (hlink seq other)) hrecorded hwithin
      · refine h.names name ?_
        rw [if_pos rfl, get_erase] at hname
        split_ifs at hname
        · cases hname
        · exact hname
      · rw [if_pos rfl, get_erase, if_neg (fileName_ne_tmpName n uuid).symm]
      · rw [if_pos rfl, get_erase, if_neg]
        intro heq
        exact hj (h.uuidsOnce j i other hother (tmpName_inj heq ▸ hmine))

/-- The link gives the number that is next: below the count it fails, and no call looks above it. -/
theorem publish (h : Holds json given s count) {i : ι} {seq : UInt32} {uuid text : List Char}
    (hcall : s.calls i = .link seq uuid) (htext : get s.dir (tmpName uuid) = some text) (hfree : ¬s.taken seq) :
    seq.toNat = count ∧ Holds json given
      ⟨insert s.dir (fileName seq) text, Function.update s.calls i (.linked seq uuid)⟩ (count + 1) := by
  have hseq : seq.toNat = count := by
    have hle : seq.toNat ≤ count := by
      have hwithin := h.within i
      rw [hcall] at hwithin
      exact hwithin
    have hge := mt (h.taken_iff seq).mpr hfree
    omega
  have hcompose : text = composeTurn json (assigned given i seq) := by
    rw [h.staged i seq uuid hcall] at htext
    exact (Option.some.inj htext).symm
  have hnobody (j : ι) : (s.calls j).recorded ≠ some seq := fun hj => by
    have hlt := (h.numbers seq).mp ⟨j, hj⟩
    omega
  have hother (n : UInt32) (hn : n ≠ seq) : get (insert s.dir (fileName seq) text) (fileName n) =
      get s.dir (fileName n) := by
    rw [get_insert, if_neg fun heq => hn (fileName_inj heq).symm]
  have hself : get (insert s.dir (fileName seq) text) (fileName seq) = some text := by
    rw [get_insert, if_pos rfl]
  have htmp (other : List Char) : get (insert s.dir (fileName seq) text) (tmpName other) =
      get s.dir (tmpName other) := by
    rw [get_insert, if_neg (fileName_ne_tmpName seq other)]
  have hmine : (s.calls i).recorded = none := by rw [hcall]; rfl
  have hrecorded (n : UInt32) (j : ι) : (Function.update s.calls i (.linked seq uuid) j).recorded = some n ↔
      (j = i ∧ n = seq) ∨ (s.calls j).recorded = some n := by
    by_cases hji : j = i
    · rw [hji, Function.update_self, hmine]
      simp [Call.recorded, eq_comm]
    · rw [Function.update_of_ne hji]
      simp [hji]
  have hlt (n : UInt32) : n.toNat < count + 1 ↔ n = seq ∨ n.toNat < count := by
    rw [← UInt32.toNat_inj]
    omega
  refine ⟨hseq,
    { bound := by rw [← hseq]; exact seq.toNat_lt
      ordered := h.ordered.insert
      names := named_insert h.names (Or.inl ⟨seq, rfl⟩)
      numbers := fun n => ?_
      filled := fun n hn => ?_
      texts := ?_
      numbersOnce := h.numbersOnce.update fun n hn => Or.inr fun j hj => ?_
      uuidsOnce := h.uuidsOnce.release (by rw [hcall]; exact List.Subset.refl _)
      present := ?_
      staged := ?_
      within := ?_ }⟩
  · rw [hlt, ← h.numbers n]
    constructor
    · intro hsome
      obtain ⟨j, hj⟩ := hsome
      rcases (hrecorded n j).mp hj with ⟨-, heq⟩ | hold
      · exact Or.inl heq
      · exact Or.inr ⟨j, hold⟩
    · intro hor
      rcases hor with heq | ⟨j, hj⟩
      · exact ⟨i, (hrecorded n i).mpr (Or.inl ⟨rfl, heq⟩)⟩
      · exact ⟨j, (hrecorded n j).mpr (Or.inr hj)⟩
  · rw [hlt]
    by_cases heq : n = seq
    · exact Or.inl heq
    · exact Or.inr (h.filled n (hother n heq ▸ hn))
  · refine (Function.forall_update_iff s.calls fun j c => ∀ n, c.recorded = some n →
      get (insert s.dir (fileName seq) text) (fileName n) = some (composeTurn json (assigned given j n))).mpr ⟨?_, ?_⟩
    · intro n hn
      obtain rfl := Option.some.inj hn
      rw [hself, hcompose]
    · intro j _ n hj
      have hne : n ≠ seq := fun heq => hnobody j (heq ▸ hj)
      rw [hother n hne]
      exact h.texts j n hj
  · obtain rfl := Option.some.inj (Option.mem_toList.mp hn)
    exact hnobody j (Option.mem_toList.mp hj)
  · refine (Function.forall_update_iff s.calls fun _ c => ∀ other ∈ c.uuids,
      (get (insert s.dir (fileName seq) text) (tmpName other)).isSome).mpr ⟨?_, ?_⟩
    · intro other hmem
      rw [htmp, List.mem_singleton.mp hmem, htext]
      rfl
    · intro j _ other hmem
      rw [htmp]
      exact h.present j other hmem
  · refine (Function.forall_update_iff s.calls fun j c => ∀ seq' other, c = .link seq' other →
      get (insert s.dir (fileName seq) text) (tmpName other) = some (composeTurn json (assigned given j seq'))).mpr
        ⟨fun _ _ heq => Call.noConfusion heq, ?_⟩
    intro j _ seq' other hlink
    rw [htmp]
    exact h.staged j seq' other hlink
  · exact (Function.forall_update_iff s.calls fun _ c => c.Within (count + 1)).mpr
      ⟨trivial, fun j _ => (h.within j).mono (Nat.le_succ count)⟩

/-- A step that touches no file, to a phase without a file of its own. -/
theorem turn (h : Holds json given s count) {i : ι} {call : Call} (hcall : (s.calls i).recorded = none)
    (huuids : call.uuids = []) (hrecorded : call.recorded = none) (hwithin : call.Within count) :
    Holds json given (s.put i call) count := by
  refine h.put (by rw [huuids]; exact List.nil_subset _) ?_ (hrecorded.trans hcall.symm) hwithin
  rintro seq uuid rfl
  exact absurd huuids (List.cons_ne_nil _ _)

/-- An existence check: the scan starts again, or the call goes on. -/
theorem look (h : Holds json given s count) {i : ι} {call : Call} (taken : Bool) (hcall : (s.calls i).recorded = none)
    (huuids : call.uuids = []) (hrecorded : call.recorded = none) (hwithin : call.Within count) :
    Holds json given (s.put i (if taken then .scan (-1) else call)) count := by
  cases taken with
  | true => exact h.turn hcall rfl rfl (within_start count)
  | false => exact h.turn hcall huuids hrecorded hwithin

/-- No call but the one whose link succeeds adds to the numbers in use. -/
theorem step (h : Holds json given s count) {label : Label ι} (hfresh : Fresh s label) :
    ∃ count', Holds json given (step json given s label) count' := by
  have hwithin := h.within
  cases label with
  | start i made =>
      rw [Archivist.step]
      cases hcall : s.calls i with
      | idle =>
          have hrecorded : (s.calls i).recorded = none := by rw [hcall]; rfl
          cases made with
          | true => exact ⟨count, h.turn hrecorded rfl rfl (within_start count)⟩
          | false => exact ⟨count, h.turn hrecorded rfl rfl trivial⟩
      | _ => exact ⟨count, h⟩
  | entry i name =>
      rw [Archivist.step]
      specialize hwithin i
      cases hcall : s.calls i with
      | scan max =>
          rw [hcall] at hwithin
          dsimp only
          split_ifs with hname
          · exact ⟨count, h.turn (by rw [hcall]; rfl) rfl rfl (h.scan_entry hwithin hname)⟩
          · exact ⟨count, h⟩
      | _ => exact ⟨count, h⟩
  | scanned i =>
      rw [Archivist.step]
      specialize hwithin i
      cases hcall : s.calls i with
      | scan max =>
          rw [hcall] at hwithin
          exact ⟨count, h.turn (by rw [hcall]; rfl) rfl rfl (scan_found hwithin)⟩
      | _ => exact ⟨count, h⟩
  | look i =>
      rw [Archivist.step]
      specialize hwithin i
      cases hcall : s.calls i with
      | check seq =>
          rw [hcall] at hwithin
          exact ⟨count, h.look _ (by rw [hcall]; rfl) rfl rfl hwithin⟩
      | missed seq => exact ⟨count, h.look _ (by rw [hcall]; rfl) rfl rfl trivial⟩
      | recheck seq => exact ⟨count, h.look _ (by rw [hcall]; rfl) rfl rfl trivial⟩
      | _ => exact ⟨count, h⟩
  | stage i uuid staged =>
      rw [Archivist.step]
      specialize hwithin i
      cases hcall : s.calls i with
      | stage seq =>
          have hrecorded : (s.calls i).recorded = none := by rw [hcall]; rfl
          rw [hcall] at hwithin
          cases staged with
          | written =>
              refine ⟨count, h.stage hfresh (List.Subset.refl _) (fun seq' other heq => ?_) hrecorded.symm hwithin⟩
              obtain ⟨rfl, rfl⟩ := Call.link.inj heq
              exact ⟨rfl, rfl⟩
          | failed left =>
              cases left with
              | none => exact ⟨count, h.turn hrecorded rfl rfl trivial⟩
              | some left =>
                  exact ⟨count, h.stage hfresh (List.nil_subset _) (fun _ _ heq => Call.noConfusion heq)
                    hrecorded.symm trivial⟩
      | _ => exact ⟨count, h⟩
  | link i supported =>
      rw [Archivist.step]
      cases hcall : s.calls i with
      | link seq uuid =>
          have hlost : Holds json given (s.put i (.lost seq uuid)) count := by
            refine h.put (by rw [hcall]; exact List.Subset.refl _) (fun _ _ heq => Call.noConfusion heq) ?_ trivial
            rw [hcall]
            rfl
          dsimp only
          cases htext : get s.dir (tmpName uuid) with
          | none => exact ⟨count, hlost⟩
          | some text =>
              dsimp only
              split_ifs with hfree
              · exact ⟨count + 1, (h.publish hcall htext hfree.2).2⟩
              · exact ⟨count, hlost⟩
      | _ => exact ⟨count, h⟩
  | clean i removed =>
      rw [Archivist.step]
      cases hcall : s.calls i with
      | linked seq uuid =>
          exact ⟨count, h.clean (by rw [hcall]; exact List.mem_singleton_self uuid) rfl (by rw [hcall]; rfl) trivial⟩
      | lost seq uuid =>
          exact ⟨count, h.clean (by rw [hcall]; exact List.mem_singleton_self uuid) rfl (by rw [hcall]; rfl) trivial⟩
      | _ => exact ⟨count, h⟩

theorem run {labels : List (Label ι)} (hfresh : (machine json given).AllSteps Fresh labels) :
    ∃ count, Holds json given ((machine json given).run labels) count := by
  refine @Machine.invariant_of_steps _ _ (machine json given) (fun s => ∃ count, Holds json given s count) Fresh
    ⟨0, start⟩ (fun s label h hok => ?_) labels hfresh
  obtain ⟨count, hs⟩ := h
  exact hs.step hok

end Holds

section Kept

variable [DecidableEq ι]

/-- A file with a number is neither removed nor written again. -/
theorem kept_step (s : State ι) (label : Label ι) {n : UInt32} {text : List Char}
    (h : get s.dir (fileName n) = some text) : get (step json given s label).dir (fileName n) = some text := by
  have hinsert (uuid more : List Char) : get (insert s.dir (tmpName uuid) more) (fileName n) = some text := by
    rw [get_insert, if_neg (fileName_ne_tmpName n uuid).symm, h]
  have herase (uuid : List Char) (removed : Bool) :
      get (if removed then erase s.dir (tmpName uuid) else s.dir) (fileName n) = some text := by
    split_ifs
    · rw [get_erase, if_neg (fileName_ne_tmpName n uuid).symm, h]
    · exact h
  cases label with
  | start i made =>
      rw [step]
      cases s.calls i with
      | _ => exact h
  | entry i name =>
      rw [step]
      cases s.calls i with
      | scan max =>
          dsimp only
          split_ifs
          · exact h
          · exact h
      | _ => exact h
  | scanned i =>
      rw [step]
      cases s.calls i with
      | _ => exact h
  | look i =>
      rw [step]
      cases s.calls i with
      | _ => exact h
  | stage i uuid staged =>
      rw [step]
      cases s.calls i with
      | stage seq =>
          cases staged with
          | written => exact hinsert uuid _
          | failed left =>
              cases left with
              | none => exact h
              | some left => exact hinsert uuid left
      | _ => exact h
  | link i supported =>
      rw [step]
      cases s.calls i with
      | link seq uuid =>
          dsimp only
          cases get s.dir (tmpName uuid) with
          | none => exact h
          | some more =>
              dsimp only
              split_ifs with hfree
              · have hne : seq ≠ n := by
                  rintro rfl
                  rw [State.taken, h] at hfree
                  exact absurd rfl hfree.2
                rw [get_insert, if_neg fun heq => hne (fileName_inj heq)]
                exact h
              · exact h
      | _ => exact h
  | clean i removed =>
      rw [step]
      cases s.calls i with
      | linked seq uuid => exact herase uuid removed
      | lost seq uuid => exact herase uuid removed
      | _ => exact h

theorem file_kept_run {done labels : List (Label ι)} (hpre : done <+: labels) {n : UInt32} {text : List Char}
    (h : get ((machine json given).run done).dir (fileName n) = some text) :
    get ((machine json given).run labels).dir (fileName n) = some text := by
  obtain ⟨rest, rfl⟩ := hpre
  induction rest using List.reverseRecOn with
  | nil =>
      rw [List.append_nil]
      exact h
  | append_singleton rest label ih =>
      rw [← List.append_assoc, Machine.run_concat]
      exact kept_step _ label ih

end Kept

/-! ### The entries of a session -/

section Entries

/-- The numbered files of a directory in whatever order it is listed, and what they hold. -/
theorem sessionFiles_eq (h : Holds json given s count) {turnAt : Nat → ArchivedTurn}
    (hturns : ∀ n : UInt32, n.toNat < count → get s.dir (fileName n) = some (composeTurn json (turnAt n.toNat)))
    {listing : Dir} (hperm : listing.Perm s.dir) :
    sessionFiles listing = (List.range count).map fun k => (k, composeTurn json (turnAt k)) := by
  have hascending : ((List.range count).map fun k => (k, composeTurn json (turnAt k))).Pairwise
      fun a b => a.1 < b.1 := List.pairwise_map.mpr List.pairwise_lt_range
  have hread (name text : List Char) (hmem : (name, text) ∈ listing) (k : Nat) (hseq : fileSeq name = some k) :
      k < count ∧ name = fileName (UInt32.ofNat k) ∧ text = composeTurn json (turnAt k) := by
    have htext := h.ordered.mem_iff.mp (hperm.mem_iff.mp hmem)
    rcases h.names name (by rw [htext]; rfl) with ⟨n, rfl⟩ | ⟨uuid, rfl⟩
    · rw [fileSeq_fileName] at hseq
      obtain rfl := Option.some.inj hseq
      have hlt := h.filled n (by rw [htext]; rfl)
      refine ⟨hlt, by rw [UInt32.ofNat_toNat], ?_⟩
      rw [hturns n hlt] at htext
      exact (Option.some.inj htext).symm
    · rw [fileSeq_tmpName] at hseq
      cases hseq
  have hnames : listing.Pairwise fun a b => a.1 ≠ b.1 :=
    (hperm.pairwise_iff fun hne => hne.symm).mpr (h.ordered.imp fun hlt => hlt.ne)
  refine StableSort.mergeSort_of_ascending _ ?_ hascending
  refine (List.perm_ext_iff_of_nodup ?_ (hascending.imp fun hlt heq => hlt.ne (congrArg Prod.fst heq))).mpr ?_
  · refine List.pairwise_filterMap.mpr (hnames.imp_of_mem fun {a b} ha hb hne => ?_)
    intro file hfile file' hfile' heq
    obtain ⟨k, hk, rfl⟩ := Option.map_eq_some_iff.mp hfile
    obtain ⟨k', hk', rfl⟩ := Option.map_eq_some_iff.mp hfile'
    obtain ⟨rfl, -⟩ := Prod.mk.inj heq
    exact hne ((hread a.1 a.2 ha k hk).2.1.trans (hread b.1 b.2 hb k hk').2.1.symm)
  · intro file
    rw [List.mem_filterMap, List.mem_map]
    constructor
    · intro hmem
      obtain ⟨entry, hentry, hfile⟩ := hmem
      obtain ⟨k, hk, rfl⟩ := Option.map_eq_some_iff.mp hfile
      obtain ⟨hlt, -, htext⟩ := hread entry.1 entry.2 hentry k hk
      exact ⟨k, List.mem_range.mpr hlt, by rw [htext]⟩
    · intro hmem
      obtain ⟨k, hk, rfl⟩ := hmem
      have hbound : k < 2 ^ 32 := lt_of_lt_of_le (List.mem_range.mp hk) h.bound
      have hnat : (UInt32.ofNat k).toNat = k := UInt32.toNat_ofNat_of_lt hbound
      have htext := hturns (UInt32.ofNat k) (by rw [hnat]; exact List.mem_range.mp hk)
      rw [hnat] at htext
      refine ⟨(fileName (UInt32.ofNat k), composeTurn json (turnAt k)),
        hperm.mem_iff.mpr (h.ordered.mem_iff.mpr htext), ?_⟩
      rw [fileSeq_fileName, hnat]
      rfl

variable (json given) in

/-- Nothing is lost, doubled or garbled: each number in use is that of one call, they run from 0 on, and the entries of
the session, in whatever order its directory is listed, are the turns of those calls by their numbers. -/
structure Archived (s : State ι) : Prop where
  once : ∀ i j seq, (s.calls i).recorded = some seq → (s.calls j).recorded = some seq → i = j
  contiguous : ∃ count, ∀ n : UInt32, s.taken n ↔ n.toNat < count
  entries : ∀ listing, listing.Perm s.dir → ∃ turns : List ArchivedTurn,
    sessionEntries json listing = turns.map ArchivedTurn.trimmed ∧
    ∀ k turn, turns[k]? = some turn ↔
      ∃ i seq, (s.calls i).recorded = some seq ∧ seq.toNat = k ∧ turn = assigned given i seq

theorem archived_of_holds (hjson : json.Lawful) (h : Holds json given s count) : Archived json given s := by
  have honce : ∀ i j seq, (s.calls i).recorded = some seq → (s.calls j).recorded = some seq → i = j :=
    fun i j seq hi hj => h.numbersOnce i j seq (Option.mem_toList.mpr hi) (Option.mem_toList.mpr hj)
  refine ⟨honce, ⟨count, h.taken_iff⟩, fun listing hperm => ?_⟩
  have hcaller : ∀ k : Nat, ∃ turn, k < count →
      ∃ i, (s.calls i).recorded = some (UInt32.ofNat k) ∧ turn = assigned given i (UInt32.ofNat k) := by
    intro k
    by_cases hk : k < count
    · have hnat : (UInt32.ofNat k).toNat = k := UInt32.toNat_ofNat_of_lt (lt_of_lt_of_le hk h.bound)
      obtain ⟨i, hi⟩ := (h.numbers (UInt32.ofNat k)).mpr (by rw [hnat]; exact hk)
      exact ⟨assigned given i (UInt32.ofNat k), fun _ => ⟨i, hi, rfl⟩⟩
    · exact ⟨ArchivedTurn.default, fun hlt => absurd hlt hk⟩
  choose turnAt hturnAt using hcaller
  have htexts (n : UInt32) (hn : n.toNat < count) :
      get s.dir (fileName n) = some (composeTurn json (turnAt n.toNat)) := by
    obtain ⟨i, hi, hturn⟩ := hturnAt n.toNat hn
    rw [UInt32.ofNat_toNat] at hi hturn
    rw [hturn]
    exact h.texts i n hi
  refine ⟨(List.range count).map turnAt, ?_, fun k turn => ?_⟩
  · rw [sessionEntries, sessionFiles_eq h htexts hperm, List.filterMap_map, List.map_map]
    rw [← List.filterMap_eq_map]
    exact List.filterMap_congr fun k _ => parseTurn_composeTurn hjson (turnAt k)
  · rw [List.getElem?_map]
    constructor
    · intro hsome
      obtain ⟨k', hk, rfl⟩ := Option.map_eq_some_iff.mp hsome
      obtain ⟨hlt, rfl⟩ := List.getElem?_eq_some_iff.mp hk
      rw [List.length_range] at hlt
      rw [List.getElem_range]
      obtain ⟨i, hi, hturn⟩ := hturnAt k hlt
      exact ⟨i, UInt32.ofNat k, hi, UInt32.toNat_ofNat_of_lt (lt_of_lt_of_le hlt h.bound), hturn⟩
    · intro hcall
      obtain ⟨i, seq, hi, rfl, rfl⟩ := hcall
      have hlt := (h.numbers seq).mp ⟨i, hi⟩
      obtain ⟨j, hj, hturn⟩ := hturnAt seq.toNat hlt
      rw [UInt32.ofNat_toNat] at hj hturn
      rw [List.getElem?_eq_some_iff.mpr ⟨by rw [List.length_range]; exact hlt, List.getElem_range _⟩, Option.map_some,
        hturn, honce i j seq hi hj]

end Entries

section Runs

variable [DecidableEq ι]

/-- In every interleaving of calls that are given fresh names for their temporary files. -/
theorem archived_run (hjson : json.Lawful) {labels : List (Label ι)}
    (hfresh : (machine json given).AllSteps Fresh labels) :
    Archived json given ((machine json given).run labels) ∧
      ∀ done, done <+: labels → ∀ n text, get ((machine json given).run done).dir (fileName n) = some text →
        get ((machine json given).run labels).dir (fileName n) = some text := by
  obtain ⟨count, h⟩ := Holds.run hfresh
  exact ⟨archived_of_holds hjson h, fun done hpre n text htext => file_kept_run hpre htext⟩

/-- String literals as JSON has them. -/
def jsonStrings : JsonStrings where
  toString s := JsonString.encode s.toList
  fromStr text := (JsonString.decode text).map String.ofList

theorem jsonStrings_lawful : jsonStrings.Lawful where
  roundTrip s := by
    change (JsonString.decode (JsonString.encode s.toList)).map String.ofList = some s
    rw [JsonString.decode_encode, Option.map_some, String.ofList_toList]
  quoted s := ⟨s.toList.flatMap JsonString.escape, rfl⟩
  escaped s := JsonString.encode_printable s.toList
  literal text s h := by
    obtain ⟨value, hvalue, -⟩ := Option.map_eq_some_iff.mp h
    exact JsonString.quote_mem_of_decode hvalue

/-- Two calls that find the same number: the second one's link fails, and it takes the next number. -/
def race : List (Label Bool) :=
  [.start true true, .start false true, .scanned true, .scanned false, .look true, .look false,
    .stage true "a".toList .written, .stage false "b".toList .written, .link true true, .link false true,
    .clean true true, .clean false true, .look false, .entry false "000000.md".toList, .scanned false, .look false,
    .stage false "c".toList .written, .link false true, .clean false true]

theorem archived_race :
    Archived jsonStrings (fun _ => ⟨"s", 0, 5, "user", "a\n---\nb", some "\"x\"\n", none, 0⟩)
      ((machine jsonStrings (fun _ => ⟨"s", 0, 5, "user", "a\n---\nb", some "\"x\"\n", none, 0⟩)).run race) := by
  refine (archived_run jsonStrings_lawful ?_).1
  rw [Machine.allSteps_iff_stepsFrom]
  decide +kernel

end Runs

end TinyCortex.Archivist
