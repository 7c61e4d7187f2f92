import TinyCortex.TimeTree.DiskKept
import TinyCortex.TimeTree.Rebuild

/-! A rebuild loses nothing when no other operation gets in its way. Each operation has an assertion about the
files, which its own steps establish and the steps of the others keep. -/

namespace TinyCortex.TimeTree.Swap

open Table Interleaving

/-- An operation that moves no tree and stays out of the staged one. -/
def Shared : Action → Prop
  | .clearStaged | .stageNode _ _ | .moveActive | .moveStaged => False
  | .read | .createBuffer | .createDirs _ | .writeEntry _ | .saveNode _ _ | .deleteEntry _ | .restoreBackup
  | .adoptEntry _ | .removePart _ | .removeBackup => True

/-- The next file operation is harmless, and the assertion of the operation holds again after it. -/
structure Turn.Sound {τ : Type} (env : RuntimeEnv) (disk : Disk) (assertion : Disk → τ → Prop)
    (turn : Turn τ) : Prop where
  legal : Legal env disk turn.action
  ok : ∀ next, disk.perform turn.action = some next → ∀ op ∈ turn.ok, assertion next op
  failed : ∀ op ∈ turn.failed, assertion disk op

section Turn

variable {τ : Type} {env : RuntimeEnv} {disk : Disk} {assertion : Disk → τ → Prop} {turn : Turn τ}

theorem Turn.Sound.read {ok failed : Option τ} (hok : ∀ op ∈ ok, assertion disk op)
    (hfailed : ∀ op ∈ failed, assertion disk op) : (Turn.mk .read ok failed).Sound env disk assertion := by
  refine ⟨trivial, fun next hnext op hop => ?_, hfailed⟩
  obtain rfl := Option.some.inj hnext
  exact hok op hop

theorem Turn.Sound.take (h : turn.Sound env disk assertion) (hintact : Intact env disk) (fails : Bool) :
    Intact env (turn.take fails disk).1 ∧ Rely env disk (turn.take fails disk).1 ∧
      ∀ op ∈ (turn.take fails disk).2, assertion (turn.take fails disk).1 op := by
  rw [Turn.take]
  split_ifs
  · exact ⟨hintact, Rely.refl env disk, h.failed⟩
  · cases hnext : disk.perform turn.action with
    | none => exact ⟨hintact, Rely.refl env disk, h.failed⟩
    | some next =>
        obtain ⟨hnew, hrely⟩ := hintact.perform h.legal hnext
        exact ⟨hnew, hrely, h.ok next hnext⟩

end Turn

/-! ### What a rebuild counts on -/

/-- What a rebuild may count on while the others go on: its trees stay where they are, and the leaves that it
is past do not grow. -/
structure Others (past : NodeId → Prop) (disk next : Disk) : Prop where
  swaps : next.swaps = disk.swaps
  staged : next.staged = disk.staged
  backup : disk.backup = none → next.backup = none
  leaves : disk.backup = none → ∀ dir ∈ next.active, ∀ id, id.length = 4 → past id →
    (readNode dir.nodes id).isSome →
      ∃ old ∈ disk.active, (readNode old.nodes id).isSome ∧ ∀ name, (id, name) ∈ dir.folded → (id, name) ∈ old.folded
  swapped : next.active = none → disk.active = none ∧ next.backup = disk.backup

section Others

variable {env : RuntimeEnv} {disk next : Disk} {past : NodeId → Prop} {action : Action} {dir live : TreeDir}

theorem Others.refl (past : NodeId → Prop) (disk : Disk) : Others past disk disk :=
  ⟨rfl, rfl, id, fun _ dir hdir _ _ _ hsome => ⟨dir, hdir, hsome, fun _ hname => hname⟩, fun hnone => ⟨hnone, rfl⟩⟩

/-- Only the live directory changes, and its leaves do not. -/
theorem others_setActive (hnodes : dir.nodes = (disk.active.getD .empty).nodes)
    (hfolded : dir.folded = (disk.active.getD .empty).folded) (buffered : List Entry) :
    Others past disk { disk with active := some dir, buffered := buffered } := by
  refine ⟨rfl, rfl, id, fun _ found hfound id _ _ hsome => ?_, fun hnone => nomatch hnone⟩
  obtain rfl := Option.some.inj hfound
  rw [hnodes] at hsome
  rw [hfolded]
  cases hactive : disk.active with
  | none =>
      rw [hactive] at hsome
      cases hsome
  | some old =>
      rw [hactive] at hsome
      exact ⟨old, rfl, hsome, fun _ hname => hname⟩

/-- A leaf is saved where it holds all that is folded into it, or the rebuild has still to read it. -/
theorem others_saveNode (hactive : disk.active = some dir) {node : TreeNode} {names : List BufferName}
    (hpast : node.id.length = 4 → past node.id → dir.Holds node.id names) :
    Others past disk
      { disk with active := some (dir.save node names), written := disk.wrote node.id names } := by
  refine ⟨rfl, rfl, id, fun _ found hfound id hhour hid hsome => ?_, fun hnone => nomatch hnone⟩
  obtain rfl := Option.some.inj hfound
  refine ⟨dir, hactive, ?_⟩
  by_cases heq : node.id = id
  · rw [← heq] at hhour hid ⊢
    obtain ⟨hread, hnames⟩ := hpast hhour hid
    refine ⟨hread, fun name hname => ?_⟩
    rcases List.mem_append.mp hname with hold | hnew
    · exact absurd rfl (of_decide_eq_true (List.mem_filter.mp hold).2)
    · obtain ⟨other, hother, hpair⟩ := List.mem_map.mp hnew
      obtain rfl := (Prod.mk.inj hpair).2
      exact hnames other hother
  · rw [TreeDir.save, readNode_writeNode_of_ne heq] at hsome
    refine ⟨hsome, fun name hname => ?_⟩
    rcases List.mem_append.mp hname with hold | hnew
    · exact (List.mem_filter.mp hold).1
    · obtain ⟨other, -, hpair⟩ := List.mem_map.mp hnew
      exact absurd (Prod.mk.inj hpair).1 heq

theorem others_perform {rebuild : Option Rebuild} (hpast : ∀ id, past id → ∃ op ∈ rebuild, op.Past id)
    (hshared : Shared action) (hlegal : Legal env disk action) (hundisturbed : Undisturbed disk rebuild action)
    (hnext : disk.perform action = some next) : Others past disk next := by
  cases action with
  | read =>
      obtain rfl := Option.some.inj hnext
      exact Others.refl past disk
  | createBuffer =>
      obtain rfl := Option.some.inj hnext
      refine others_setActive ?_ ?_ disk.buffered
      · rfl
      · rfl
  | createDirs path =>
      obtain rfl := Option.some.inj hnext
      refine others_setActive ?_ ?_ disk.buffered
      · rfl
      · rfl
  | writeEntry entry =>
      obtain ⟨dir, hactive, hnext⟩ := Option.bind_eq_some_iff.mp hnext
      obtain ⟨entries, hentries, hnext⟩ := Option.bind_eq_some_iff.mp hnext
      obtain rfl := Option.some.inj hnext
      exact others_setActive (by rw [hactive]; rfl) (by rw [hactive]; rfl) _
  | saveNode node names =>
      obtain ⟨dir, hactive, hnext⟩ := Option.bind_eq_some_iff.mp hnext
      split_ifs at hnext
      obtain rfl := Option.some.inj hnext
      refine others_saveNode hactive fun hhour hid => ?_
      obtain ⟨op, hop, hmust⟩ := hpast _ hid
      exact (hundisturbed hhour).2 op hop hmust dir hactive
  | deleteEntry name =>
      obtain rfl := Option.some.inj hnext
      refine ⟨rfl, rfl, id, fun _ dir hdir id _ _ hsome => ?_, fun hnone => ?_⟩
      · obtain ⟨old, hold, rfl⟩ := Option.map_eq_some_iff.mp hdir
        exact ⟨old, hold, hsome, fun _ hname => hname⟩
      · exact ⟨Option.map_eq_none_iff.mp hnone, rfl⟩
  | restoreBackup =>
      obtain ⟨dir, hbackup, hnext⟩ := Option.bind_eq_some_iff.mp hnext
      split_ifs at hnext
      obtain rfl := Option.some.inj hnext
      have hkept : disk.backup ≠ none := fun hnone => nomatch hnone.symm.trans hbackup
      exact ⟨rfl, rfl, fun _ => rfl, fun hnone => absurd hnone hkept, fun hnone => nomatch hnone⟩
  | adoptEntry name =>
      obtain ⟨dir, hactive, hnext⟩ := Option.bind_eq_some_iff.mp hnext
      obtain ⟨entries, hentries, hnext⟩ := Option.bind_eq_some_iff.mp hnext
      obtain ⟨backup, hbackup, hnext⟩ := Option.bind_eq_some_iff.mp hnext
      obtain ⟨entry, hentry, hnext⟩ := Option.bind_eq_some_iff.mp hnext
      obtain rfl := Option.some.inj hnext
      have hkept : disk.backup ≠ none := fun hnone => nomatch hnone.symm.trans hbackup
      exact ⟨rfl, rfl, fun hnone => absurd hnone hkept, fun hnone => absurd hnone hkept, fun hnone => nomatch hnone⟩
  | removePart part =>
      obtain ⟨dir, hbackup, hnext⟩ := Option.bind_eq_some_iff.mp hnext
      obtain rfl := Option.some.inj hnext
      have hkept : disk.backup ≠ none := fun hnone => nomatch hnone.symm.trans hbackup
      refine ⟨rfl, rfl, fun hnone => absurd hnone hkept, fun hnone => absurd hnone hkept, fun hnone => ?_⟩
      have hactive := hlegal.1
      rw [show disk.active = none from hnone] at hactive
      cases hactive
  | removeBackup =>
      obtain ⟨dir, hbackup, hnext⟩ := Option.bind_eq_some_iff.mp hnext
      obtain rfl := Option.some.inj hnext
      have hkept : disk.backup ≠ none := fun hnone => nomatch hnone.symm.trans hbackup
      refine ⟨rfl, rfl, fun _ => rfl, fun hnone => absurd hnone hkept, fun hnone => ?_⟩
      have hactive := hlegal.1
      rw [show disk.active = none from hnone] at hactive
      cases hactive
  | clearStaged => cases hshared
  | stageNode node names => cases hshared
  | moveActive => cases hshared
  | moveStaged => cases hshared

/-- An operation that moves no tree counts no swap. -/
theorem perform_swaps (hshared : Shared action) (hlegal : Legal env disk action)
    (hnext : disk.perform action = some next) : next.swaps = disk.swaps := by
  have hundisturbed : Undisturbed disk none action := by
    cases action with
    | createBuffer => exact hlegal
    | createDirs path => exact hlegal
    | saveNode node names => exact fun hhour => ⟨hlegal.1 hhour, fun _ hop => nomatch hop⟩
    | _ => trivial
  have hothers : Others (fun _ => False) disk next :=
    others_perform (fun _ hpast => hpast.elim) hshared hlegal hundisturbed hnext
  exact hothers.swaps

end Others

/-! ### Recovery -/

/-- The swaps that there were when a recovery found its backup. -/
def Recovery.swap : Recovery → Option Nat
  | .start | .startForPaths | .decide | .restore => none
  | .findBuffer swap | .createBuffer swap | .listBuffer swap | .adopt swap _ | .moveEntry swap _ _
  | .remove swap => some swap

/-- The entries that a recovery has still to move, once it has listed them. -/
def Recovery.left : Recovery → Option (List BufferName)
  | .adopt _ names => some names
  | .moveEntry _ name names => some (name :: names)
  | .remove _ => some []
  | .start | .startForPaths | .decide | .restore | .findBuffer _ | .createBuffer _ | .listBuffer _ => none

/-- As long as the backup is the one that a recovery found, the live tree is there, and what is not left to
move needs no backup. -/
structure Recovering (env : RuntimeEnv) (disk : Disk) (recovery : Recovery) : Prop where
  swaps : ∀ swap ∈ recovery.swap, swap ≤ disk.swaps
  active : disk.swaps ∈ recovery.swap → disk.active.isSome
  moved : disk.swaps ∈ recovery.swap → ∀ names ∈ recovery.left, ∀ entry ∈ disk.backupEntries,
    entry.name ∈ names ∨ Safe env disk entry

section Recovery

variable {env : RuntimeEnv} {disk next : Disk} {recovery more : Recovery} {swap : Nat}

theorem recovering_of_swap_none (h : recovery.swap = none) : Recovering env disk recovery := by
  have hnot : ∀ swap, swap ∉ recovery.swap := by
    intro swap hswap
    rw [h] at hswap
    cases hswap
  exact ⟨fun swap hswap => absurd hswap (hnot swap), fun hswap => absurd hswap (hnot _),
    fun hswap => absurd hswap (hnot _)⟩

theorem Recovering.rely (h : Recovering env disk recovery) (hintact : Intact env disk)
    (hrely : Rely env disk next) : Recovering env next recovery := by
  have hsame : next.swaps ∈ recovery.swap → next.swaps = disk.swaps :=
    fun hmem => le_antisymm (h.swaps _ hmem) hrely.swaps
  refine ⟨fun swap hmem => (h.swaps swap hmem).trans hrely.swaps, fun hmem => ?_,
    fun hmem names hnames entry hentry => ?_⟩
  · have heq := hsame hmem
    exact hrely.active heq (h.active (heq ▸ hmem))
  · have heq := hsame hmem
    have hold := hrely.backup heq hentry
    refine (h.moved (heq ▸ hmem) names hnames entry hold).imp_right fun hsafe => ?_
    exact hrely.safe heq entry (hintact.backupEntries_subset hold) hsafe

/-- A recovery goes on with the backup that it found: what is left to move is part of what was. -/
theorem Recovering.goOn (h : Recovering env disk recovery) (hswap : more.swap = recovery.swap)
    (hleft : disk.swaps ∈ recovery.swap → ∀ names ∈ more.left, ∀ entry ∈ disk.backupEntries,
      entry.name ∈ names ∨ Safe env disk entry) : Recovering env disk more :=
  ⟨hswap ▸ h.swaps, hswap ▸ h.active, hswap ▸ hleft⟩

theorem Recovering.found (hactive : disk.active.isSome) : Recovering env disk (.findBuffer disk.swaps) := by
  refine ⟨fun swap hswap => ?_, fun _ => hactive, fun _ _ hnames => nomatch hnames⟩
  exact (Option.some.inj hswap).ge

/-- What a step of a recovery leads to. -/
structure Recovers (env : RuntimeEnv) (disk : Disk) (recovery : Recovery) (progress : Progress) (next : Disk) :
    Prop where
  more : ∀ more, progress = .more more → Recovering env next more ∧ more ≠ .startForPaths ∧
    ∀ swap ∈ more.swap, swap = disk.swaps ∨ swap ∈ recovery.swap
  done : progress = .done → next.backup = none

theorem Recovers.of_more (hmore : Recovering env next more) (hstart : more ≠ .startForPaths)
    (hswap : ∀ swap ∈ more.swap, swap = disk.swaps ∨ swap ∈ recovery.swap) :
    Recovers env disk recovery (.more more) next := by
  refine ⟨fun other hother => ?_, fun hdone => nomatch hdone⟩
  obtain rfl := Progress.more.inj hother
  exact ⟨hmore, hstart, hswap⟩

theorem Recovers.of_done (hbackup : next.backup = none) : Recovers env disk recovery .done next :=
  ⟨fun _ hmore => (nomatch hmore), fun _ => hbackup⟩

/-- A step of a recovery that reads. -/
theorem recovers_read {progress : Progress} (h : Recovers env disk recovery progress disk)
    (hnext : disk.perform .read = some next) : Recovers env disk recovery progress next := by
  obtain rfl := Option.some.inj hnext
  exact h

theorem Recovering.turn (h : Recovering env disk recovery) (hintact : Intact env disk)
    (hlive : recovery = .startForPaths → disk.active.isSome)
    (hown : ∀ swap, recovery = .remove swap → swap = disk.swaps) (part : Option Part)
    (hplace : (recovery.turn disk part).1 = .createBuffer → disk.active.isSome ∨ disk.backup.isNone) :
    Legal env disk (recovery.turn disk part).1 ∧ Shared (recovery.turn disk part).1 ∧
      ∀ next, disk.perform (recovery.turn disk part).1 = some next →
        Recovers env disk recovery (recovery.turn disk part).2 next := by
  have hkept : ∀ {more : Recovery}, more.swap = recovery.swap → ∀ swap ∈ more.swap,
      swap = disk.swaps ∨ swap ∈ recovery.swap := fun heq swap hswap => Or.inr (heq ▸ hswap)
  cases recovery with
  | start =>
      refine ⟨trivial, trivial, fun next hnext => recovers_read ?_ hnext⟩
      rw [Recovery.turn]
      split_ifs with hnone
      · exact .of_done (Option.isNone_iff_eq_none.mp hnone)
      · exact .of_more (recovering_of_swap_none rfl) Recovery.noConfusion fun _ hswap => by cases hswap
  | startForPaths =>
      refine ⟨trivial, trivial, fun next hnext => recovers_read ?_ hnext⟩
      rw [Recovery.turn]
      split_ifs with hnone
      · exact .of_done (Option.isNone_iff_eq_none.mp hnone)
      · refine .of_more (.found (hlive rfl)) Recovery.noConfusion fun swap hswap => ?_
        exact Or.inl (Option.some.inj hswap).symm
  | decide =>
      refine ⟨trivial, trivial, fun next hnext => recovers_read ?_ hnext⟩
      rw [Recovery.turn]
      split_ifs with hnone
      · exact .of_more (recovering_of_swap_none rfl) Recovery.noConfusion fun _ hswap => by cases hswap
      · refine .of_more (.found ?_) Recovery.noConfusion fun swap hswap => ?_
        · exact Option.isSome_iff_ne_none.mpr fun heq => hnone (Option.isNone_iff_eq_none.mpr heq)
        · exact Or.inl (Option.some.inj hswap).symm
  | restore =>
      refine ⟨trivial, trivial, fun next hnext => .of_done ?_⟩
      obtain ⟨dir, -, hnext⟩ := Option.bind_eq_some_iff.mp hnext
      split_ifs at hnext
      obtain rfl := Option.some.inj hnext
      rfl
  | findBuffer swap =>
      refine ⟨trivial, trivial, fun next hnext => recovers_read ?_ hnext⟩
      rw [Recovery.turn]
      split_ifs with hsome
      · refine .of_more (h.goOn rfl ?_) Recovery.noConfusion (hkept rfl)
        exact fun _ _ hnames => by cases hnames
      · refine .of_more (h.goOn rfl fun _ names _ entry hentry => ?_) Recovery.noConfusion (hkept rfl)
        obtain ⟨dir, hdir, hin⟩ := mem_backupEntries.mp hentry
        rw [show disk.backup = some dir from hdir, Option.bind_some] at hsome
        rw [TreeDir.entries, Option.not_isSome_iff_eq_none.mp hsome] at hin
        exact absurd hin List.not_mem_nil
  | createBuffer swap =>
      refine ⟨hplace rfl, trivial, fun next hnext => ?_⟩
      have hlegal : Legal env disk .createBuffer := hplace rfl
      obtain ⟨-, hrely⟩ := hintact.perform hlegal hnext
      have hmore : Recovering env disk (.listBuffer swap) := h.goOn rfl fun _ _ hnames => by cases hnames
      exact .of_more (hmore.rely hintact hrely) Recovery.noConfusion (hkept rfl)
  | listBuffer swap =>
      refine ⟨trivial, trivial, fun next hnext => recovers_read ?_ hnext⟩
      rw [Recovery.turn]
      dsimp only
      split
      · exact ⟨fun _ hmore => (by cases hmore), fun hdone => by cases hdone⟩
      · rename_i entries hentries
        refine .of_more (h.goOn rfl fun _ names hnames entry hentry => ?_) Recovery.noConfusion (hkept rfl)
        obtain rfl := Option.some.inj hnames
        obtain ⟨dir, hdir, hin⟩ := mem_backupEntries.mp hentry
        rw [show disk.backup = some dir from hdir, Option.bind_some] at hentries
        rw [TreeDir.entries, hentries] at hin
        exact Or.inl (List.mem_map_of_mem hin)
  | adopt swap names =>
      cases names with
      | nil =>
          refine ⟨trivial, trivial, fun next hnext => recovers_read ?_ hnext⟩
          exact .of_more (h.goOn rfl fun hswap names hnames => h.moved hswap names hnames) Recovery.noConfusion
            (hkept rfl)
      | cons name names =>
          refine ⟨trivial, trivial, fun next hnext => recovers_read ?_ hnext⟩
          rw [Recovery.turn]
          split_ifs with hthere
          · refine .of_more (h.goOn rfl fun hswap names hnames entry hentry => ?_) Recovery.noConfusion (hkept rfl)
            obtain rfl := Option.some.inj hnames
            rcases h.moved hswap _ rfl entry hentry with hleft | hsafe
            · rcases List.mem_cons.mp hleft with heq | hin
              · obtain ⟨other, hother, hname⟩ := List.mem_map.mp hthere
                have hbuffered := hintact.backupEntries_subset hentry
                have hsame : other = entry :=
                  eq_of_pk_eq hintact.names (hintact.activeEntries_subset hother) hbuffered (hname.trans heq.symm)
                exact Or.inr (Or.inl (hsame ▸ hother))
              · exact Or.inl hin
            · exact Or.inr hsafe
          · exact .of_more (h.goOn rfl fun hswap names hnames => h.moved hswap names hnames) Recovery.noConfusion
              (hkept rfl)
  | moveEntry swap name names =>
      refine ⟨trivial, trivial, fun next hnext => ?_⟩
      have hlegal : Legal env disk (.adoptEntry name) := trivial
      obtain ⟨-, hrely⟩ := hintact.perform hlegal hnext
      have hsame := h.rely hintact hrely
      refine .of_more (hsame.goOn rfl fun hswap names hnames entry hentry => ?_) Recovery.noConfusion (hkept rfl)
      obtain rfl := Option.some.inj hnames
      refine (hsame.moved hswap _ rfl entry hentry).imp_left fun hleft => ?_
      refine (List.mem_cons.mp hleft).resolve_left fun heq => ?_
      exact backupEntries_adoptEntry hnext hentry heq
  | remove swap =>
      have hfound : disk.swaps ∈ (Recovery.remove swap).swap := congrArg some (hown swap rfl)
      have hlegal : disk.active.isSome ∧ ∀ entry ∈ disk.backupEntries, Safe env disk entry := by
        refine ⟨h.active hfound, fun entry hentry => ?_⟩
        exact (h.moved hfound [] rfl entry hentry).resolve_left List.not_mem_nil
      cases part with
      | none =>
          refine ⟨hlegal, trivial, fun next hnext => .of_done ?_⟩
          obtain ⟨dir, -, hnext⟩ := Option.bind_eq_some_iff.mp hnext
          obtain rfl := Option.some.inj hnext
          rfl
      | some part =>
          refine ⟨hlegal, trivial, fun next hnext => ?_⟩
          have hremove : Legal env disk (.removePart part) := hlegal
          obtain ⟨-, hrely⟩ := hintact.perform hremove hnext
          exact .of_more (h.rely hintact hrely) Recovery.noConfusion (hkept rfl)

/-- A recovery as part of an operation. -/
theorem Recovering.within {τ : Type} {assertion : Disk → τ → Prop} (h : Recovering env disk recovery)
    (hintact : Intact env disk) (hlive : recovery = .startForPaths → disk.active.isSome)
    (hown : ∀ swap, recovery = .remove swap → swap = disk.swaps) (part : Option Part)
    (hplace : (recovery.turn disk part).1 = .createBuffer → disk.active.isSome ∨ disk.backup.isNone)
    {continued : Recovery → τ} {done : Option τ}
    (hmore : ∀ next more, Rely env disk next → next.swaps = disk.swaps → Recovering env next more →
      more ≠ .startForPaths → (∀ swap ∈ more.swap, swap = disk.swaps ∨ swap ∈ recovery.swap) →
        assertion next (continued more))
    (hdone : ∀ next, Rely env disk next → next.backup = none → ∀ op ∈ done, assertion next op) :
    (recovery.within disk part continued done).Sound env disk assertion ∧
      Shared (recovery.within disk part continued done).action := by
  obtain ⟨hlegal, hshared, hstep⟩ := h.turn hintact hlive hown part hplace
  refine ⟨⟨hlegal, fun next hnext op hop => ?_, fun _ hop => nomatch hop⟩, hshared⟩
  obtain ⟨-, hrely⟩ := hintact.perform hlegal hnext
  have hswaps := perform_swaps hshared hlegal hnext
  have hrecovers := hstep next hnext
  obtain ⟨action, progress, hturn⟩ : ∃ action progress, recovery.turn disk part = (action, progress) := ⟨_, _, rfl⟩
  rw [Recovery.within, hturn] at hop
  rw [hturn] at hrecovers
  cases progress with
  | more more =>
      obtain rfl := Option.some.inj hop
      obtain ⟨hagain, hstart, hswap⟩ := hrecovers.more more rfl
      exact hmore next more hrely hswaps hagain hstart hswap
  | done => exact hdone next hrely (hrecovers.done rfl) op hop
  | failed => cases hop

end Recovery

/-! ### Summarisation -/

/-- Every entry that was read is folded into its leaf, or its hour is still to come. -/
def Folded (env : RuntimeEnv) (disk : Disk) (snapshot : List Entry) (hours : List Hour) : Prop :=
  ∀ entry ∈ snapshot, env.hourOf entry.name.millis ∈ hours ∨ RecordedEntry env disk entry

/-- The receipt of a leaf that is about to be written names what is folded into it. -/
def Receipted (disk : Disk) (save : Save) : Prop :=
  ∀ name ∈ metadataNames save.node.metadata,
    (save.node.id.length = 4 ∧ name ∈ save.names) ∨ Recorded disk save.node.id name

/-- What a summarisation has reached. -/
def Reached (env : RuntimeEnv) (disk : Disk) (snapshot : List Entry) : Summarisation.Phase → Prop
  | .recovering recovery => Recovering env disk recovery ∧ recovery ≠ .startForPaths
  | .folding hours => Folded env disk snapshot hours
  | .savingLeaf save hours => save.node.id.length = 4 ∧ Receipted disk save ∧
      ∀ entry ∈ snapshot, env.hourOf entry.name.millis ∈ hours ∨ RecordedEntry env disk entry ∨
        ((env.hourOf entry.name.millis).id = save.node.id ∧ entry.name ∈ save.names)
  | .propagating _ _ => Folded env disk snapshot []
  | .savingSummary save _ _ => save.node.metadata = none ∧ Folded env disk snapshot []
  | .deleting names => names ⊆ snapshot.map Entry.name ∧ Folded env disk snapshot []
  | .savingCleared save _ => Receipted disk save
  | .listing | .reading _ | .clearing _ => True

structure Summarising (env : RuntimeEnv) (disk : Disk) (op : Summarisation) : Prop where
  snapshot : op.snapshot ⊆ disk.buffered
  reached : Reached env disk op.snapshot op.phase

section Summarisation

variable {env : RuntimeEnv} {disk next : Disk} {op : Summarisation} {snapshot : List Entry} {save : Save}
  {phase : Summarisation.Phase} {external : External}

theorem Folded.mono {hours : List Hour} (h : Folded env disk snapshot hours)
    (hwritten : disk.written ⊆ next.written) : Folded env next snapshot hours :=
  fun entry hentry => (h entry hentry).imp_right fun hrecorded => hrecorded.mono hwritten

theorem Receipted.mono (h : Receipted disk save) (hwritten : disk.written ⊆ next.written) :
    Receipted next save :=
  fun name hname => (h name hname).imp_right fun hrecorded => hrecorded.mono hwritten

theorem Reached.rely (h : Reached env disk snapshot phase) (hintact : Intact env disk)
    (hrely : Rely env disk next) : Reached env next snapshot phase := by
  have hwritten := hrely.written
  cases phase with
  | recovering recovery => exact ⟨h.1.rely hintact hrely, h.2⟩
  | listing => trivial
  | reading names => trivial
  | folding hours => exact Folded.mono h hwritten
  | savingLeaf save hours =>
      obtain ⟨hhour, hreceipt, hsnapshot⟩ := h
      refine ⟨hhour, hreceipt.mono hwritten, fun entry hentry => (hsnapshot entry hentry).imp_right ?_⟩
      exact Or.imp_left fun hrecorded => hrecorded.mono hwritten
  | propagating ids failed => exact Folded.mono h hwritten
  | savingSummary save ids failed => exact ⟨h.1, h.2.mono hwritten⟩
  | deleting names => exact ⟨h.1, h.2.mono hwritten⟩
  | clearing hours => trivial
  | savingCleared save hours => exact Receipted.mono h hwritten

theorem Summarising.rely (h : Summarising env disk op) (hintact : Intact env disk)
    (hrely : Rely env disk next) : Summarising env next op :=
  ⟨List.Subset.trans h.snapshot hrely.buffered, h.reached.rely hintact hrely⟩

/-- A step of a summarisation that reads. -/
theorem Summarising.goOn (h : Summarising env disk op) (hreached : Reached env disk op.snapshot phase) :
    (op.goOn phase).Sound env disk (Summarising env) := by
  refine .read (fun other hother => ?_) fun _ hother => nomatch hother
  obtain rfl := Option.some.inj hother
  exact ⟨h.snapshot, hreached⟩

theorem sound_stop : (Summarisation.stop).Sound env disk (Summarising env) :=
  .read (fun _ hother => nomatch hother) fun _ hother => nomatch hother

/-- A step of a save: the directory is made, then the file takes its place. -/
theorem Save.sound {rebuild : Option Rebuild} {created : Save → Summarisation}
    {saved failed : Option Summarisation}
    (hundisturbed : Undisturbed disk rebuild (save.turn created saved failed).action)
    (hreceipt : Receipted disk save) (hintact : Intact env disk)
    (hcreated : Summarising env disk (created { save with created := true }))
    (hsaved : ∀ next, Rely env disk next → (save.node.id.length = 4 → (save.node.id, save.names) ∈ next.written) →
      ∀ op ∈ saved, Summarising env next op)
    (hfailed : ∀ op ∈ failed, Summarising env disk op) :
    (save.turn created saved failed).Sound env disk (Summarising env) := by
  unfold Save.turn at hundisturbed ⊢
  by_cases hdone : save.created
  · rw [if_pos hdone] at hundisturbed ⊢
    have hlegal : Legal env disk (.saveNode save.node save.names) :=
      ⟨fun hhour => (hundisturbed hhour).1, hreceipt⟩
    refine ⟨hlegal, fun next hnext => ?_, hfailed⟩
    refine hsaved next (hintact.perform hlegal hnext).2 fun hhour => ?_
    obtain ⟨dir, hactive, hnext⟩ := Option.bind_eq_some_iff.mp hnext
    split_ifs at hnext
    obtain rfl := Option.some.inj hnext
    change (save.node.id, save.names) ∈ disk.wrote save.node.id save.names
    rw [Disk.wrote, if_pos hhour]
    exact List.mem_append_right _ List.mem_cons_self
  · rw [if_neg hdone] at hundisturbed ⊢
    have hlegal : Legal env disk (.createDirs (nodeDir save.node.id)) := hundisturbed
    refine ⟨hlegal, fun next hnext op hop => ?_, hfailed⟩
    obtain rfl := Option.some.inj hop
    exact hcreated.rely hintact (hintact.perform hlegal hnext).2

/-- An hour is read, and there is nothing new, or the leaf is about to be written with what is new. -/
theorem Summarising.fold (h : Summarising env disk op) (hintact : Intact env disk) {hour : Hour}
    {hours : List Hour} (hfolded : Folded env disk op.snapshot (hour :: hours)) :
    (Summarisation.fold env external disk op hour hours).Sound env disk (Summarising env) := by
  have happlied : ∀ name ∈ alreadyApplied (readNode disk.activeNodes hour.id), Recorded disk hour.id name := by
    intro name hname
    cases hread : readNode disk.activeNodes hour.id with
    | none =>
        rw [hread] at hname
        exact absurd hname List.not_mem_nil
    | some node =>
        rw [hread] at hname
        exact hintact.recorded_of_readNode hread (alreadyApplied_subset node hname)
  have hprevious : ∀ name ∈ metadataNames (previousMetadata (readNode disk.activeNodes hour.id)),
      Recorded disk hour.id name := by
    intro name hname
    have hbefore := metadataNames_previousMetadata _ hname
    cases hread : readNode disk.activeNodes hour.id with
    | none =>
        rw [hread] at hbefore
        exact absurd hbefore List.not_mem_nil
    | some node =>
        rw [hread] at hbefore
        exact hintact.recorded_of_readNode hread hbefore
  -- An entry of the hour is new, or the receipt of the leaf names it.
  have hsplit : ∀ entry ∈ op.snapshot, env.hourOf entry.name.millis = hour →
      entry ∈ newEntries (readNode disk.activeNodes hour.id) (hourGroup env op.snapshot hour) ∨
        RecordedEntry env disk entry := by
    intro entry hentry hhour
    by_cases hname : entry.name ∈ alreadyApplied (readNode disk.activeNodes hour.id)
    · refine Or.inr ?_
      rw [RecordedEntry, hhour]
      exact happlied entry.name hname
    · exact Or.inl (mem_newEntries.mpr ⟨mem_hourGroup.mpr ⟨hentry, hhour⟩, hname⟩)
  have hcases : ∀ entry ∈ op.snapshot, env.hourOf entry.name.millis ∈ hours ∨ RecordedEntry env disk entry ∨
      (env.hourOf entry.name.millis = hour ∧
        entry ∈ newEntries (readNode disk.activeNodes hour.id) (hourGroup env op.snapshot hour)) := by
    intro entry hentry
    rcases hfolded entry hentry with hleft | hrecorded
    · rcases List.mem_cons.mp hleft with hhour | hlater
      · rcases hsplit entry hentry hhour with hnew | hrecorded
        · exact Or.inr (Or.inr ⟨hhour, hnew⟩)
        · exact Or.inr (Or.inl hrecorded)
      · exact Or.inl hlater
    · exact Or.inr (Or.inl hrecorded)
  unfold Summarisation.fold
  dsimp only
  split_ifs with hnone hleaf
  · refine h.goOn fun entry hentry => (hcases entry hentry).imp_right fun hrest => ?_
    refine hrest.resolve_right fun hnew => ?_
    rw [hnone] at hnew
    exact List.not_mem_nil hnew.2
  · exact sound_stop
  · split
    · exact sound_stop
    · refine h.goOn ⟨rfl, fun name hname => ?_, fun entry hentry => ?_⟩
      · change name ∈ metadataNames (some (.receipt _ _)) at hname
        rw [metadataNames_receipt] at hname
        rcases List.mem_append.mp hname with hgroup | hbefore
        · obtain ⟨entry, hentry, rfl⟩ := List.mem_map.mp hgroup
          obtain ⟨hmem, hhour⟩ := mem_hourGroup.mp hentry
          rcases hsplit entry hmem hhour with hnew | hrecorded
          · exact Or.inl ⟨rfl, List.mem_append_right _ (List.mem_map_of_mem hnew)⟩
          · rw [RecordedEntry, hhour] at hrecorded
            exact Or.inr hrecorded
        · exact Or.inr (hprevious name hbefore)
      · refine (hcases entry hentry).imp_right (Or.imp_right fun hnew => ?_)
        exact ⟨congrArg Hour.id hnew.1, List.mem_append_right _ (List.mem_map_of_mem hnew.2)⟩

theorem Summarising.propagate (h : Summarising env disk op) (hfolded : Folded env disk op.snapshot [])
    (id : NodeId) (ids failed : List NodeId) :
    (Summarisation.propagate env external disk op id ids failed).Sound env disk (Summarising env) := by
  have hnoted : ∀ other ∈ some { op with phase := Summarisation.Phase.propagating ids (failed ++ [id]) },
      Summarising env disk other := by
    intro other hother
    obtain rfl := Option.some.inj hother
    exact ⟨h.snapshot, hfolded⟩
  unfold Summarisation.propagate
  dsimp only
  split
  · exact .read hnoted hnoted
  · refine .read (fun other hother => ?_) hnoted
    obtain rfl := Option.some.inj hother
    exact ⟨h.snapshot, hfolded⟩
  · rename_i node hnode
    refine .read (fun other hother => ?_) hnoted
    obtain rfl := Option.some.inj hother
    exact ⟨h.snapshot, (propagatedNode_some hnode).2, hfolded⟩

theorem Summarising.clear (h : Summarising env disk op) (hintact : Intact env disk) (hour : Hour)
    (hours : List Hour) : (Summarisation.clear disk op hour hours).Sound env disk (Summarising env) := by
  unfold Summarisation.clear
  split
  · exact h.goOn trivial
  · rename_i node hread
    split
    · exact h.goOn trivial
    · rename_i receipt hreceipt
      refine h.goOn fun name hname => Or.inr ?_
      change Recorded disk node.id name
      rw [(readNode_some hread).1]
      refine hintact.recorded_of_readNode hread ?_
      rw [pendingFoldReceipt_some hreceipt, metadataNames_receipt]
      exact List.mem_append_right _ hname

theorem Recovery.shared_turn (disk : Disk) (part : Option Part) (recovery : Recovery) :
    Shared (recovery.turn disk part).1 := by
  cases recovery with
  | adopt swap names =>
      cases names with
      | nil => trivial
      | cons name names => trivial
  | remove swap =>
      cases part with
      | none => trivial
      | some part => trivial
  | _ => trivial

theorem Save.shared_turn {τ : Type} (save : Save) (created : Save → τ) (saved failed : Option τ) :
    Shared (save.turn created saved failed).action := by
  unfold Save.turn
  split_ifs
  · trivial
  · trivial

/-- A summarisation moves no tree. -/
theorem Summarisation.shared_turn (env : RuntimeEnv) (external : External) (disk : Disk) (op : Summarisation) :
    Shared (op.turn env external disk).action := by
  unfold Summarisation.turn
  split
  · exact Recovery.shared_turn disk external.part _
  · split_ifs
    · trivial
    · trivial
  · trivial
  · split
    · trivial
    · trivial
  · trivial
  · unfold Summarisation.fold
    dsimp only
    split_ifs
    · trivial
    · trivial
    · split
      · trivial
      · trivial
  · exact Save.shared_turn _ _ _ _
  · split_ifs
    · trivial
    · trivial
  · unfold Summarisation.propagate
    dsimp only
    split
    · trivial
    · trivial
    · trivial
  · exact Save.shared_turn _ _ _ _
  · trivial
  · trivial
  · trivial
  · unfold Summarisation.clear
    split
    · trivial
    · split
      · trivial
      · trivial
  · exact Save.shared_turn _ _ _ _

theorem Summarising.turn {rebuild : Option Rebuild} (h : Summarising env disk op) (hintact : Intact env disk)
    (hundisturbed : Undisturbed disk rebuild (op.turn env external disk).action)
    (hdeletes : ∀ swap ∈ op.deletes, swap = disk.swaps) :
    (op.turn env external disk).Sound env disk (Summarising env) := by
  obtain ⟨snapshot, phase⟩ := op
  obtain ⟨hsnapshot, hreached⟩ := h
  cases phase with
  | recovering recovery =>
      obtain ⟨hrecovering, hstart⟩ := hreached
      refine (hrecovering.within hintact (fun heq => absurd heq hstart) (fun swap heq => ?_) external.part
        (fun heq => ?_) (fun next more hrely _ hmore hnot _ => ?_) fun next hrely _ other hother => ?_).1
      · subst heq
        exact hdeletes swap rfl
      · change Undisturbed disk rebuild (recovery.turn disk external.part).1 at hundisturbed
        rw [heq] at hundisturbed
        exact hundisturbed
      · exact ⟨List.Subset.trans hsnapshot hrely.buffered, hmore, hnot⟩
      · obtain rfl := Option.some.inj hother
        exact ⟨List.Subset.trans hsnapshot hrely.buffered, trivial⟩
  | listing =>
      rw [Summarisation.turn]
      dsimp only
      split_ifs
      · exact sound_stop
      · exact Summarising.goOn ⟨hsnapshot, hreached⟩ trivial
  | reading names =>
      cases names with
      | nil =>
          refine Summarising.goOn ⟨hsnapshot, hreached⟩ fun entry hentry => Or.inl ?_
          exact mem_groupHours.mpr ⟨entry, hentry, rfl⟩
      | cons name names =>
          rw [Summarisation.turn]
          dsimp only
          split
          · exact sound_stop
          · rename_i entry hentry
            refine .read (fun other hother => ?_) fun _ hother => nomatch hother
            obtain rfl := Option.some.inj hother
            refine ⟨fun read hread => ?_, trivial⟩
            rcases List.mem_append.mp hread with hold | hnew
            · exact hsnapshot hold
            · rw [List.mem_singleton.mp hnew]
              exact hintact.activeEntries_subset (List.mem_of_find?_eq_some hentry)
  | folding hours =>
      cases hours with
      | nil => exact Summarising.goOn ⟨hsnapshot, hreached⟩ hreached
      | cons hour hours => exact Summarising.fold ⟨hsnapshot, hreached⟩ hintact hreached
  | savingLeaf save hours =>
      obtain ⟨hhour, hreceipt, hentries⟩ := hreached
      refine Save.sound hundisturbed hreceipt hintact ⟨hsnapshot, hhour, hreceipt, hentries⟩
        (fun next hrely hwritten other hother => ?_) fun _ hother => nomatch hother
      obtain rfl := Option.some.inj hother
      refine ⟨List.Subset.trans hsnapshot hrely.buffered, fun entry hentry => (hentries entry hentry).imp_right ?_⟩
      rintro (hrecorded | ⟨hid, hname⟩)
      · exact hrecorded.mono hrely.written
      · rw [RecordedEntry, hid]
        exact ⟨save.names, hwritten hhour, hname⟩
  | propagating ids failed =>
      cases ids with
      | nil =>
          rw [Summarisation.turn]
          dsimp only
          split_ifs
          · have hdeleting : Reached env disk snapshot (.deleting (snapshot.map Entry.name)) :=
              ⟨List.Subset.refl _, hreached⟩
            exact Summarising.goOn ⟨hsnapshot, hreached⟩ hdeleting
          · exact sound_stop
      | cons id ids => exact Summarising.propagate ⟨hsnapshot, hreached⟩ hreached id ids failed
  | savingSummary save ids failed =>
      obtain ⟨hmetadata, hfolded⟩ := hreached
      have hreceipt : Receipted disk save := by
        intro name hname
        rw [hmetadata] at hname
        exact absurd hname List.not_mem_nil
      refine Save.sound hundisturbed hreceipt hintact ⟨hsnapshot, hmetadata, hfolded⟩
        (fun next hrely _ other hother => ?_) fun other hother => ?_
      · obtain rfl := Option.some.inj hother
        exact ⟨List.Subset.trans hsnapshot hrely.buffered, hfolded.mono hrely.written⟩
      · obtain rfl := Option.some.inj hother
        exact ⟨hsnapshot, hfolded⟩
  | deleting names =>
      cases names with
      | nil => exact Summarising.goOn ⟨hsnapshot, hreached⟩ trivial
      | cons name names =>
          obtain ⟨hnames, hfolded⟩ := hreached
          have hlegal : Legal env disk (.deleteEntry name) := by
            intro entry hentry hname
            obtain ⟨read, hread, hsame⟩ := List.mem_map.mp (hnames List.mem_cons_self)
            obtain rfl := eq_of_pk_eq hintact.names hentry (hsnapshot hread) (hname.trans hsame.symm)
            exact (hfolded entry hread).resolve_left List.not_mem_nil
          refine ⟨hlegal, fun next hnext other hother => ?_, fun _ hother => nomatch hother⟩
          obtain rfl := Option.some.inj hother
          have hrely := (hintact.perform hlegal hnext).2
          refine ⟨List.Subset.trans hsnapshot hrely.buffered, ?_, hfolded.mono hrely.written⟩
          exact fun other hother => hnames (List.mem_cons_of_mem _ hother)
  | clearing hours =>
      cases hours with
      | nil => exact sound_stop
      | cons hour hours => exact Summarising.clear ⟨hsnapshot, hreached⟩ hintact hour hours
  | savingCleared save hours =>
      refine Save.sound hundisturbed hreached hintact ⟨hsnapshot, hreached⟩
        (fun next hrely _ other hother => ?_) fun _ hother => nomatch hother
      obtain rfl := Option.some.inj hother
      exact ⟨List.Subset.trans hsnapshot hrely.buffered, trivial⟩

end Summarisation

end TinyCortex.TimeTree.Swap
