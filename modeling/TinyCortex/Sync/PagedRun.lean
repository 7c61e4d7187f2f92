import TinyCortex.Sync.PageSize

/-! Page sizes over the runs of the synchronization. The size that a run carries from page to page is the last one at
which the provider accepted a page after a shrink. -/

namespace TinyCortex.Sync

variable {ι β : Type}

/-- A page of the run: the arguments that the source gave, the requests and their answers, how the page ended, and the
spending before and after. -/
structure PageLog (β : Type) where
  base : Arguments β
  requests : List (Arguments β)
  answers : List Received
  exit : Exit
  before : Spending
  after : Spending

/-- What a run keeps of its pages: the size that later pages start at, the spending, the pages, and the counts that the
scopes and the documents have recorded. -/
structure PageRun (β : Type) where
  pageSizeOverride : Option Nat
  spending : Spending
  pages : List (PageLog β)
  spent : List Nat

structure PagedWorld (ι β : Type) where
  world : World ι
  run : PageRun β

/-- What the page loop makes of the exit. -/
def Exit.reply (exit : Exit) (items : List (ι × ItemInput)) (next : Bool) : Reply ι :=
  match exit with
  | .accepted => .page items next
  | .exhausted => .tooLarge
  | .scopeFailed | .failed => .failed

/-- A run starts with the daily budget that was loaded, a page is asked for with the arguments of the source, or
something else happens. -/
inductive PagedLabel (ι β : Type)
  | start (config : Config) (scopes : Option (List String)) (daily : DailyBudget) (today : String)
      (spent : List (String × Nat))
  | page (today : String) (arguments : Arguments β) (answers : Nat → Received) (items : List (ι × ItemInput))
      (next saved : Bool) (spent : List (String × Nat))
  | other (label : Label ι)

def PageRun.spend (run : PageRun β) (spent : List (String × Nat)) : PageRun β :=
  { run with
    spending := spent.foldl (fun spending entry => spending.recordRequests entry.1 entry.2) run.spending
    spent := run.spent ++ spent.map Prod.snd }

section Steps

variable (source : Source ι) (key : Option String)

/-- One page: its first request has the size of the run, and only a size that was accepted stays. -/
def PageRun.page (run : PageRun β) (arguments : Arguments β) (answers : Nat → Received) : PageRun β × Exit :=
  let fetch := fetchPage key source.tolerateScopeErrors answers (applyPageSize arguments key run.pageSizeOverride) none
    run.spending
  ({ run with
      pageSizeOverride :=
        if fetch.exit = .accepted then fetch.attemptedPageSize.or run.pageSizeOverride else run.pageSizeOverride
      spending := fetch.spending
      pages := run.pages ++ [⟨arguments, fetch.requests, fetch.answers, fetch.exit, run.spending, fetch.spending⟩] },
    fetch.exit)

def PagedWorld.step (paged : PagedWorld ι β) : PagedLabel ι β → PagedWorld ι β
  | .start config scopes daily today spent =>
      match paged.world.run with
      | some _ => paged
      | none =>
          ⟨paged.world.step source (.start config (daily.isExhausted today) scopes),
            PageRun.spend ⟨none, ⟨daily, 0⟩, [], []⟩ (if daily.isExhausted today then [] else spent)⟩
  | .page today arguments answers items next saved spent =>
      match paged.world.run with
      | none => paged
      | some run =>
          match run.phase with
          | .pages _ =>
              if paged.run.spending.daily.isExhausted today then
                { paged with world := paged.world.step source (.page ⟨true, .failed, saved⟩) }
              else
                let (pages, exit) := paged.run.page source key arguments answers
                ⟨paged.world.step source (.page ⟨false, exit.reply items next, saved⟩),
                  pages.spend (if exit = .accepted then spent else [])⟩
          | _ => paged
  | .other (.start _ _ _) => paged
  | .other (.page _) => paged
  | .other label => { paged with world := paged.world.step source label }

def pagedMachine (daily : DailyBudget) : Machine (PagedWorld ι β) (PagedLabel ι β) where
  start := ⟨(machine source).start, ⟨none, ⟨daily, 0⟩, [], []⟩⟩
  step := PagedWorld.step source key

end Steps

/-! ### Sizes of pages -/

variable (key : Option String)

/-- The sizes that a page has asked for. -/
def PageLog.sizes (page : PageLog β) : List Nat := page.requests.filterMap (pageSize key)

/-- The size at which the provider accepted the page. -/
def PageLog.acceptedSize (page : PageLog β) : Option Nat :=
  if page.exit = .accepted then page.requests.getLast?.bind (pageSize key) else none

/-- The page was accepted after a shrink. -/
def PageLog.Shrunk (page : PageLog β) : Prop := page.exit = .accepted ∧ 1 < page.requests.length

def lastAccepted (pages : List (PageLog β)) : Option Nat := (pages.filterMap (PageLog.acceptedSize key)).getLast?

/-- The requests that are recorded for the answers of a page. -/
def PageLog.charges (page : PageLog β) : List Nat := page.answers.map fun received => received.answer.requests

/-- A page after others: it starts with the arguments of the source or at a size that the provider accepted before, and
once a shrink was accepted, at no size above the last accepted one. -/
structure Follows (before : List (PageLog β)) (page : PageLog β) : Prop where
  carried : page.requests.head? = some page.base ∨
    ∃ request size, page.requests.head? = some request ∧ pageSize key request = some size ∧
      ∃ earlier ∈ before, earlier.acceptedSize key = some size
  sticky : (∃ earlier ∈ before, earlier.Shrunk) → ∃ accepted, lastAccepted key before = some accepted ∧
    ∀ request size, page.requests.head? = some request → pageSize key request = some size → size ≤ accepted

/-- The pages of a run: the sizes of each descend and are at least one, unless the source itself asks for none; each
request has its answer, and every answer is recorded; and each page follows those before it. -/
structure SizesSound (run : PageRun β) : Prop where
  descending : ∀ page ∈ run.pages, (page.sizes key).Pairwise (· > ·)
  positive : ∀ page ∈ run.pages, (∀ size, pageSize key page.base = some size → minPageSize ≤ size) →
    ∀ size ∈ page.sizes key, minPageSize ≤ size
  answered : ∀ page ∈ run.pages, page.answers.length = page.requests.length
  recorded : ∀ page ∈ run.pages, page.after = page.answers.foldl Spending.received page.before
  total : run.spending.runRequests = min ((run.pages.flatMap PageLog.charges).sum + run.spent.sum) (2 ^ 32 - 1)
  follows : ∀ before page after, run.pages = before ++ page :: after → Follows key before page

/-! ### One page -/

variable {key : Option String}

/-- The first request of a page has the size of the run, if it has one at all. -/
theorem pageSize_applyPageSize {arguments : Arguments β} {size : Nat} (h : applyPageSize arguments key (some size) ≠ arguments) :
    pageSize key (applyPageSize arguments key (some size)) = some size := by
  unfold applyPageSize at h ⊢
  cases key with
  | none => exact absurd (Eq.refl _) h
  | some key =>
      dsimp only at h ⊢
      by_cases hget : (arguments.get key).isSome
      · rw [if_pos hget]
        exact pageSize_set hget size
      · rw [if_neg hget] at h
        exact absurd (Eq.refl _) h

theorem pageSize_applyPageSize_cases (arguments : Arguments β) (key : Option String) (size : Nat) :
    pageSize key (applyPageSize arguments key (some size)) = none ∨
      pageSize key (applyPageSize arguments key (some size)) = some size := by
  cases key with
  | none => exact Or.inl (Eq.refl _)
  | some key =>
      unfold applyPageSize
      dsimp only
      by_cases hget : (arguments.get key).isSome
      · rw [if_pos hget]
        exact Or.inr (pageSize_set hget size)
      · rw [if_neg hget]
        left
        unfold pageSize
        rw [Option.bind_some, Option.not_isSome_iff_eq_none.mp hget]

theorem applyPageSize_none (arguments : Arguments β) (key : Option String) : applyPageSize arguments key none = arguments := by
  cases key <;> rfl

/-- Sizes along smaller and smaller requests descend. -/
theorem descending_of_smaller {requests : List (Arguments β)} (h : requests.IsChain (Smaller key)) :
    (requests.filterMap (pageSize key)).Pairwise (· > ·) := by
  rw [← List.isChain_iff_pairwise]
  induction requests with
  | nil => exact .nil
  | cons request rest ih =>
      cases rest with
      | nil =>
          rw [List.filterMap_cons]
          cases pageSize key request with
          | none => exact .nil
          | some size => exact .singleton size
      | cons next rest =>
          obtain ⟨⟨current, reduced, hcurrent, hreduced, -, hlt⟩, hrest⟩ := List.isChain_cons_cons.mp h
          have hnext := ih hrest
          rw [List.filterMap_cons_some hcurrent]
          rw [List.filterMap_cons_some hreduced] at hnext ⊢
          exact .cons_cons hlt hnext

/-- Every request but the first is for one item at least. -/
theorem positive_of_smaller {first : Arguments β} {rest : List (Arguments β)}
    (h : (first :: rest).IsChain (Smaller key)) :
    ∀ request ∈ rest, ∃ size, pageSize key request = some size ∧ minPageSize ≤ size := by
  induction rest generalizing first with
  | nil => exact fun _ hmem => absurd hmem List.not_mem_nil
  | cons next rest ih =>
      obtain ⟨⟨-, reduced, -, hreduced, hfloor, -⟩, hrest⟩ := List.isChain_cons_cons.mp h
      exact List.forall_mem_cons.mpr ⟨⟨reduced, hreduced, hfloor⟩, ih hrest⟩

/-! ### The spending -/

theorem runRequests_received {spending : Spending} (h : spending.runRequests ≤ 2 ^ 32 - 1) (received : Received) :
    (spending.received received).runRequests = min (spending.runRequests + received.answer.requests) (2 ^ 32 - 1) := by
  unfold Spending.received
  cases received.answer with
  | response successful error attempts => rfl
  | failure attempts =>
      cases attempts with
      | none => exact (min_eq_left h).symm
      | some attempts => rfl

/-- Counts that are recorded one after the other are recorded in sum. -/
theorem runRequests_foldl {γ : Type} {record : Spending → γ → Spending} {count : γ → Nat}
    (hrecord : ∀ spending entry, spending.runRequests ≤ 2 ^ 32 - 1 →
      (record spending entry).runRequests = min (spending.runRequests + count entry) (2 ^ 32 - 1))
    (entries : List γ) {spending : Spending} (h : spending.runRequests ≤ 2 ^ 32 - 1) :
    (entries.foldl record spending).runRequests =
      min (spending.runRequests + (entries.map count).sum) (2 ^ 32 - 1) := by
  induction entries generalizing spending with
  | nil => exact (min_eq_left h).symm
  | cons entry entries ih =>
      have hnext := hrecord spending entry h
      rw [List.foldl_cons, ih (hnext ▸ min_le_right _ _), hnext, List.map_cons, List.sum_cons]
      omega

/-! ### Runs -/

/-- The pages are sound, and the size that the run carries is the last one at which a page was accepted; without a size
no page was accepted after a shrink. -/
structure SizesKept (key : Option String) (run : PageRun β) : Prop extends SizesSound key run where
  unset : run.pageSizeOverride = none → ∀ page ∈ run.pages, ¬page.Shrunk
  carries : ∀ size, run.pageSizeOverride = some size →
    minPageSize ≤ size ∧ lastAccepted key run.pages = some size

theorem sizesKept_fresh (daily : DailyBudget) : SizesKept key (⟨none, ⟨daily, 0⟩, [], []⟩ : PageRun β) where
  descending := fun _ hmem => absurd hmem List.not_mem_nil
  positive := fun _ hmem => absurd hmem List.not_mem_nil
  answered := fun _ hmem => absurd hmem List.not_mem_nil
  recorded := fun _ hmem => absurd hmem List.not_mem_nil
  total := Eq.refl _
  follows := fun _ _ _ heq => by simp at heq
  unset := fun _ _ hmem => absurd hmem List.not_mem_nil
  carries := nofun

theorem SizesKept.spend {run : PageRun β} (h : SizesKept key run) (spent : List (String × Nat)) :
    SizesKept key (run.spend spent) where
  descending := h.descending
  positive := h.positive
  answered := h.answered
  recorded := h.recorded
  total := by
    have hbound : run.spending.runRequests ≤ 2 ^ 32 - 1 := h.total ▸ min_le_right _ _
    have hfold := @runRequests_foldl (String × Nat) (fun spending entry => spending.recordRequests entry.1 entry.2)
      Prod.snd (fun _ _ _ => Eq.refl _) spent _ hbound
    rw [PageRun.spend]
    dsimp only
    rw [hfold, h.total, List.sum_append]
    omega
  follows := h.follows
  unset := h.unset
  carries := h.carries

/-- Something holds of each page and those before it, also of a new last one. -/
theorem forall_split_concat {P : List (PageLog β) → PageLog β → Prop} {pages : List (PageLog β)} {new : PageLog β}
    (h : ∀ before page after, pages = before ++ page :: after → P before page) (hnew : P pages new) :
    ∀ before page after, pages ++ [new] = before ++ page :: after → P before page := by
  intro before page after heq
  rcases List.eq_nil_or_concat' after with rfl | ⟨init, last, rfl⟩
  · obtain ⟨rfl, hlast⟩ := List.append_inj' heq (Eq.refl _)
    rwa [← (List.cons.inj hlast).1]
  · rw [← List.cons_append, ← List.append_assoc] at heq
    obtain ⟨hpages, -⟩ := List.append_inj' heq (Eq.refl _)
    exact h before page init hpages

theorem lastAccepted_concat (pages : List (PageLog β)) (page : PageLog β) :
    lastAccepted key (pages ++ [page]) = (page.acceptedSize key).or (lastAccepted key pages) := by
  unfold lastAccepted
  rw [List.filterMap_append]
  cases hsize : page.acceptedSize key with
  | none => simp [hsize]
  | some size => simp [hsize]

/-- The size at which the provider accepted a page, and what the run carries then. -/
theorem carries_page {run : PageRun β} (h : SizesKept key run) {arguments : Arguments β} {answers : Nat → Received}
    {fetch : Fetch β} (hfetched : Fetched key answers (applyPageSize arguments key run.pageSizeOverride) none run.spending
      fetch) {page : PageLog β} (hrequests : page.requests = fetch.requests) (hexit : page.exit = fetch.exit) :
    ((if fetch.exit = .accepted then fetch.attemptedPageSize.or run.pageSizeOverride else run.pageSizeOverride) = none →
      ¬page.Shrunk) ∧
    ∀ size, (if fetch.exit = .accepted then fetch.attemptedPageSize.or run.pageSizeOverride else run.pageSizeOverride) =
      some size → minPageSize ≤ size ∧ (page.acceptedSize key).or (lastAccepted key run.pages) = some size := by
  by_cases haccepted : fetch.exit = .accepted
  · rw [if_pos haccepted]
    have haccepted' : page.exit = .accepted := hexit.trans haccepted
    unfold PageLog.acceptedSize PageLog.Shrunk
    rw [if_pos haccepted', hrequests]
    rcases hfetched.attempted with ⟨hone, htried⟩ | ⟨init, last, size, hinit, hne, hlast, htried⟩
    · rw [hone, htried, Option.none_or, List.getLast?_singleton, Option.bind_some]
      refine ⟨fun _ hshrunk => ?_, fun size hsize => ?_⟩
      · rw [List.length_singleton] at hshrunk
        exact lt_irrefl 1 hshrunk.2
      · obtain ⟨hfloor, hlast⟩ := h.carries size hsize
        refine ⟨hfloor, ?_⟩
        rw [hsize]
        rcases pageSize_applyPageSize_cases arguments key size with hnone | hsome
        · rw [hnone, Option.none_or, hlast]
        · rw [hsome, Option.some_or]
    · rw [htried, Option.some_or, hinit, List.getLast?_concat, Option.bind_some, hlast, Option.some_or]
      refine ⟨nofun, fun size' hsize' => ⟨?_, hsize'⟩⟩
      -- The accepted request is not the first one, so it is a shrunk one.
      obtain ⟨rest, hrest⟩ := hfetched.first
      obtain ⟨first, more, rfl⟩ := List.exists_cons_of_ne_nil hne
      have hchain := hfetched.smaller
      rw [hinit] at hchain
      obtain ⟨size'', hlast', hfloor⟩ := positive_of_smaller hchain last
        (List.mem_append_right _ (List.mem_singleton_self _))
      rw [hlast, Option.some.injEq] at hlast'
      rw [Option.some.injEq] at hsize'
      rw [← hsize', hlast']
      exact hfloor
  · rw [if_neg haccepted]
    have haccepted' : page.exit ≠ .accepted := fun heq => haccepted (hexit.symm.trans heq)
    unfold PageLog.acceptedSize PageLog.Shrunk
    rw [if_neg haccepted', Option.none_or]
    exact ⟨fun _ hshrunk => haccepted' hshrunk.1, h.carries⟩

theorem exists_acceptedSize {pages : List (PageLog β)} {size : Nat} (h : lastAccepted key pages = some size) :
    ∃ page ∈ pages, page.acceptedSize key = some size :=
  List.mem_filterMap.mp (List.mem_of_getLast? h)

/-- A page of the run follows those before it. -/
theorem follows_page {run : PageRun β} (h : SizesKept key run) {page : PageLog β} {rest : List (Arguments β)}
    (hfirst : page.requests = applyPageSize page.base key run.pageSizeOverride :: rest) :
    Follows key run.pages page := by
  cases hoverride : run.pageSizeOverride with
  | none =>
      rw [hoverride, applyPageSize_none] at hfirst
      refine ⟨Or.inl (by rw [hfirst, List.head?_cons]), fun ⟨earlier, hmem, hshrunk⟩ => ?_⟩
      exact absurd hshrunk (h.unset hoverride earlier hmem)
  | some size =>
      rw [hoverride] at hfirst
      obtain ⟨-, hlast⟩ := h.carries size hoverride
      constructor
      · by_cases hsame : applyPageSize page.base key (some size) = page.base
        · left
          rw [hfirst, List.head?_cons, hsame]
        · right
          refine ⟨_, size, by rw [hfirst, List.head?_cons], pageSize_applyPageSize hsame, ?_⟩
          exact exists_acceptedSize hlast
      · refine fun _ => ⟨size, hlast, fun request size' hrequest hsize' => ?_⟩
        rw [hfirst, List.head?_cons, Option.some.injEq] at hrequest
        subst hrequest
        rcases pageSize_applyPageSize_cases page.base key size with hnone | hsome
        · rw [hnone] at hsize'
          cases hsize'
        · rw [hsome, Option.some.injEq] at hsize'
          exact hsize'.ge

/-- What a page has asked for is at least one item, unless the source asks for none. -/
theorem positive_page {run : PageRun β} (h : SizesKept key run) {base : Arguments β} {rest : List (Arguments β)}
    (hchain : (applyPageSize base key run.pageSizeOverride :: rest).IsChain (Smaller key))
    (hbase : ∀ size, pageSize key base = some size → minPageSize ≤ size) :
    ∀ size ∈ (applyPageSize base key run.pageSizeOverride :: rest).filterMap (pageSize key), minPageSize ≤ size := by
  intro size hsize
  obtain ⟨request, hrequest, hof⟩ := List.mem_filterMap.mp hsize
  rcases List.mem_cons.mp hrequest with rfl | hlater
  · cases hoverride : run.pageSizeOverride with
    | none =>
        rw [hoverride, applyPageSize_none] at hof
        exact hbase size hof
    | some carried =>
        rw [hoverride] at hof
        rcases pageSize_applyPageSize_cases base key carried with hnone | hsome
        · rw [hnone] at hof
          cases hof
        · rw [hsome, Option.some.injEq] at hof
          exact hof ▸ (h.carries carried hoverride).1
  · obtain ⟨size', hsize', hfloor⟩ := positive_of_smaller hchain request hlater
    rw [hof, Option.some.injEq] at hsize'
    exact hsize' ▸ hfloor

theorem SizesKept.page {run : PageRun β} (h : SizesKept key run) (source : Source ι) (arguments : Arguments β)
    (answers : Nat → Received) : SizesKept key (run.page source key arguments answers).1 := by
  have hfetched : Fetched key answers (applyPageSize arguments key run.pageSizeOverride) none run.spending
      (fetchPage key source.tolerateScopeErrors answers (applyPageSize arguments key run.pageSizeOverride) none
        run.spending) := fetched_fetchPage _ _ _ _
  unfold PageRun.page
  generalize fetchPage key source.tolerateScopeErrors answers (applyPageSize arguments key run.pageSizeOverride) none
    run.spending = fetch at hfetched ⊢
  obtain ⟨rest, hfirst⟩ := hfetched.first
  have hcarries := @carries_page _ _ _ h arguments _ _ hfetched
    ⟨arguments, fetch.requests, fetch.answers, fetch.exit, run.spending, fetch.spending⟩ (Eq.refl _) (Eq.refl _)
  have hchain := hfetched.smaller
  dsimp only
  constructor
  · constructor
    · refine List.forall_mem_append.mpr ⟨h.descending, List.forall_mem_singleton.mpr ?_⟩
      exact descending_of_smaller hchain
    · refine List.forall_mem_append.mpr ⟨h.positive, List.forall_mem_singleton.mpr fun hbase => ?_⟩
      rw [hfirst] at hchain
      have hpositive := positive_page h hchain hbase
      rwa [← hfirst] at hpositive
    · refine List.forall_mem_append.mpr ⟨h.answered, List.forall_mem_singleton.mpr ?_⟩
      dsimp only
      rw [hfetched.answered, List.length_map, List.length_range]
    · exact List.forall_mem_append.mpr ⟨h.recorded, List.forall_mem_singleton.mpr hfetched.recorded⟩
    · have hbound : run.spending.runRequests ≤ 2 ^ 32 - 1 := h.total ▸ min_le_right _ _
      have hfold := @runRequests_foldl Received _ (fun received => received.answer.requests)
        (fun _ received hle => runRequests_received hle received) fetch.answers _ hbound
      dsimp only
      rw [hfetched.recorded, hfold, h.total, List.flatMap_append, List.sum_append, List.flatMap_singleton,
        PageLog.charges]
      dsimp only
      omega
    · exact forall_split_concat h.follows (follows_page h hfirst)
  · intro hunset
    have hbefore : run.pageSizeOverride = none := by
      split_ifs at hunset
      · exact (Option.or_eq_none_iff.mp hunset).2
      · exact hunset
    exact List.forall_mem_append.mpr ⟨h.unset hbefore, List.forall_mem_singleton.mpr (hcarries.1 hunset)⟩
  · intro size hsize
    rw [lastAccepted_concat]
    exact hcarries.2 size hsize

theorem sizesKept_step (source : Source ι) {paged : PagedWorld ι β} (h : SizesKept key paged.run)
    (label : PagedLabel ι β) : SizesKept key (paged.step source key label).run := by
  cases label with
  | start config scopes daily today spent =>
      unfold PagedWorld.step
      cases paged.world.run with
      | some run => exact h
      | none => exact (sizesKept_fresh daily).spend _
  | page today arguments answers items next saved spent =>
      unfold PagedWorld.step
      cases paged.world.run with
      | none => exact h
      | some run =>
          dsimp only
          cases run.phase with
          | pages pass =>
              dsimp only
              by_cases hexhausted : paged.run.spending.daily.isExhausted today = true
              · rw [if_pos hexhausted]
                exact h
              · rw [if_neg hexhausted]
                exact (h.page source arguments answers).spend _
          | scopes => exact h
          | stopped => exact h
          | failed => exact h
  | other label => cases label <;> exact h

/-- In every state of every run the pages are sound: the retries of a page descend to one item at the most, every answer
is recorded, and later pages start at a size that was accepted, never above the last one. -/
theorem sizesSound_run (source : Source ι) (key : Option String) (daily : DailyBudget) (labels : List (PagedLabel ι β)) :
    (pagedMachine source key daily).Throughout (fun paged => SizesSound key paged.run) labels := by
  intro done _
  have hkept : SizesKept key ((pagedMachine source key daily).run done).run :=
    @Machine.invariant _ _ (pagedMachine source key daily) (fun paged => SizesKept key paged.run)
      (sizesKept_fresh daily) (fun _ label h => sizesKept_step source h label) done
  exact hkept.toSizesSound

end TinyCortex.Sync
