import TinyCortex.Lib.FrontMatter
import TinyCortex.Lib.KeyedStore

/-! The rules of tools in a store (`tool_memory/store.rs`): writing, deleting and listing them. Texts are lists of
characters; names of tools are ASCII, so that `to_lowercase` changes characters one by one. -/

namespace TinyCortex.ToolMemory

open FrontMatter

inductive ToolMemoryPriority where
  | normal
  | high
  | critical
  deriving DecidableEq

namespace ToolMemoryPriority

def rank : ToolMemoryPriority → Nat
  | normal => 0
  | high => 1
  | critical => 2

def isEager : ToolMemoryPriority → Bool
  | normal => false
  | high => true
  | critical => true

end ToolMemoryPriority

structure ToolMemoryRule (src : Type) where
  id : List Char
  toolName : List Char
  rule : List Char
  priority : ToolMemoryPriority
  source : src
  tags : List (List Char)
  createdAt : String
  updatedAt : String
  deriving DecidableEq

/-- The serializer: what it writes is read back. -/
structure RuleCodec (src : Type) where
  toString : ToolMemoryRule src → List Char
  fromStr : List Char → Option (ToolMemoryRule src)
  roundTrip : ∀ rule, fromStr (toString rule) = some rule

def toolMemoryNamespace (toolName : List Char) : List Char := "tool-".toList ++ toolName

def storageKey (id : List Char) : List Char := "rule/".toList ++ id

/-- `trim().to_lowercase()`: the spelling under which a name is written. -/
def normal (name : List Char) : List Char := (trim name).map Char.toLower

theorem toLower_cases (c : Char) :
    c.toLower = c ∨ 65 ≤ c.toNat ∧ c.toNat ≤ 90 ∧ c.toLower.toNat = c.toNat + 32 := by
  unfold Char.toLower
  split_ifs with hupper
  · have hlow : 65 ≤ c.toNat := hupper.1
    have hhigh : c.toNat ≤ 90 := hupper.2
    refine Or.inr ⟨hlow, hhigh, ?_⟩
    change (c.val + ('a'.val - 'A'.val)).toNat = c.val.toNat + 32
    rw [UInt32.toNat_add]
    change (c.toNat + 32) % 4294967296 = c.toNat + 32
    omega
  · exact Or.inl (Eq.refl _)

theorem toLower_toLower (c : Char) : c.toLower.toLower = c.toLower := by
  rcases toLower_cases c.toLower with hsame | ⟨-, hhigh, -⟩
  · exact hsame
  · rcases toLower_cases c with hsame | ⟨hlow, -, hnat⟩
    · rw [hsame, hsame]
    · omega

theorem isWhitespace_letter {c : Char} (hlow : 65 ≤ c.toNat) (hhigh : c.toNat ≤ 122) :
    Text.isWhitespace c = false := by
  simp only [Text.isWhitespace, Bool.or_eq_false_iff, Bool.and_eq_false_iff, decide_eq_false_iff_not,
    List.contains_eq_mem, List.mem_cons, List.not_mem_nil, or_false]
  omega

theorem isWhitespace_toLower (c : Char) : Text.isWhitespace c.toLower = Text.isWhitespace c := by
  rcases toLower_cases c with hsame | ⟨hlow, hhigh, hnat⟩
  · rw [hsame]
  · rw [isWhitespace_letter hlow (by omega), isWhitespace_letter (by omega) (by omega)]

theorem dropWhile_map_toLower (text : List Char) :
    (text.map Char.toLower).dropWhile Text.isWhitespace = (text.dropWhile Text.isWhitespace).map Char.toLower := by
  rw [List.dropWhile_map]
  congr 2
  funext c
  exact isWhitespace_toLower c

theorem trim_map_toLower (text : List Char) : trim (text.map Char.toLower) = (trim text).map Char.toLower := by
  unfold trim List.rdropWhile
  rw [dropWhile_map_toLower, ← List.map_reverse, dropWhile_map_toLower, List.map_reverse]

theorem trim_trim (text : List Char) : trim (trim text) = trim text :=
  trim_of_ends (fun _ => isWhitespace_head_trim) fun _ => isWhitespace_last_trim

theorem normal_normal (name : List Char) : normal (normal name) = normal name := by
  unfold normal
  rw [trim_map_toLower, trim_trim, List.map_map]
  congr 1
  funext c
  exact toLower_toLower c

theorem trim_of_normal {name : List Char} (h : normal name = name) : trim name = name := by
  rw [← h, normal, trim_map_toLower, trim_trim]

theorem normal_ne_nil {name : List Char} (h : trim name ≠ []) : normal name ≠ [] :=
  fun hnil => h (List.map_eq_nil_iff.mp hnil)

section Store

variable {σ src : Type} (memory : KeyedStore σ (List Char) (List Char) (List Char)) (codec : RuleCodec src)

def fetchRule (s : σ) (namespace' key : List Char) : Option (ToolMemoryRule src) :=
  (memory.get s namespace' key).bind codec.fromStr

/-- The identifier that is generated and the time are inputs. -/
def putRule (s : σ) (rule : ToolMemoryRule src) (generated : List Char) (now : String) :
    σ × Except String (ToolMemoryRule src) :=
  if trim rule.toolName = [] then (s, .error "tool_name is required")
  else if trim rule.rule = [] then (s, .error "rule body is required")
  else
    let id := if trim rule.id = [] then generated else rule.id
    let toolName := normal rule.toolName
    let createdAt := ((fetchRule memory codec s (toolMemoryNamespace toolName) (storageKey id)).map
      ToolMemoryRule.createdAt).getD rule.createdAt
    let stored := { rule with id := id, toolName := toolName, createdAt := createdAt, updatedAt := now }
    (memory.store s (toolMemoryNamespace toolName) (storageKey id) (codec.toString stored), .ok stored)

def deleteRule (s : σ) (toolName ruleId : List Char) : σ × Bool :=
  (memory.forget s (toolMemoryNamespace toolName) (storageKey ruleId),
    (memory.get s (toolMemoryNamespace toolName) (storageKey ruleId)).isSome)

/-- Higher priority first, and then later ones. -/
def before (a b : ToolMemoryRule src) : Bool :=
  decide (b.priority.rank < a.priority.rank ∨ a.priority.rank = b.priority.rank ∧ b.updatedAt ≤ a.updatedAt)

def listRules (s : σ) (toolName : List Char) : List (ToolMemoryRule src) :=
  (((memory.list s (toolMemoryNamespace toolName)).filter fun entry =>
    decide ("rule/".toList <+: entry.1)).filterMap fun entry => codec.fromStr entry.2).mergeSort before

/-! ### Histories -/

inductive Event (src : Type) where
  | put (rule : ToolMemoryRule src) (generated : List Char) (now : String)
  | delete (toolName ruleId : List Char)

def step (s : σ) : Event src → σ
  | .put rule generated now => (putRule memory codec s rule generated now).1
  | .delete toolName ruleId => (deleteRule memory s toolName ruleId).1

/-- The store behind a history that starts with an empty one. -/
def run (events : List (Event src)) : σ := events.foldl (step memory codec) memory.empty

/-- A row is a rule under its own name, which is spelled as `put_rule` writes it. -/
def Filed (namespace' key content : List Char) : Prop :=
  ∃ rule, content = codec.toString rule ∧ namespace' = toolMemoryNamespace rule.toolName ∧ key = storageKey rule.id ∧
    rule.toolName ≠ [] ∧ normal rule.toolName = rule.toolName

/-- All rows are filed. -/
def Sound (s : σ) : Prop := ∀ namespace' key content, memory.get s namespace' key = some content →
  Filed codec namespace' key content

variable {memory codec} {s : σ}

theorem sound_step (h : Sound memory codec s) (event : Event src) : Sound memory codec (step memory codec s event) := by
  cases event with
  | put rule generated now =>
      change Sound memory codec (putRule memory codec s rule generated now).1
      unfold putRule
      by_cases hname : trim rule.toolName = []
      · rw [if_pos hname]
        exact h
      by_cases hbody : trim rule.rule = []
      · rw [if_neg hname, if_pos hbody]
        exact h
      rw [if_neg hname, if_neg hbody]
      exact memory.get_store_of h
        ⟨_, Eq.refl _, Eq.refl _, Eq.refl _, normal_ne_nil hname, normal_normal rule.toolName⟩
  | delete toolName ruleId => exact memory.get_forget_of h _ _

theorem sound_run (events : List (Event src)) : Sound memory codec (run memory codec events) := by
  have hempty : Sound memory codec memory.empty := by
    intro namespace' key content hget
    rw [memory.get_empty] at hget
    cases hget
  induction events using List.reverseRecOn with
  | nil => exact hempty
  | append_singleton events event ih =>
      rw [run, List.foldl_append]
      exact sound_step ih event

/-! ### Listing -/

/-- A row decodes to the rule. -/
def Stored (memory : KeyedStore σ (List Char) (List Char) (List Char)) (codec : RuleCodec src) (s : σ)
    (rule : ToolMemoryRule src) : Prop := ∃ namespace' key, fetchRule memory codec s namespace' key = some rule

theorem Sound.filed (h : Sound memory codec s) {rule : ToolMemoryRule src} (hstored : Stored memory codec s rule) :
    memory.get s (toolMemoryNamespace rule.toolName) (storageKey rule.id) = some (codec.toString rule) ∧
      rule.toolName ≠ [] ∧ normal rule.toolName = rule.toolName := by
  obtain ⟨namespace', key, hfetch⟩ := hstored
  obtain ⟨content, hget, hdecode⟩ := Option.bind_eq_some_iff.mp hfetch
  obtain ⟨filed, rfl, rfl, rfl, hne, hnormal⟩ := h namespace' key content hget
  rw [codec.roundTrip, Option.some.injEq] at hdecode
  subst hdecode
  exact ⟨hget, hne, hnormal⟩

theorem namespace_inj {left right : List Char} (h : toolMemoryNamespace left = toolMemoryNamespace right) :
    left = right := List.append_cancel_left h

theorem storageKey_inj {left right : List Char} (h : storageKey left = storageKey right) : left = right :=
  List.append_cancel_left h

/-- The rules that are listed for a tool are the stored ones of its name. -/
theorem Sound.mem_listRules (h : Sound memory codec s) {toolName : List Char} {rule : ToolMemoryRule src} :
    rule ∈ listRules memory codec s toolName ↔ Stored memory codec s rule ∧ rule.toolName = toolName := by
  rw [listRules, List.mem_mergeSort, List.mem_filterMap]
  constructor
  · rintro ⟨⟨key, content⟩, hentry, hdecode⟩
    have hget := (memory.mem_list s _ _ _).mp (List.mem_of_mem_filter hentry)
    have hstored : Stored memory codec s rule := ⟨_, _, Option.bind_eq_some_iff.mpr ⟨content, hget, hdecode⟩⟩
    obtain ⟨filed, rfl, hnames, -, -⟩ := h _ _ _ hget
    rw [codec.roundTrip, Option.some.injEq] at hdecode
    subst hdecode
    exact ⟨hstored, (namespace_inj hnames).symm⟩
  · rintro ⟨hstored, rfl⟩
    have hget := (h.filed hstored).1
    refine ⟨(storageKey rule.id, codec.toString rule), List.mem_filter.mpr ⟨(memory.mem_list _ _ _ _).mpr hget, ?_⟩,
      codec.roundTrip rule⟩
    exact decide_eq_true (List.prefix_append _ _)

theorem Sound.nodup_listRules (h : Sound memory codec s) (toolName : List Char) :
    (listRules memory codec s toolName).Nodup := by
  refine (List.mergeSort_perm _ _).nodup_iff.mpr ?_
  have hkeys : (memory.list s (toolMemoryNamespace toolName)).Pairwise fun a b => a.1 ≠ b.1 :=
    List.pairwise_map.mp (memory.nodup_list s _)
  -- A rule tells the key of its row.
  have hkey : ∀ entry ∈ memory.list s (toolMemoryNamespace toolName), ∀ rule, codec.fromStr entry.2 = some rule →
      entry.1 = storageKey rule.id := by
    intro entry hentry rule hdecode
    obtain ⟨filed, hcontent, -, hfiled, -⟩ := h _ _ _ ((memory.mem_list _ _ _ _).mp hentry)
    rw [hcontent, codec.roundTrip, Option.some.injEq] at hdecode
    rw [hfiled, hdecode]
  refine List.pairwise_filterMap.mpr ((hkeys.filter _).imp_of_mem fun {a b} ha hb hne rule hrule rule' hrule' heq => ?_)
  apply hne
  rw [hkey a (List.mem_of_mem_filter ha) rule hrule, hkey b (List.mem_of_mem_filter hb) rule' hrule', heq]

end Store

end TinyCortex.ToolMemory

/-! The rules that go into the system prompt (`tool_memory/store.rs`, `rules_for_prompt`): those of the requested tools
with an eager priority, the critical ones without limit. -/

namespace TinyCortex.ToolMemory

open FrontMatter

def toolMemoryPromptCap : Nat := 30

def unscoped : List Char := "__unscoped__".toList

section Prompt

variable {σ src : Type} (memory : KeyedStore σ (List Char) (List Char) (List Char)) (codec : RuleCodec src)

def listToolNames (s : σ) : List (List Char) :=
  ((((memory.namespaces s).filterMap fun found => found.dropPrefix? "tool-".toList).filter fun tool =>
    tool ≠ [] && tool ≠ unscoped).mergeSort fun a b => decide (String.ofList a ≤ String.ofList b)).destutter (· ≠ ·)

def promptNames (s : σ) (tools : List (List Char)) : List (List Char) :=
  if tools = [] then listToolNames memory s else (tools.map trim).filter (· ≠ [])

def eagerRules (s : σ) (names : List (List Char)) : List (ToolMemoryRule src) :=
  names.flatMap fun tool => (listRules memory codec s tool).filter fun rule => rule.priority.isEager

def isCritical (rule : ToolMemoryRule src) : Bool := decide (rule.priority = .critical)

/-- Sorted and cut at the cap, but behind the critical ones. -/
def kept (collected : List (ToolMemoryRule src)) : List (ToolMemoryRule src) :=
  let sorted := collected.mergeSort before
  let criticalCount := (sorted.takeWhile isCritical).length
  sorted.take (max toolMemoryPromptCap criticalCount)

/-- The rules by the name of their tool. -/
def rulesForPrompt (s : σ) (tools : List (List Char)) : List (List Char × List (ToolMemoryRule src)) :=
  Grouping.groups ToolMemoryRule.toolName (kept (eagerRules memory codec s (promptNames memory s tools)))

/-! ### What the prompt should hold -/

/-- The tool is named in some spelling; an empty list names them all, but the one for rules without a tool. -/
def Requested (tools : List (List Char)) (toolName : List Char) : Prop :=
  if tools = [] then toolName ≠ unscoped else ∃ name ∈ tools, normal name = toolName

/-- Each critical rule of a requested tool once, then the freshest high ones below the cap, and nothing else. -/
structure Exact (s : σ) (tools : List (List Char)) (found : List (List Char × List (ToolMemoryRule src))) :
    Prop where
  once : (found.flatMap Prod.snd).Nodup
  critical : ∀ rule, rule.priority = .critical →
    (rule ∈ found.flatMap Prod.snd ↔ Stored memory codec s rule ∧ Requested tools rule.toolName)
  high : ∀ rule ∈ found.flatMap Prod.snd, rule.priority ≠ .critical →
    rule.priority = .high ∧ Stored memory codec s rule ∧ Requested tools rule.toolName
  cap : ∀ rule ∈ found.flatMap Prod.snd, rule.priority = .high →
    (found.flatMap Prod.snd).length ≤ toolMemoryPromptCap
  freshest : ∀ rule, rule.priority = .high → Stored memory codec s rule → Requested tools rule.toolName →
    rule ∉ found.flatMap Prod.snd → toolMemoryPromptCap ≤ (found.flatMap Prod.snd).length ∧
      ∀ other ∈ found.flatMap Prod.snd, other.priority = .high → rule.updatedAt ≤ other.updatedAt
  grouped : (found.map Prod.fst).Nodup ∧ ∀ group ∈ found, (∀ rule ∈ group.2, rule.toolName = group.1) ∧
    group.2.Pairwise fun a b => before a b = true

end Prompt

/-! ### Sorting and cutting -/

section Kept

variable {src : Type}

theorem before_trans (a b c : ToolMemoryRule src) (hab : before a b = true) (hbc : before b c = true) :
    before a c = true := by
  rw [before, decide_eq_true_eq] at hab hbc ⊢
  rcases hab with hab | ⟨hab, hat⟩
  · left
    rcases hbc with hbc | ⟨hbc, -⟩
    · exact hbc.trans hab
    · rwa [← hbc]
  · rcases hbc with hbc | ⟨hbc, hbt⟩
    · left
      rwa [hab]
    · exact Or.inr ⟨hab.trans hbc, hbt.trans hat⟩

theorem before_total (a b : ToolMemoryRule src) : (before a b || before b a) = true := by
  rw [Bool.or_eq_true, before, before, decide_eq_true_eq, decide_eq_true_eq]
  rcases lt_trichotomy a.priority.rank b.priority.rank with hlt | heq | hgt
  · exact Or.inr (Or.inl hlt)
  · rcases le_total a.updatedAt b.updatedAt with hle | hle
    · exact Or.inr (Or.inr ⟨heq.symm, hle⟩)
    · exact Or.inl (Or.inr ⟨heq, hle⟩)
  · exact Or.inl (Or.inl hgt)

theorem pairwise_sorted (collected : List (ToolMemoryRule src)) :
    (collected.mergeSort before).Pairwise fun a b => before a b = true :=
  List.pairwise_mergeSort before_trans before_total collected

/-- What goes before a critical rule is critical. -/
theorem isCritical_of_before {a b : ToolMemoryRule src} (h : before a b = true) (hb : isCritical b = true) :
    isCritical a = true := by
  rw [isCritical, decide_eq_true_eq] at hb ⊢
  rw [before, decide_eq_true_eq, hb] at h
  cases ha : a.priority with
  | critical => rfl
  | high =>
      rw [ha] at h
      exact absurd h (by simp [ToolMemoryPriority.rank])
  | normal =>
      rw [ha] at h
      exact absurd h (by simp [ToolMemoryPriority.rank])

/-- The critical rules come first. -/
theorem takeWhile_sorted {sorted : List (ToolMemoryRule src)}
    (h : sorted.Pairwise fun a b => before a b = true) : sorted.takeWhile isCritical = sorted.filter isCritical := by
  induction sorted with
  | nil => rfl
  | cons rule rest ih =>
      rw [List.pairwise_cons] at h
      by_cases hcritical : isCritical rule = true
      · rw [List.takeWhile_cons_of_pos hcritical, List.filter_cons_of_pos hcritical, ih h.2]
      · have hnone : rest.filter isCritical = [] :=
          List.filter_eq_nil_iff.mpr fun other hother hc => hcritical (isCritical_of_before (h.1 other hother) hc)
        rw [List.takeWhile_cons_of_neg hcritical, List.filter_cons_of_neg hcritical, hnone]

variable {collected : List (ToolMemoryRule src)} {rule : ToolMemoryRule src}

theorem kept_prefixed (collected : List (ToolMemoryRule src)) : kept collected <+: collected.mergeSort before :=
  List.take_prefix _ _

theorem kept_subperm (collected : List (ToolMemoryRule src)) : (kept collected).Subperm collected :=
  (kept_prefixed collected).sublist.subperm.trans (List.mergeSort_perm _ _).subperm

theorem criticals_prefixed (collected : List (ToolMemoryRule src)) :
    (collected.mergeSort before).takeWhile isCritical <+: kept collected :=
  List.prefix_of_prefix_length_le (List.takeWhile_prefix _) (kept_prefixed collected) (by
    rw [kept, List.length_take]
    exact le_min (le_max_right _ _) (List.takeWhile_prefix _).length_le)

/-- No critical rule is cut off. -/
theorem count_kept [DecidableEq src] (h : isCritical rule = true) : (kept collected).count rule = collected.count rule := by
  apply le_antisymm
  · exact (kept_subperm collected).count_le rule
  · rw [← (List.mergeSort_perm collected before).count_eq, ← List.count_filter h,
      ← takeWhile_sorted (pairwise_sorted collected)]
    exact (criticals_prefixed collected).sublist.count_le rule

/-- With a rule that is not critical, the cap holds. -/
theorem length_kept_le (h : rule ∈ kept collected) (hnot : isCritical rule = false) :
    (kept collected).length ≤ toolMemoryPromptCap := by
  by_contra hlong
  have hlength : (kept collected).length ≤ ((collected.mergeSort before).takeWhile isCritical).length := by
    rw [kept, List.length_take] at hlong ⊢
    omega
  have heq := (criticals_prefixed collected).eq_of_length_le hlength
  rw [← heq] at h
  rw [List.mem_takeWhile_imp h] at hnot
  cases hnot

/-- What is cut off was behind all that is kept, and the cap was reached. -/
theorem kept_of_not_mem (h : rule ∈ collected) (hnot : rule ∉ kept collected) :
    toolMemoryPromptCap ≤ (kept collected).length ∧ ∀ other ∈ kept collected, before other rule = true := by
  have hmem : rule ∈ collected.mergeSort before := List.mem_mergeSort.mpr h
  rw [← List.take_append_drop (max toolMemoryPromptCap
    ((collected.mergeSort before).takeWhile isCritical).length) (collected.mergeSort before)] at hmem
  have hdrop := (List.mem_append.mp hmem).resolve_left hnot
  constructor
  · have hlength := List.length_pos_of_mem hdrop
    rw [List.length_drop] at hlength
    rw [kept, List.length_take]
    omega
  · have hsorted := pairwise_sorted collected
    rw [← List.take_append_drop (max toolMemoryPromptCap
      ((collected.mergeSort before).takeWhile isCritical).length) (collected.mergeSort before)] at hsorted
    exact fun other hother => (List.pairwise_append.mp hsorted).2.2 other hother rule hdrop

end Kept

/-! ### What is collected -/

section Collected

variable {σ src : Type} {memory : KeyedStore σ (List Char) (List Char) (List Char)} {codec : RuleCodec src} {s : σ}
  {rule : ToolMemoryRule src}

theorem mem_eagerRules (h : Sound memory codec s) {names : List (List Char)} :
    rule ∈ eagerRules memory codec s names ↔
      Stored memory codec s rule ∧ rule.priority.isEager = true ∧ rule.toolName ∈ names := by
  rw [eagerRules, List.mem_flatMap]
  constructor
  · rintro ⟨tool, htool, hrule⟩
    obtain ⟨hlisted, heager⟩ := List.mem_filter.mp hrule
    obtain ⟨hstored, rfl⟩ := h.mem_listRules.mp hlisted
    exact ⟨hstored, heager, htool⟩
  · rintro ⟨hstored, heager, htool⟩
    exact ⟨_, htool, List.mem_filter.mpr ⟨h.mem_listRules.mpr ⟨hstored, Eq.refl _⟩, heager⟩⟩

/-- A rule is collected once for every time its tool is listed under its own name. -/
theorem count_eagerRules [DecidableEq src] (h : Sound memory codec s) (hstored : Stored memory codec s rule)
    (heager : rule.priority.isEager = true) (names : List (List Char)) :
    (eagerRules memory codec s names).count rule = names.count rule.toolName := by
  induction names with
  | nil => rfl
  | cons tool names ih =>
      have hfirst : ((listRules memory codec s tool).filter fun rule => rule.priority.isEager).count rule =
          if tool = rule.toolName then 1 else 0 := by
        rw [((h.nodup_listRules tool).filter _).count]
        refine if_congr ?_ (Eq.refl _) (Eq.refl _)
        rw [List.mem_filter, h.mem_listRules, and_iff_right hstored, and_iff_left heager, eq_comm]
      have hcons : eagerRules memory codec s (tool :: names) =
          ((listRules memory codec s tool).filter fun rule => rule.priority.isEager) ++
            eagerRules memory codec s names := List.flatMap_cons
      rw [hcons, List.count_append, hfirst, ih, List.count_cons, Nat.add_comm]
      simp only [beq_iff_eq]

theorem dropPrefix?_namespace {found tool : List Char} :
    found.dropPrefix? "tool-".toList = some tool ↔ found = toolMemoryNamespace tool := by
  constructor
  · intro hdrop
    obtain ⟨start, rfl, hbeq⟩ := List.dropPrefix?_eq_some_iff.mp hdrop
    rw [eq_of_beq hbeq]
    rfl
  · rintro rfl
    exact dropPrefix?_append _ _

/-- The listed names before and behind the sort are the same, since no namespace is reported twice. -/
theorem listToolNames_perm (memory : KeyedStore σ (List Char) (List Char) (List Char)) (s : σ) :
    (listToolNames memory s).Perm (((memory.namespaces s).filterMap fun found =>
      found.dropPrefix? "tool-".toList).filter fun tool => tool ≠ [] && tool ≠ unscoped) ∧
      (listToolNames memory s).Nodup := by
  have hnd : ((memory.namespaces s).filterMap fun found => found.dropPrefix? "tool-".toList).Nodup :=
    (memory.nodup_namespaces s).filterMap fun found found' tool hfound hfound' =>
      (dropPrefix?_namespace.mp hfound).trans (dropPrefix?_namespace.mp hfound').symm
  have hsorted := List.mergeSort_perm (((memory.namespaces s).filterMap fun found =>
    found.dropPrefix? "tool-".toList).filter fun tool => tool ≠ [] && tool ≠ unscoped)
    fun a b => decide (String.ofList a ≤ String.ofList b)
  have hsnd := hsorted.nodup_iff.mpr (hnd.filter _)
  rw [listToolNames, List.destutter_of_isChain _ _ hsnd.isChain]
  exact ⟨hsorted, hsnd⟩

theorem mem_listToolNames (h : Sound memory codec s) {tool : List Char} :
    tool ∈ listToolNames memory s ↔ (∃ rule, Stored memory codec s rule ∧ rule.toolName = tool) ∧ tool ≠ unscoped := by
  rw [(listToolNames_perm memory s).1.mem_iff, List.mem_filter, List.mem_filterMap, Bool.and_eq_true,
    decide_eq_true_eq, decide_eq_true_eq]
  constructor
  · rintro ⟨⟨found, hfound, hdrop⟩, -, hscope⟩
    obtain rfl := dropPrefix?_namespace.mp hdrop
    obtain ⟨key, content, hget⟩ := (memory.mem_namespaces s _).mp hfound
    obtain ⟨rule, rfl, hname, -, -, -⟩ := h _ _ _ hget
    exact ⟨⟨rule, ⟨_, _, Option.bind_eq_some_iff.mpr ⟨_, hget, codec.roundTrip rule⟩⟩, (namespace_inj hname).symm⟩, hscope⟩
  · rintro ⟨⟨rule, hstored, rfl⟩, hscope⟩
    obtain ⟨hget, hne, -⟩ := h.filed hstored
    exact ⟨⟨_, (memory.mem_namespaces s _).mpr ⟨_, _, hget⟩, dropPrefix?_namespace.mpr (Eq.refl _)⟩, hne, hscope⟩

/-- Every requested tool is named once in the spelling of its namespace. -/
def NamedOnce (tools : List (List Char)) : Prop :=
  ∀ name ∈ tools, normal name ≠ [] → (tools.map trim).count (normal name) = 1

theorem count_promptNames {tools : List (List Char)} (htools : tools ≠ []) {toolName : List Char} (hne : toolName ≠ []) :
    (promptNames memory s tools).count toolName = (tools.map trim).count toolName := by
  rw [promptNames, if_neg htools]
  exact List.count_filter (decide_eq_true hne)

/-- What is looked up was requested. -/
theorem requested_of_mem (h : Sound memory codec s) (hstored : Stored memory codec s rule) {tools : List (List Char)}
    (hmem : rule.toolName ∈ promptNames memory s tools) : Requested tools rule.toolName := by
  unfold Requested
  by_cases htools : tools = []
  · rw [promptNames, if_pos htools] at hmem
    rw [if_pos htools]
    exact ((mem_listToolNames h).mp hmem).2
  · rw [promptNames, if_neg htools] at hmem
    rw [if_neg htools]
    obtain ⟨name, hname, htrim⟩ := List.mem_map.mp (List.mem_of_mem_filter hmem)
    have hnormal := (h.filed hstored).2.2
    have hends := trim_of_normal hnormal
    rw [normal, hends] at hnormal
    refine ⟨name, hname, ?_⟩
    rw [normal, htrim, hnormal]

theorem count_of_namedOnce (h : Sound memory codec s) (hstored : Stored memory codec s rule) {tools : List (List Char)}
    (honce : NamedOnce tools) (hrequested : Requested tools rule.toolName) :
    (promptNames memory s tools).count rule.toolName = 1 := by
  have hne := (h.filed hstored).2.1
  unfold Requested at hrequested
  by_cases htools : tools = []
  · rw [if_pos htools] at hrequested
    rw [promptNames, if_pos htools]
    exact List.count_eq_one_of_mem (listToolNames_perm memory s).2
      ((mem_listToolNames h).mpr ⟨⟨rule, hstored, Eq.refl _⟩, hrequested⟩)
  · rw [if_neg htools] at hrequested
    obtain ⟨name, hname, hnormal⟩ := hrequested
    rw [count_promptNames htools hne, ← hnormal]
    exact honce name hname (hnormal ▸ hne)

/-- When every tool of an eager rule is looked up once, the prompt is exact. -/
theorem exact_of_count [DecidableEq src] (h : Sound memory codec s) {tools : List (List Char)}
    (hcount : ∀ rule, Stored memory codec s rule → rule.priority.isEager = true → Requested tools rule.toolName →
      (promptNames memory s tools).count rule.toolName = 1) :
    Exact memory codec s tools (rulesForPrompt memory codec s tools) := by
  have hmem : ∀ rule, rule ∈ eagerRules memory codec s (promptNames memory s tools) ↔
      Stored memory codec s rule ∧ rule.priority.isEager = true ∧ Requested tools rule.toolName := by
    intro rule
    rw [mem_eagerRules h]
    refine and_congr_right fun hstored => and_congr_right fun heager => ⟨requested_of_mem h hstored, fun hreq => ?_⟩
    rw [← List.count_pos_iff, hcount rule hstored heager hreq]
    exact Nat.one_pos
  have hnd : (eagerRules memory codec s (promptNames memory s tools)).Nodup := by
    refine List.nodup_iff_count_le_one.mpr fun rule => ?_
    by_cases hrule : rule ∈ eagerRules memory codec s (promptNames memory s tools)
    · obtain ⟨hstored, heager, hreq⟩ := (hmem rule).mp hrule
      rw [count_eagerRules h hstored heager, hcount rule hstored heager hreq]
    · rw [List.count_eq_zero_of_not_mem hrule]
      exact Nat.zero_le 1
  generalize hcollected : eagerRules memory codec s (promptNames memory s tools) = collected at hmem hnd
  have hperm : ((rulesForPrompt memory codec s tools).flatMap Prod.snd).Perm (kept collected) := by
    rw [rulesForPrompt, hcollected]
    exact Grouping.flatMap_groups _ _
  have hsub : kept collected ⊆ collected := (kept_subperm collected).subset
  refine ⟨?_, ?_, ?_, ?_, ?_, ?_⟩
  · exact hperm.nodup_iff.mpr ((kept_prefixed collected).sublist.nodup ((List.mergeSort_perm _ _).nodup_iff.mpr hnd))
  · intro rule hcritical
    rw [hperm.mem_iff, ← List.count_pos_iff, count_kept (decide_eq_true hcritical), List.count_pos_iff, hmem rule,
      hcritical]
    exact and_congr_right fun _ => and_iff_right (Eq.refl _)
  · intro rule hrule hnot
    obtain ⟨hstored, heager, hreq⟩ := (hmem rule).mp (hsub (hperm.mem_iff.mp hrule))
    refine ⟨?_, hstored, hreq⟩
    cases hpriority : rule.priority with
    | critical => exact absurd hpriority hnot
    | high => rfl
    | normal =>
        rw [hpriority] at heager
        cases heager
  · intro rule hrule hhigh
    rw [hperm.length_eq]
    exact length_kept_le (hperm.mem_iff.mp hrule) (by rw [isCritical, hhigh]; rfl)
  · intro rule hhigh hstored hreq hnot
    rw [hperm.mem_iff] at hnot
    obtain ⟨hcap, hbefore⟩ := kept_of_not_mem ((hmem rule).mpr ⟨hstored, by rw [hhigh]; rfl, hreq⟩) hnot
    refine ⟨by rwa [hperm.length_eq], fun other hother hotherhigh => ?_⟩
    have hle := of_decide_eq_true (hbefore other (hperm.mem_iff.mp hother))
    rw [hhigh, hotherhigh] at hle
    exact (hle.resolve_left (lt_irrefl _)).2
  · refine ⟨Grouping.nodup_keys _ _, fun group hgroup => ?_⟩
    rw [rulesForPrompt, hcollected] at hgroup
    have hrules := @Grouping.mem_groups _ _ _ _ _ group.1 group.2 hgroup
    rw [hrules]
    exact ⟨fun rule hrule => of_decide_eq_true (List.mem_filter.mp hrule).2,
      ((pairwise_sorted collected).sublist (kept_prefixed collected).sublist).filter _⟩

/-- A critical rule in an exact prompt has its tool looked up once. -/
theorem count_of_exact [DecidableEq src] (h : Sound memory codec s) {tools : List (List Char)}
    (hexact : Exact memory codec s tools (rulesForPrompt memory codec s tools)) (hstored : Stored memory codec s rule)
    (hcritical : rule.priority = .critical) (hreq : Requested tools rule.toolName) :
    (promptNames memory s tools).count rule.toolName = 1 := by
  have hcount : ((rulesForPrompt memory codec s tools).flatMap Prod.snd).count rule =
      (promptNames memory s tools).count rule.toolName := by
    rw [rulesForPrompt, (Grouping.flatMap_groups _ _).count_eq, count_kept (decide_eq_true hcritical),
      count_eagerRules h hstored (by rw [hcritical]; rfl)]
  rw [← hcount]
  exact List.count_eq_one_of_mem hexact.once ((hexact.critical rule hcritical).mpr ⟨hstored, hreq⟩)

/-! ### All histories -/

/-- One critical rule for a tool. -/
def warning (src' : src) (name : List Char) : ToolMemoryRule src :=
  { id := "warning".toList, toolName := name, rule := "never".toList, priority := .critical, source := src', tags := [],
    createdAt := "", updatedAt := "" }

theorem stored_warning (src' : src) {name : List Char} (hname : trim name ≠ []) :
    Stored memory codec (run memory codec [Event.put (warning src' name) [] ""])
      (warning src' (normal name)) := by
  have hbody : trim (warning src' name).rule ≠ [] := by
    change trim "never".toList ≠ []
    decide
  have hid : trim (warning src' name).id ≠ [] := by
    change trim "warning".toList ≠ []
    decide
  have hfetch : ∀ namespace' key, fetchRule memory codec memory.empty namespace' key = none := by
    intro namespace' key
    rw [fetchRule, memory.get_empty, Option.bind_none]
  refine ⟨toolMemoryNamespace (normal name), storageKey "warning".toList, ?_⟩
  change fetchRule memory codec (putRule memory codec memory.empty (warning src' name) [] "").1 _ _ = _
  rw [putRule, if_neg (show trim (warning src' name).toolName ≠ [] from hname), if_neg hbody, if_neg hid]
  dsimp only
  rw [hfetch, Option.map_none, Option.getD_none, fetchRule, memory.get_store, if_pos ⟨Eq.refl _, Eq.refl _⟩,
    Option.bind_some, codec.roundTrip]
  rfl

/-- The prompt is exact after every history, when each requested tool is named once as its rules are filed. -/
theorem exact_run_iff [DecidableEq src] [Inhabited src] (tools : List (List Char)) :
    (∀ events, Exact memory codec (run memory codec events) tools
      (rulesForPrompt memory codec (run memory codec events) tools)) ↔ NamedOnce tools := by
  constructor
  · intro hall name hname hne
    have htools : tools ≠ [] := List.ne_nil_of_mem hname
    have htrim : trim name ≠ [] := fun hnil => hne (by rw [normal, hnil, List.map_nil])
    have hstored : Stored memory codec (run memory codec [Event.put (warning default name) [] ""])
        (warning default (normal name)) := stored_warning default htrim
    have hcount : (promptNames memory (run memory codec [Event.put (warning default name) [] ""]) tools).count (normal name) =
        (tools.map trim).count (normal name) := count_promptNames htools hne
    rw [← hcount]
    exact count_of_exact (sound_run _) (hall _) hstored (Eq.refl _) (by
      rw [Requested, if_neg htools]
      exact ⟨name, hname, Eq.refl _⟩)
  · exact fun honce events => exact_of_count (sound_run events) fun rule hstored _ hreq =>
      count_of_namedOnce (sound_run events) hstored honce hreq

end Collected

/-! ### A serializer -/

section Quoted

/-- Every character is quoted, and the text is closed. -/
def quote (text : List Char) : List Char := text.flatMap (fun c => ['x', c]) ++ ['.']

def unquote : List Char → Option (List Char × List Char)
  | 'x' :: c :: rest => (unquote rest).map fun parts => (c :: parts.1, parts.2)
  | '.' :: rest => some ([], rest)
  | _ => none

theorem unquote_quote (text rest : List Char) : unquote (quote text ++ rest) = some (text, rest) := by
  induction text with
  | nil => rfl
  | cons c text ih =>
      change (unquote (quote text ++ rest)).map (fun parts => (c :: parts.1, parts.2)) = _
      rw [ih]
      rfl

def quoteAll (texts : List (List Char)) : List Char := texts.flatMap quote

def unquoteAll : Nat → List Char → List (List Char)
  | 0, _ => []
  | fuel + 1, text =>
      match unquote text with
      | some (first, rest) => first :: unquoteAll fuel rest
      | none => []

theorem length_le_quoteAll (texts : List (List Char)) : texts.length ≤ (quoteAll texts).length := by
  induction texts with
  | nil => exact le_rfl
  | cons text texts ih =>
      have hcons : quoteAll (text :: texts) = quote text ++ quoteAll texts := List.flatMap_cons
      rw [hcons, List.length_append, quote, List.length_append, List.length_cons, List.length_singleton]
      omega

theorem unquoteAll_quoteAll {fuel : Nat} (texts : List (List Char)) (h : texts.length ≤ fuel) :
    unquoteAll fuel (quoteAll texts) = texts := by
  induction texts generalizing fuel with
  | nil => cases fuel <;> rfl
  | cons text texts ih =>
      cases fuel with
      | zero => exact absurd h (by simp)
      | succ fuel =>
          have hcons : quoteAll (text :: texts) = quote text ++ quoteAll texts := List.flatMap_cons
          rw [hcons, unquoteAll, unquote_quote]
          exact congrArg (text :: ·) (ih (Nat.le_of_succ_le_succ h))

def priorityMark : ToolMemoryPriority → Char
  | .normal => 'n'
  | .high => 'h'
  | .critical => 'c'

def priorityOf : Char → ToolMemoryPriority
  | 'c' => .critical
  | 'h' => .high
  | _ => .normal

/-- A serializer that quotes the fields one behind the other. -/
def quotedCodec : RuleCodec Unit where
  toString rule := quoteAll (rule.id :: rule.toolName :: rule.rule :: [priorityMark rule.priority] ::
    rule.createdAt.toList :: rule.updatedAt.toList :: rule.tags)
  fromStr text :=
    match unquoteAll text.length text with
    | id :: toolName :: rule :: [priority] :: createdAt :: updatedAt :: tags =>
        some { id := id, toolName := toolName, rule := rule, priority := priorityOf priority, source := (), tags := tags,
               createdAt := String.ofList createdAt, updatedAt := String.ofList updatedAt }
    | _ => none
  roundTrip rule := by
    rw [unquoteAll_quoteAll _ (length_le_quoteAll _)]
    dsimp only
    rw [String.ofList_toList, String.ofList_toList]
    obtain ⟨id, toolName, body, priority, source, tags, createdAt, updatedAt⟩ := rule
    cases priority <;> rfl

/-- A rule that is filed for `email` is not found when `Email` is asked for, although `put_rule` takes both for one
tool. -/
theorem not_exact_spelling :
    ¬Exact KeyedStore.ofRows quotedCodec
      (run KeyedStore.ofRows quotedCodec [Event.put (warning () "Email".toList) [] ""]) ["Email".toList]
      (rulesForPrompt KeyedStore.ofRows quotedCodec
        (run KeyedStore.ofRows quotedCodec [Event.put (warning () "Email".toList) [] ""]) ["Email".toList]) := by
  intro hexact
  have hcount := count_of_exact (sound_run _) hexact (stored_warning () (by decide)) (Eq.refl _)
    ⟨"Email".toList, List.mem_singleton_self _, Eq.refl _⟩
  rw [count_promptNames (List.cons_ne_nil _ _) (by decide)] at hcount
  exact absurd hcount (by decide)

end Quoted

end TinyCortex.ToolMemory
