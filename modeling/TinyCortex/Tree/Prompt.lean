import TinyCortex.Lib.Fallible
import TinyCortex.Lib.Text

/-! The prompt of a summary fold and the budgets that it is cut to (`tree/summarise.rs`, `config.rs`). Every input gets an
equal share of the budget for its content; its header and the separator behind it are outside of the share. -/

namespace TinyCortex.SummaryTree.Prompt

open Fallible (ensure ensure_eq_ok)

/-- The token budgets of a configuration. -/
structure TokenBudgets where
  inputTokenBudget : Nat
  outputTokenBudget : Nat
  summaryOverheadReserveTokens : Nat
  deriving DecidableEq

/-- The checks of the token budgets. -/
def TokenBudgets.validate (tree : TokenBudgets) : Except String Unit := do
  ensure (0 < tree.inputTokenBudget) "tree.input_token_budget must be greater than zero"
  ensure (0 < tree.outputTokenBudget) "tree.output_token_budget must be greater than zero"
  ensure (tree.summaryOverheadReserveTokens < tree.inputTokenBudget)
    "tree.summary_overhead_reserve_tokens must be smaller than tree.input_token_budget"
  ensure (tree.outputTokenBudget + tree.summaryOverheadReserveTokens < 4294967296 ∧
      tree.outputTokenBudget + tree.summaryOverheadReserveTokens < tree.inputTokenBudget)
    "tree output and summary overhead budgets must leave positive input headroom"

/-- What a fold reads of one of its inputs. The scores are of any type with a comparison. -/
structure TextInput (σ : Type) where
  id : String
  content : String
  score : σ

/-- The budgets of a fold and what it asks for. -/
structure SummaryContext where
  tokenBudget : Nat
  inputTokenBudget : Nat
  overheadReserveTokens : Nat
  ask : Option String

/-- The context of a seal has the budgets of the configuration. -/
def TokenBudgets.context (tree : TokenBudgets) (ask : Option String) : SummaryContext :=
  ⟨tree.outputTokenBudget, tree.inputTokenBudget, tree.summaryOverheadReserveTokens, ask⟩

structure PreparedSummaryPrompt where
  system : String
  user : String
  effectiveBudget : Nat
  deriving DecidableEq

/-- `attempt to divide by zero` -/
inductive Panic
  | divideByZero
  deriving DecidableEq

/-- Truncate a text to at most `budget` approximate tokens; its estimate. -/
def clampToBudget (approxTokenCount : String → Nat) (text : String) (budget : Nat) : String × Nat :=
  if approxTokenCount text ≤ budget then (text, approxTokenCount text)
  else
    let truncated := String.ofList (text.toList.take (budget * 4))
    (truncated, approxTokenCount truncated)

/-- The share of one input. The inputs are counted with 32 bits. -/
def perInputCap (ctx : SummaryContext) (inputs : Nat) : Except Panic Nat :=
  if inputs = 0 then .ok 0
  else if inputs % 4294967296 = 0 then .error .divideByZero
  else .ok ((ctx.inputTokenBudget - ctx.tokenBudget - ctx.overheadReserveTokens) / (inputs % 4294967296))

/-- An input in the prompt: nothing when its content is blank. -/
def inputText {σ : Type} (approxTokenCount : String → Nat) (cap : Nat) (input : TextInput σ) : Option String :=
  let content := Text.trim input.content
  if content = "" then none
  else some ("[" ++ input.id ++ "]\n" ++ (clampToBudget approxTokenCount content cap).1)

/-- What the model is told; the fold of a flavour is told what to answer. -/
def systemPrompt (ctx : SummaryContext) (outputLanguage : Option String) : String :=
  let language := match outputLanguage.filter (Text.trim · ≠ "") with
    | some language => "\nWrite the summary in " ++ language ++ "."
    | none => ""
  match (ctx.ask.map Text.trim).filter (· ≠ "") with
  | some ask =>
      "You are distilling evidence into a profile that answers this ask:\n" ++ ask ++ "\n\n" ++
        "The inputs below are evidence (and, where present, the current profile). " ++
        "Merge them into one updated profile.\n" ++
        "Keep it prescriptive and concrete — describe the patterns, not the individual items.\n" ++
        "Aim for ~" ++ toString ctx.tokenBudget ++ " tokens or fewer.\n" ++
        "Output only the profile prose — no preamble, no JSON, no markdown headings." ++ language
  | none =>
      "You are folding multiple notes into one compact summary.\n" ++
        "Aim for ~" ++ toString ctx.tokenBudget ++
        " tokens or fewer. Capture key facts, decisions, and entities.\n" ++
        "Output only the summary prose — no preamble, no JSON, no markdown headings." ++ language

/-- The inputs by falling score, those that are kept, with a blank line between them. -/
def userPrompt {σ : Type} (approxTokenCount : String → Nat) (notAbove : σ → σ → Bool) (cap : Nat)
    (inputs : List (TextInput σ)) : String :=
  let ordered := inputs.mergeSort fun a b => notAbove b.score a.score
  "\n\n".intercalate (ordered.filterMap (inputText approxTokenCount cap))

/-- Build the prompt of a fold; nothing when every input is blank. -/
def prepareSummaryPrompt {σ : Type} (approxTokenCount : String → Nat) (notAbove : σ → σ → Bool)
    (inputs : List (TextInput σ)) (ctx : SummaryContext) (outputLanguage : Option String) :
    Except Panic (Option PreparedSummaryPrompt) := do
  let cap ← perInputCap ctx inputs.length
  let user := userPrompt approxTokenCount notAbove cap inputs
  if Text.trim user = "" then .ok none
  else .ok (some ⟨systemPrompt ctx outputLanguage, user, ctx.tokenBudget⟩)

theorem TokenBudgets.validate_ok_iff {tree : TokenBudgets} (hinput : tree.inputTokenBudget < 4294967296) :
    tree.validate = .ok () ↔
      0 < tree.outputTokenBudget ∧
        tree.outputTokenBudget + tree.summaryOverheadReserveTokens < tree.inputTokenBudget := by
  rw [validate]
  simp only [Fallible.bind_ok_iff, ensure_eq_ok]
  constructor
  · rintro ⟨-, -, -, houtput, -, -, -, hreserved⟩
    exact ⟨houtput, hreserved⟩
  · intro h
    exact ⟨(), by omega, (), h.1, (), by omega, by omega⟩

/-- The estimate is a quarter of the characters, rounded up from where the carry says. -/
structure Quarters (approxTokenCount : String → Nat) (carry : Nat) : Prop where
  small : carry ≤ 3
  le_iff : ∀ text budget, budget < 4294967295 →
    (approxTokenCount text ≤ budget ↔ text.length + carry < 4 * (budget + 1))

/-- The characters that a clamp leaves of a text. -/
def clampedChars (carry cap chars : Nat) : Nat := if chars + carry < 4 * (cap + 1) then chars else 4 * cap

def TextInput.kept {σ : Type} (input : TextInput σ) : Bool := Text.trim input.content ≠ ""

/-- The characters that an input has in the prompt: its header, its content and the separator. -/
def inputChars {σ : Type} (carry cap : Nat) (input : TextInput σ) : Nat :=
  input.id.length + 5 + clampedChars carry cap (Text.trim input.content).length

/-- The characters of a prompt and of one separator. -/
def promptChars {σ : Type} (carry cap : Nat) (inputs : List (TextInput σ)) : Nat :=
  ((inputs.filter TextInput.kept).map (inputChars carry cap)).sum

section Length

variable {σ : Type} {approxTokenCount : String → Nat} {carry cap : Nat}

theorem length_clampToBudget (hcount : Quarters approxTokenCount carry) (hcap : cap < 4294967295) (text : String) :
    (clampToBudget approxTokenCount text cap).1.length = clampedChars carry cap text.length := by
  have hsmall := hcount.small
  rw [clampToBudget, clampedChars]
  simp only [hcount.le_iff text cap hcap]
  split_ifs with hfits
  · rfl
  · rw [String.length_ofList, List.length_take, String.length_toList]
    omega

/-- With one separator more, every text has a separator. -/
theorem length_intercalate (separator : String) {texts : List String} (hne : texts ≠ []) :
    (separator.intercalate texts).length + separator.length =
      (texts.map fun text => text.length + separator.length).sum := by
  induction texts with
  | nil => exact absurd rfl hne
  | cons text texts ih =>
      cases texts with
      | nil => simp
      | cons next texts =>
          have hrest := ih (List.cons_ne_nil _ _)
          rw [String.intercalate_cons_cons, String.length_append, String.length_append, List.map_cons, List.sum_cons,
            ← hrest]
          omega

theorem inputText_of_kept (input : TextInput σ) (h : input.kept) : inputText approxTokenCount cap input =
    some ("[" ++ input.id ++ "]\n" ++ (clampToBudget approxTokenCount (Text.trim input.content) cap).1) :=
  if_neg (of_decide_eq_true h)

theorem inputText_of_not_kept (input : TextInput σ) (h : ¬input.kept) :
    inputText approxTokenCount cap input = none := by
  have hblank : Text.trim input.content = "" := by
    by_contra hne
    exact h (decide_eq_true hne)
  exact if_pos hblank

theorem sum_inputTexts (hcount : Quarters approxTokenCount carry) (hcap : cap < 4294967295)
    (inputs : List (TextInput σ)) :
    ((inputs.filterMap (inputText approxTokenCount cap)).map fun text => text.length + 2).sum =
      promptChars carry cap inputs := by
  induction inputs with
  | nil => rfl
  | cons input inputs ih =>
      rw [promptChars] at ih ⊢
      by_cases hkept : input.kept
      · rw [List.filterMap_cons_some (inputText_of_kept input hkept), List.filter_cons_of_pos hkept, List.map_cons,
          List.map_cons, List.sum_cons, List.sum_cons, ih]
        rw [String.length_append, String.length_append, String.length_append, length_clampToBudget hcount hcap, inputChars]
        have hopen : "[".length = 1 := by decide
        have hclose : "]\n".length = 2 := by decide
        omega
      · rw [List.filterMap_cons_none (inputText_of_not_kept input hkept), List.filter_cons_of_neg hkept, ih]

/-- The order of the inputs does not matter for what they take. -/
theorem sum_orderedTexts (notAbove : σ → σ → Bool) (hcount : Quarters approxTokenCount carry) (hcap : cap < 4294967295)
    (inputs : List (TextInput σ)) :
    (((inputs.mergeSort fun a b => notAbove b.score a.score).filterMap (inputText approxTokenCount cap)).map
      fun text => text.length + 2).sum = promptChars carry cap inputs := by
  rw [← sum_inputTexts hcount hcap]
  exact (((List.mergeSort_perm inputs _).filterMap _).map _).sum_eq

theorem mem_toList_intercalate {separator text : String} {texts : List String} {c : Char} (htext : text ∈ texts)
    (hc : c ∈ text.toList) : c ∈ (separator.intercalate texts).toList := by
  induction texts with
  | nil => cases htext
  | cons first texts ih =>
      cases texts with
      | nil =>
          rw [String.intercalate_singleton, ← List.mem_singleton.mp htext]
          exact hc
      | cons next texts =>
          rw [String.intercalate_cons_cons, String.toList_append, String.toList_append]
          rcases List.mem_cons.mp htext with rfl | hrest
          · exact List.mem_append_left _ (List.mem_append_left _ hc)
          · exact List.mem_append_right _ (ih hrest)

/-- A prompt is blank only when no input is kept; else it has the characters that the inputs take, but for the separator
behind the last one. -/
theorem userPrompt_cases (notAbove : σ → σ → Bool) (hcount : Quarters approxTokenCount carry) (hcap : cap < 4294967295)
    (inputs : List (TextInput σ)) :
    (Text.trim (userPrompt approxTokenCount notAbove cap inputs) = "" ∧ promptChars carry cap inputs = 0) ∨
    (Text.trim (userPrompt approxTokenCount notAbove cap inputs) ≠ "" ∧
      (userPrompt approxTokenCount notAbove cap inputs).length + 2 = promptChars carry cap inputs) := by
  have hsum := sum_orderedTexts notAbove hcount hcap inputs
  rw [userPrompt]
  generalize hordered : (inputs.mergeSort fun a b => notAbove b.score a.score) = ordered at hsum ⊢
  by_cases hnone : ordered.filterMap (inputText approxTokenCount cap) = []
  · apply Or.inl
    rw [hnone] at hsum ⊢
    exact ⟨by decide, hsum.symm⟩
  · apply Or.inr
    refine ⟨?_, ?_⟩
    · obtain ⟨text, htext⟩ := List.exists_mem_of_ne_nil _ hnone
      obtain ⟨input, -, hinput⟩ := List.mem_filterMap.mp htext
      have hopen : '[' ∈ text.toList := by
        by_cases hkept : input.kept
        · rw [inputText_of_kept input hkept] at hinput
          rw [← Option.some.inj hinput]
          simp
        · rw [inputText_of_not_kept input hkept] at hinput
          cases hinput
      exact Text.trim_ne_empty (mem_toList_intercalate htext hopen) (by decide)
    · rw [← hsum]
      exact length_intercalate "\n\n" hnone

theorem perInputCap_lt {ctx : SummaryContext} (hinput : ctx.inputTokenBudget < 4294967296) (hbudget : 0 < ctx.tokenBudget)
    {n : Nat} (h : perInputCap ctx n = .ok cap) : cap < 4294967295 := by
  rw [perInputCap] at h
  split_ifs at h
  · rw [← Except.ok.inj h]
    decide
  · rw [← Except.ok.inj h]
    refine lt_of_le_of_lt (Nat.div_le_self _ _) ?_
    omega

end Length

/-- What a prompt takes with the shares of its inputs. Nothing is built when the count of the inputs wraps to zero. -/
def PromptFits {σ : Type} (carry : Nat) (inputs : List (TextInput σ)) (ctx : SummaryContext) : Prop :=
  ∃ cap, perInputCap ctx inputs.length = .ok cap ∧
    promptChars carry cap inputs + carry < 4 * (ctx.inputTokenBudget - ctx.tokenBudget + 1) + 2

theorem prepareSummaryPrompt_of_cap {σ : Type} {approxTokenCount : String → Nat} (notAbove : σ → σ → Bool)
    {inputs : List (TextInput σ)} {ctx : SummaryContext} (outputLanguage : Option String) {cap : Nat}
    (hcap : perInputCap ctx inputs.length = .ok cap) :
    prepareSummaryPrompt approxTokenCount notAbove inputs ctx outputLanguage =
      if Text.trim (userPrompt approxTokenCount notAbove cap inputs) = "" then .ok none
      else .ok (some ⟨systemPrompt ctx outputLanguage, userPrompt approxTokenCount notAbove cap inputs,
        ctx.tokenBudget⟩) := by
  rw [prepareSummaryPrompt, hcap]
  simp only [bind, Except.bind]

/-- Under budgets that the validation accepts a prompt is within the input budget less the output budget, exactly if the
headers and separators of its inputs fit in there beside their clamped contents. -/
theorem prepareSummaryPrompt_inBudget_iff {σ : Type} {approxTokenCount : String → Nat} {carry : Nat}
    (hcount : Quarters approxTokenCount carry) (notAbove : σ → σ → Bool) (inputs : List (TextInput σ))
    {tree : TokenBudgets} (hinput : tree.inputTokenBudget < 4294967296) (hvalid : tree.validate = .ok ())
    (ask outputLanguage : Option String) :
    (∃ prepared, prepareSummaryPrompt approxTokenCount notAbove inputs (tree.context ask) outputLanguage = .ok prepared ∧
      ∀ prompt ∈ prepared, approxTokenCount prompt.user ≤ tree.inputTokenBudget - tree.outputTokenBudget) ↔
      PromptFits carry inputs (tree.context ask) := by
  obtain ⟨houtput, -⟩ := (TokenBudgets.validate_ok_iff hinput).mp hvalid
  rw [PromptFits]
  cases hcap : perInputCap (tree.context ask) inputs.length with
  | error panic =>
      rw [prepareSummaryPrompt, hcap]
      exact iff_of_false nofun nofun
  | ok cap =>
      have hlt : cap < 4294967295 := perInputCap_lt hinput houtput hcap
      have hsmall := hcount.small
      have hle := fun text => hcount.le_iff text (tree.inputTokenBudget - tree.outputTokenBudget) (by omega)
      have hbudgets : (tree.context ask).inputTokenBudget - (tree.context ask).tokenBudget =
          tree.inputTokenBudget - tree.outputTokenBudget := rfl
      rw [prepareSummaryPrompt_of_cap notAbove outputLanguage hcap]
      simp only [Except.ok.injEq, exists_eq_left', hbudgets]
      rcases userPrompt_cases notAbove hcount hlt inputs with ⟨hblank, hzero⟩ | ⟨hshown, hlength⟩
      · rw [if_pos hblank]
        refine iff_of_true ⟨none, rfl, nofun⟩ ?_
        omega
      · rw [if_neg hshown]
        simp only [Except.ok.injEq, exists_eq_left', Option.mem_some_iff, forall_eq', hle]
        omega

/-- The estimate that rounds up. -/
def quarterCount (text : String) : Nat := (text.length + 3) / 4

theorem quarterCount_quarters : Quarters quarterCount 3 where
  small := le_rfl
  le_iff text budget _ := by
    rw [quarterCount]
    omega

/-- The default budgets. -/
def defaultBudgets : TokenBudgets := ⟨50000, 5000, 2048⟩

theorem defaultBudgets_valid : defaultBudgets.validate = .ok () := by
  rw [TokenBudgets.validate_ok_iff (by decide)]
  decide

theorem prepareSummaryPrompt_inBudget_iff_notes :
    (∃ prepared, prepareSummaryPrompt quarterCount (fun a b : Nat => decide (a ≤ b)) [⟨"a", "hello", 1⟩, ⟨"b", "world", 2⟩]
        (defaultBudgets.context none) none = .ok prepared ∧
      ∀ prompt ∈ prepared, quarterCount prompt.user ≤ 45000) ↔
      PromptFits 3 [⟨"a", "hello", 1⟩, ⟨"b", "world", 2⟩] (defaultBudgets.context none) :=
  prepareSummaryPrompt_inBudget_iff quarterCount_quarters _ _ (by decide) defaultBudgets_valid none none

/-- Leaves of a few words, as many as fill a buffer of level 0. -/
def fewWords : List (TextInput Nat) := (List.range 16667).map fun i => ⟨toString i, "ten chars!", 0⟩

theorem length_fewWords : fewWords.length = 16667 := by
  rw [fewWords, List.length_map, List.length_range]

theorem perInputCap_fewWords : perInputCap (defaultBudgets.context none) fewWords.length = .ok 2 := by
  rw [length_fewWords]
  decide

/-- Each leaf takes eight characters of its content, and five beside its id. -/
theorem promptChars_fewWords : 13 * 16667 ≤ promptChars 3 2 fewWords := by
  have hkept : ∀ input ∈ fewWords, input.kept = true := by
    intro input hinput
    obtain ⟨i, -, rfl⟩ := List.mem_map.mp hinput
    have hcontent : Text.trim "ten chars!" ≠ "" := by decide
    exact decide_eq_true hcontent
  have heach : ∀ chars ∈ fewWords.map (inputChars 3 2), 13 ≤ chars := by
    intro chars hchars
    obtain ⟨input, hinput, rfl⟩ := List.mem_map.mp hchars
    obtain ⟨i, -, rfl⟩ := List.mem_map.mp hinput
    have hclamped : clampedChars 3 2 (Text.trim "ten chars!").length = 8 := by decide
    rw [inputChars, hclamped]
    omega
  have hsum := List.card_nsmul_le_sum _ 13 heach
  rw [List.length_map, length_fewWords, Nat.nsmul_eq_mul] at hsum
  rw [promptChars, List.filter_eq_self.mpr hkept]
  omega

/-- The default budgets, and more than 54000 tokens. -/
theorem fewWords_overrun : defaultBudgets.validate = .ok () ∧
    ∃ prompt, prepareSummaryPrompt quarterCount (fun a b : Nat => decide (a ≤ b)) fewWords
      (defaultBudgets.context none) none = .ok (some prompt) ∧ 54000 < quarterCount prompt.user := by
  refine ⟨defaultBudgets_valid, ?_⟩
  have hchars := promptChars_fewWords
  rw [prepareSummaryPrompt_of_cap _ _ perInputCap_fewWords]
  have hcap : 2 < 4294967295 := by decide
  rcases userPrompt_cases (fun a b : Nat => decide (a ≤ b)) quarterCount_quarters hcap fewWords with
    ⟨-, hzero⟩ | ⟨hshown, hlength⟩
  · rw [hzero] at hchars
    omega
  · rw [if_neg hshown]
    refine ⟨_, rfl, ?_⟩
    rw [quarterCount]
    dsimp only
    omega

end TinyCortex.SummaryTree.Prompt
