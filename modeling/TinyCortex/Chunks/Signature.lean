import TinyCortex.Diff.Trailers
import TinyCortex.Lib.FrontMatter

/-! The spellings of an embedding signature (`chunks/signature.rs`). How the canonical one is written is up to the
crate of the embedding providers. -/

namespace TinyCortex.Chunks

open Text

/-- A signature decomposed into what identifies its vector space. -/
structure SignatureParts where
  provider : Option String
  model : String
  dims : Option Nat
  deriving DecidableEq, Repr

/-- `str::split_once`. -/
def splitOnce (separator : Char) (text : List Char) : Option (List Char × List Char) :=
  if separator ∈ text then
    some (text.takeWhile (· ≠ separator), (text.dropWhile (· ≠ separator)).drop 1)
  else none

/-- `str::rsplit_once`. -/
def rsplitOnce (separator : Char) (text : List Char) : Option (List Char × List Char) :=
  (splitOnce separator text.reverse).map fun (after, before) => (before.reverse, after.reverse)

/-- `str::parse::<usize>`. -/
def parseUsize (text : String) : Option Nat :=
  (match text.toList with
    | '+' :: digits => Diff.parseDigits digits
    | digits => Diff.parseDigits digits).filter fun n => n < 2 ^ 64

/-- One `key=value` field; later fields go over earlier ones. -/
def parseField (parts : Option String × Option String × Option Nat) (field : List Char) :
    Option String × Option String × Option Nat :=
  match splitOnce '=' field with
  | none => parts
  | some (key, value) =>
      let value := trim (String.ofList value)
      match trim (String.ofList key) with
      | "provider" => (some value, parts.2.1, parts.2.2)
      | "model" => (parts.1, some value, parts.2.2)
      | "dims" | "dim" => (parts.1, parts.2.1, parseUsize value)
      | _ => parts

/-- Decompose either spelling; any other text is all model. -/
def parseSignature (signature : String) : Option SignatureParts :=
  let trimmed := trim signature
  if trimmed = "" then none
  else if '=' ∈ trimmed.toList then
    let parts := (trimmed.toList.splitOn ';').foldl parseField (none, none, none)
    some ⟨parts.1, parts.2.1.getD trimmed, parts.2.2⟩
  else
    match rsplitOnce '@' trimmed.toList with
    | none => some ⟨none, trimmed, none⟩
    | some (model, dims) =>
        match parseUsize (trim (String.ofList dims)) with
        | some dims => some ⟨none, trim (String.ofList model), some dims⟩
        | none => some ⟨none, trimmed, none⟩

/-- Add a spelling that is not there yet. -/
def pushVariant (variants : List String) (candidate : String) : List String :=
  if candidate ∈ variants then variants else variants ++ [candidate]

/-- Every spelling of a signature that a stored row might carry, the trimmed signature first. -/
def signatureVariants (formatSignature : String → String → Nat → String) (signature : String) : List String :=
  let variants := [trim signature]
  match parseSignature signature with
  | none => variants
  | some parts =>
      match parts.dims with
      | none => variants
      | some dims =>
          let variants := pushVariant variants (parts.model ++ "@" ++ toString dims)
          match parts.provider with
          | none => variants
          | some provider => pushVariant variants (formatSignature provider parts.model dims)

/-- The canonical spelling, as the providers' crate documents it. -/
def canonicalSignature (provider model : String) (dims : Nat) : String :=
  "provider=" ++ provider ++ ";model=" ++ model ++ ";dims=" ++ toString dims

example : signatureVariants canonicalSignature "provider=cloud;model=embedding-v1;dims=1024" =
    ["provider=cloud;model=embedding-v1;dims=1024", "embedding-v1@1024"] := by decide +kernel

end TinyCortex.Chunks

/-! What the spellings of a signature are read back as (`chunks/signature.rs`), and which spellings lead to which. -/

namespace TinyCortex.Chunks

open FrontMatter (trim_of_ends trim_of_forall isWhitespace_head_trim isWhitespace_last_trim)

/-! ### Cutting at a character -/

theorem splitOnce_sep {sep : Char} {left : List Char} (h : sep ∉ left) (rest : List Char) :
    splitOnce sep (left ++ sep :: rest) = some (left, rest) := by
  have hleft : ∀ c ∈ left, decide (c ≠ sep) = true := fun c hc => decide_eq_true fun heq => h (heq ▸ hc)
  have htake : (sep :: rest).takeWhile (fun c => decide (c ≠ sep)) = [] := by simp
  have hdrop : (sep :: rest).dropWhile (fun c => decide (c ≠ sep)) = sep :: rest := by simp
  rw [splitOnce, if_pos (List.mem_append_right _ List.mem_cons_self), List.takeWhile_append_of_pos hleft,
    List.dropWhile_append_of_pos hleft, htake, hdrop, List.append_nil]
  rfl

theorem rsplitOnce_sep {sep : Char} (left : List Char) {rest : List Char} (h : sep ∉ rest) :
    rsplitOnce sep (left ++ sep :: rest) = some (left, rest) := by
  have hreverse : (left ++ sep :: rest).reverse = rest.reverse ++ sep :: left.reverse := by simp
  rw [rsplitOnce, hreverse, splitOnce_sep (fun hmem => h (List.mem_reverse.mp hmem)), Option.map_some]
  dsimp only
  rw [List.reverse_reverse, List.reverse_reverse]

/-! ### Texts that end in a number -/

theorem isWhitespace_of_mem_toDigits {dims : Nat} {c : Char} (h : c ∈ Nat.toDigits 10 dims) :
    Text.isWhitespace c = false :=
  Text.isWhitespace_digit (Nat.isDigit_of_mem_toDigits (by decide) (by decide) h)

theorem toList_repr (dims : Nat) : (toString dims).toList = Nat.toDigits 10 dims := Decimal.toList_ofNat dims

theorem trim_toString (dims : Nat) : Text.trim (toString dims) = toString dims := by
  have htrim := trim_of_forall fun c (hc : c ∈ Nat.toDigits 10 dims) => isWhitespace_of_mem_toDigits hc
  change String.ofList (FrontMatter.trim (toString dims).toList) = _
  rw [toList_repr, htrim, ← toList_repr, String.ofList_toList]

theorem trim_append_toString {start : String}
    (h : ∀ c, start.toList.head? = some c → Text.isWhitespace c = false) (dims : Nat) :
    Text.trim (start ++ toString dims) = start ++ toString dims := by
  change String.ofList (FrontMatter.trim (start ++ toString dims).toList) = _
  rw [String.toList_append, toList_repr, trim_of_ends, ← toList_repr, ← String.toList_append, String.ofList_toList]
  · intro c hc
    rw [List.head?_append] at hc
    cases hstart : start.toList.head? with
    | none =>
        rw [hstart, Option.none_or] at hc
        exact isWhitespace_of_mem_toDigits (List.mem_of_head? hc)
    | some first =>
        rw [hstart, Option.some_or, Option.some.injEq] at hc
        exact h c (hstart.trans (congrArg some hc))
  · intro c hc
    rw [List.getLast?_append_of_ne_nil _ Nat.toDigits_ne_nil] at hc
    exact isWhitespace_of_mem_toDigits (List.mem_of_getLast? hc)

theorem parseUsize_toString {dims : Nat} (h : dims < 2 ^ 64) : parseUsize (toString dims) = some dims := by
  have hplus := Decimal.not_mem_toDigits (c := '+') (by decide) dims
  unfold parseUsize
  rw [toList_repr]
  split
  · rename_i digits heq
    rw [heq] at hplus
    exact absurd List.mem_cons_self hplus
  · rw [Diff.parseDigits_toDigits, Option.filter_some, if_pos (decide_eq_true h)]

/-! ### Reading a spelling back -/

section Parse

variable {provider model : String} {dims : Nat}

/-- `{model}@{dims}`. -/
def legacySignature (model : String) (dims : Nat) : String := model ++ "@" ++ toString dims

/-- None of the characters that part a signature. -/
def Separable (text : String) : Prop := ';' ∉ text.toList ∧ '=' ∉ text.toList

theorem trim_trim (text : String) : Text.trim (Text.trim text) = Text.trim text := by
  change String.ofList (FrontMatter.trim (String.ofList (FrontMatter.trim text.toList)).toList) =
    String.ofList (FrontMatter.trim text.toList)
  rw [String.toList_ofList,
    trim_of_ends (fun _ => isWhitespace_head_trim) fun _ => isWhitespace_last_trim]

theorem Separable.trim {text : String} (h : Separable text) : Separable (Text.trim text) := by
  have hsub : ∀ c, c ∈ (Text.trim text).toList → c ∈ text.toList := by
    intro c hc
    change c ∈ (String.ofList (FrontMatter.trim text.toList)).toList at hc
    rw [String.toList_ofList] at hc
    exact (FrontMatter.trim_sublist _).subset hc
  exact ⟨fun hmem => h.1 (hsub _ hmem), fun hmem => h.2 (hsub _ hmem)⟩

theorem trim_legacy (htrim : Text.trim model = model) :
    Text.trim (legacySignature model dims) = legacySignature model dims := by
  refine trim_append_toString (fun c hc => ?_) dims
  rw [String.toList_append] at hc
  by_cases hnil : model.toList = []
  · rw [hnil] at hc
    obtain rfl : '@' = c := Option.some.inj hc
    decide
  · rw [List.head?_append_of_ne_nil _ hnil] at hc
    have hsame : FrontMatter.trim model.toList = model.toList := by
      conv_rhs => rw [← htrim]
      exact String.toList_ofList.symm
    exact isWhitespace_head_trim (hsame.symm ▸ hc)

theorem trim_canonical (provider model : String) (dims : Nat) :
    Text.trim (canonicalSignature provider model dims) = canonicalSignature provider model dims := by
  refine trim_append_toString (fun c hc => ?_) dims
  simp only [String.toList_append, List.append_assoc] at hc
  obtain rfl : 'p' = c := Option.some.inj hc
  decide

/-- A model without blanks at its ends is read back from the legacy spelling, with the dimension. -/
theorem parse_legacy (hmodel : '=' ∉ model.toList) (htrim : Text.trim model = model) (hdims : dims < 2 ^ 64) :
    parseSignature (legacySignature model dims) = some ⟨none, model, some dims⟩ := by
  have hlist : (legacySignature model dims).toList = model.toList ++ '@' :: Nat.toDigits 10 dims := by
    rw [legacySignature, String.toList_append, String.toList_append, toList_repr, List.append_assoc]
    rfl
  have hne : legacySignature model dims ≠ "" := by
    intro hempty
    rw [hempty] at hlist
    exact List.append_ne_nil_of_right_ne_nil _ (List.cons_ne_nil _ _) hlist.symm
  have hequals : '=' ∉ (legacySignature model dims).toList := by
    rw [hlist, List.mem_append, List.mem_cons, not_or, not_or]
    exact ⟨hmodel, by decide, Decimal.not_mem_toDigits (by decide) dims⟩
  have hcut := rsplitOnce_sep model.toList (Decimal.not_mem_toDigits (c := '@') (by decide) dims)
  unfold parseSignature
  rw [trim_legacy htrim, if_neg hne, if_neg hequals, hlist, hcut]
  dsimp only
  have hdigits : String.ofList (Nat.toDigits 10 dims) = toString dims := by rw [← toList_repr, String.ofList_toList]
  rw [hdigits, trim_toString, parseUsize_toString hdims, String.ofList_toList, htrim]

/-- The canonical spelling is read back without the blanks at the ends of its parts. -/
theorem parse_canonical (hprovider : ';' ∉ provider.toList) (hmodel : ';' ∉ model.toList) (hdims : dims < 2 ^ 64) :
    parseSignature (canonicalSignature provider model dims) =
      some ⟨some (Text.trim provider), Text.trim model, some dims⟩ := by
  have hlist : (canonicalSignature provider model dims).toList =
      List.intercalate [';'] ["provider=".toList ++ provider.toList, "model=".toList ++ model.toList,
        "dims=".toList ++ Nat.toDigits 10 dims] := by
    rw [canonicalSignature]
    simp only [String.toList_append, toList_repr]
    simp [List.intercalate]
  obtain ⟨behind, hstart⟩ : ∃ behind, (canonicalSignature provider model dims).toList =
      "provider=".toList ++ behind := by
    rw [canonicalSignature]
    simp only [String.toList_append, List.append_assoc]
    exact ⟨_, Eq.refl _⟩
  have hne : canonicalSignature provider model dims ≠ "" := by
    intro hempty
    rw [hempty] at hstart
    exact List.append_ne_nil_of_left_ne_nil (by decide) _ hstart.symm
  have hequals : '=' ∈ (canonicalSignature provider model dims).toList := by
    rw [hstart]
    exact List.mem_append_left _ (by decide)
  have hsplit : (canonicalSignature provider model dims).toList.splitOn ';' = ["provider=".toList ++ provider.toList,
      "model=".toList ++ model.toList, "dims=".toList ++ Nat.toDigits 10 dims] := by
    rw [hlist]
    refine List.splitOn_intercalate _ ?_ (List.cons_ne_nil _ _)
    intro field hfield hmem
    simp only [List.mem_cons, List.not_mem_nil, or_false] at hfield
    rcases hfield with rfl | rfl | rfl
    · exact (List.mem_append.mp hmem).elim (by decide) hprovider
    · exact (List.mem_append.mp hmem).elim (by decide) hmodel
    · exact (List.mem_append.mp hmem).elim (by decide) (Decimal.not_mem_toDigits (by decide) dims)
  have hfirst : ∀ parts, parseField parts ("provider=".toList ++ provider.toList) =
      (some (Text.trim provider), parts.2.1, parts.2.2) := fun parts => by
    have hcut : splitOnce '=' ("provider=".toList ++ provider.toList) = some ("provider".toList, provider.toList) :=
      splitOnce_sep (show '=' ∉ "provider".toList by decide) _
    have hkey : Text.trim (String.ofList "provider".toList) = "provider" := by decide
    rw [parseField, hcut]
    dsimp only
    rw [hkey, String.ofList_toList]
    rfl
  have hsecond : ∀ parts, parseField parts ("model=".toList ++ model.toList) =
      (parts.1, some (Text.trim model), parts.2.2) := fun parts => by
    have hcut : splitOnce '=' ("model=".toList ++ model.toList) = some ("model".toList, model.toList) :=
      splitOnce_sep (show '=' ∉ "model".toList by decide) _
    have hkey : Text.trim (String.ofList "model".toList) = "model" := by decide
    rw [parseField, hcut]
    dsimp only
    rw [hkey, String.ofList_toList]
    rfl
  have hthird : ∀ parts, parseField parts ("dims=".toList ++ Nat.toDigits 10 dims) =
      (parts.1, parts.2.1, some dims) := fun parts => by
    have hcut : splitOnce '=' ("dims=".toList ++ Nat.toDigits 10 dims) = some ("dims".toList, Nat.toDigits 10 dims) :=
      splitOnce_sep (show '=' ∉ "dims".toList by decide) _
    have hkey : Text.trim (String.ofList "dims".toList) = "dims" := by decide
    have hdigits : String.ofList (Nat.toDigits 10 dims) = toString dims := by
      rw [← toList_repr, String.ofList_toList]
    rw [parseField, hcut]
    dsimp only
    rw [hkey, hdigits]
    change (parts.1, parts.2.1, parseUsize (Text.trim (toString dims))) = _
    rw [trim_toString, parseUsize_toString hdims]
  unfold parseSignature
  rw [trim_canonical, if_neg hne, if_pos hequals, hsplit, List.foldl_cons, List.foldl_cons, List.foldl_cons, List.foldl_nil,
    hfirst, hsecond, hthird]
  rfl

end Parse

/-! ### Variants -/

/-- The signature is read back with the model and the dimension, and with the provider or none. -/
def Spells (provider model : String) (dims : Nat) (signature : String) (declared : Option String) : Prop :=
  (declared = none ∨ declared = some provider) ∧ parseSignature signature = some ⟨declared, model, some dims⟩

/-- The canonical spelling leads to both, the legacy one, which records no provider, to itself; no other spelling leads
to more, and none leads to another space. -/
structure Spellings (formatSignature : String → String → Nat → String) (provider model : String) (dims : Nat) :
    Prop where
  parsed : parseSignature (formatSignature provider model dims) = some ⟨some provider, model, some dims⟩
  canonical : signatureVariants formatSignature (formatSignature provider model dims) =
    [formatSignature provider model dims, legacySignature model dims]
  legacy : signatureVariants formatSignature (legacySignature model dims) = [legacySignature model dims]
  contains : ∀ signature declared, Spells provider model dims signature declared →
    legacySignature model dims ∈ signatureVariants formatSignature signature ∧
      (declared = some provider → formatSignature provider model dims ∈ signatureVariants formatSignature signature)
  closed : ∀ signature declared, Spells provider model dims signature declared →
    ∀ variant ∈ signatureVariants formatSignature signature,
      signatureVariants formatSignature variant ⊆ signatureVariants formatSignature signature
  space : ∀ signature declared, Spells provider model dims signature declared →
    ∀ variant ∈ signatureVariants formatSignature signature, ∃ declared',
      (declared' = none ∨ declared' = declared) ∧ parseSignature variant = some ⟨declared', model, some dims⟩
  apart : ∀ signature declared, Spells provider model dims signature declared →
    ∀ variant ∈ signatureVariants formatSignature signature, ∀ provider' model' dims', Separable provider' →
      Separable model' → Text.trim provider' = provider' → Text.trim model' = model' → dims' < 2 ^ 64 →
      (variant = formatSignature provider' model' dims' → provider' = provider ∧ model' = model ∧ dims' = dims) ∧
        (variant = legacySignature model' dims' → model' = model ∧ dims' = dims)

section Variants

variable {formatSignature : String → String → Nat → String} {signature provider model variant : String} {dims : Nat}
  {declared : Option String}

theorem mem_pushVariant {variants : List String} {candidate : String} :
    variant ∈ pushVariant variants candidate ↔ variant ∈ variants ∨ variant = candidate := by
  unfold pushVariant
  split_ifs with hmem
  · exact ⟨Or.inl, fun h => h.elim id fun heq => heq ▸ hmem⟩
  · rw [List.mem_append, List.mem_singleton]

theorem mem_signatureVariants (h : parseSignature signature = some ⟨declared, model, some dims⟩) :
    variant ∈ signatureVariants formatSignature signature ↔ variant = Text.trim signature ∨
      variant = legacySignature model dims ∨ ∃ provider, declared = some provider ∧
        variant = formatSignature provider model dims := by
  unfold signatureVariants
  rw [h]
  dsimp only
  cases declared with
  | none =>
      dsimp only
      rw [mem_pushVariant, List.mem_singleton]
      refine or_congr_right ⟨Or.inl, fun hor => hor.elim id fun hsome => ?_⟩
      obtain ⟨provider, hnone, -⟩ := hsome
      cases hnone
  | some provider =>
      dsimp only
      rw [mem_pushVariant, mem_pushVariant, List.mem_singleton, or_assoc]
      refine or_congr_right (or_congr_right ⟨fun heq => ⟨provider, Eq.refl _, heq⟩, ?_⟩)
      rintro ⟨other, hsome, heq⟩
      rw [heq, Option.some.inj hsome]

theorem parse_trim (signature : String) : parseSignature (Text.trim signature) = parseSignature signature := by
  unfold parseSignature
  rw [trim_trim]

/-- The variants of a spelling are spellings, and they declare no other provider. -/
theorem spells_variant (hformat : ∀ provider model dims, formatSignature provider model dims =
    canonicalSignature provider model dims) (hprovider : Separable provider) (hmodel : Separable model)
    (hptrim : Text.trim provider = provider) (hmtrim : Text.trim model = model) (hdims : dims < 2 ^ 64)
    (h : Spells provider model dims signature declared) (hvariant : variant ∈ signatureVariants formatSignature signature) :
    ∃ declared', (declared' = none ∨ declared' = declared) ∧ parseSignature variant = some ⟨declared', model, some dims⟩ := by
  rcases (mem_signatureVariants h.2).mp hvariant with rfl | rfl | ⟨own, rfl, rfl⟩
  · exact ⟨declared, Or.inr (Eq.refl _), (parse_trim signature).trans h.2⟩
  · exact ⟨none, Or.inl (Eq.refl _), parse_legacy hmodel.2 hmtrim hdims⟩
  · obtain rfl : own = provider := h.1.elim nofun Option.some.inj
    refine ⟨some own, Or.inr (Eq.refl _), ?_⟩
    rw [hformat, parse_canonical hprovider.1 hmodel.1 hdims, hptrim, hmtrim]

theorem spellings_of_trimmed (hformat : ∀ provider model dims, formatSignature provider model dims =
    canonicalSignature provider model dims) (hprovider : Separable provider) (hmodel : Separable model)
    (hptrim : Text.trim provider = provider) (hmtrim : Text.trim model = model) (hdims : dims < 2 ^ 64) :
    Spellings formatSignature provider model dims := by
  have hparsed : ∀ {provider' model' : String} {dims' : Nat}, Separable provider' → Separable model' →
      Text.trim provider' = provider' → Text.trim model' = model' → dims' < 2 ^ 64 →
      parseSignature (formatSignature provider' model' dims') = some ⟨some provider', model', some dims'⟩ := by
    intro provider' model' dims' hp hm hpt hmt hd
    rw [hformat, parse_canonical hp.1 hm.1 hd, hpt, hmt]
  have hcanonical := hparsed hprovider hmodel hptrim hmtrim hdims
  have hlegacy := parse_legacy hmodel.2 hmtrim hdims
  have hspace : ∀ signature declared, Spells provider model dims signature declared →
      ∀ variant, variant ∈ signatureVariants formatSignature signature →
        ∃ declared', (declared' = none ∨ declared' = declared) ∧
          parseSignature variant = some ⟨declared', model, some dims⟩ :=
    fun signature declared h variant hvariant =>
      spells_variant hformat hprovider hmodel hptrim hmtrim hdims h hvariant
  have hne : legacySignature model dims ≠ formatSignature provider model dims := by
    intro heq
    rw [heq, hcanonical] at hlegacy
    cases hlegacy
  refine ⟨hcanonical, ?_, ?_, ?_, ?_, hspace, ?_⟩
  · have hfirst : pushVariant [formatSignature provider model dims] (legacySignature model dims) =
        [formatSignature provider model dims, legacySignature model dims] :=
      if_neg fun hmem => hne (List.mem_singleton.mp hmem)
    have htrimmed : Text.trim (formatSignature provider model dims) = formatSignature provider model dims := by
      rw [hformat, trim_canonical]
    unfold signatureVariants
    rw [hcanonical, htrimmed]
    change pushVariant (pushVariant _ (legacySignature model dims)) _ = _
    rw [hfirst]
    exact if_pos List.mem_cons_self
  · unfold signatureVariants
    rw [hlegacy, trim_legacy hmtrim]
    exact if_pos List.mem_cons_self
  · intro signature declared h
    exact ⟨(mem_signatureVariants h.2).mpr (Or.inr (Or.inl (Eq.refl _))), fun hown =>
      (mem_signatureVariants h.2).mpr (Or.inr (Or.inr ⟨provider, hown, Eq.refl _⟩))⟩
  · intro signature declared h variant hvariant other hother
    obtain ⟨declared', hdeclared, hparse⟩ := hspace signature declared h variant hvariant
    rcases (mem_signatureVariants hparse).mp hother with rfl | rfl | ⟨own, hown, rfl⟩
    · have htrimmed : Text.trim variant = variant := by
        rcases (mem_signatureVariants h.2).mp hvariant with rfl | rfl | ⟨own, -, rfl⟩
        · exact trim_trim signature
        · exact trim_legacy hmtrim
        · rw [hformat, trim_canonical]
      rw [htrimmed]
      exact hvariant
    · exact (mem_signatureVariants h.2).mpr (Or.inr (Or.inl (Eq.refl _)))
    · have hsame : declared = some own := by
        rcases hdeclared with hnone | hsame
        · rw [hnone] at hown
          cases hown
        · rw [← hsame, hown]
      exact (mem_signatureVariants h.2).mpr (Or.inr (Or.inr ⟨own, hsame, Eq.refl _⟩))
  · intro signature declared h variant hvariant provider' model' dims' hp hm hpt hmt hd
    obtain ⟨declared', hdeclared, hparse⟩ := hspace signature declared h variant hvariant
    constructor
    · rintro rfl
      rw [hparsed hp hm hpt hmt hd, Option.some.injEq, SignatureParts.mk.injEq, Option.some.injEq] at hparse
      obtain ⟨hown, hmodel', hdims'⟩ := hparse
      refine ⟨?_, hmodel', hdims'⟩
      rcases hdeclared with hnone | hsame
      · rw [hnone] at hown
        cases hown
      · rcases h.1 with hnone | hsome
        · rw [hsame, hnone] at hown
          cases hown
        · rw [hsame, hsome] at hown
          exact Option.some.inj hown
    · rintro rfl
      rw [parse_legacy hm.2 hmt hd, Option.some.injEq, SignatureParts.mk.injEq, Option.some.injEq] at hparse
      exact ⟨hparse.2.1, hparse.2.2⟩

/-- What is formatted is read back up to blanks at the ends, and the spellings of a space stay among themselves. -/
theorem spellings_formatted (hformat : ∀ provider model dims, formatSignature provider model dims =
    canonicalSignature provider model dims) (hprovider : Separable provider) (hmodel : Separable model)
    (hdims : dims < 2 ^ 64) :
    parseSignature (formatSignature provider model dims) =
        some ⟨some (Text.trim provider), Text.trim model, some dims⟩ ∧
      Spellings formatSignature (Text.trim provider) (Text.trim model) dims := by
  constructor
  · rw [hformat, parse_canonical hprovider.1 hmodel.1 hdims]
  · exact spellings_of_trimmed hformat hprovider.trim hmodel.trim (trim_trim provider) (trim_trim model) hdims

theorem spellings_cloud :
    parseSignature (canonicalSignature "cloud" "embedding-v1" 1024) =
        some ⟨some (Text.trim "cloud"), Text.trim "embedding-v1", some 1024⟩ ∧
      Spellings canonicalSignature (Text.trim "cloud") (Text.trim "embedding-v1") 1024 :=
  spellings_formatted (fun _ _ _ => Eq.refl _) (by unfold Separable; decide) (by unfold Separable; decide) (by decide)

/-- The legacy spelling does not lead back to the canonical one, and blanks at the ends of a provider are lost. -/
theorem not_same_variants :
    "embedding-v1@1024" ∈ signatureVariants canonicalSignature (canonicalSignature "cloud" "embedding-v1" 1024) ∧
      canonicalSignature "cloud" "embedding-v1" 1024 ∉ signatureVariants canonicalSignature "embedding-v1@1024" ∧
      parseSignature (canonicalSignature " cloud" "embedding-v1" 1024) ≠
        some ⟨some " cloud", "embedding-v1", some 1024⟩ := by
  decide +kernel

end Variants

end TinyCortex.Chunks
