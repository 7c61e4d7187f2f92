import TinyCortex.Lib.Text

/-! String literals of JSON. A reader takes back what the writer escaped; pairs of surrogate escapes, which the writer
does not use, are not read. -/

namespace TinyCortex.JsonString

def escape (c : Char) : List Char :=
  match c with
  | '"' => ['\\', '"']
  | '\\' => ['\\', '\\']
  | '\n' => ['\\', 'n']
  | '\r' => ['\\', 'r']
  | '\t' => ['\\', 't']
  | '\x08' => ['\\', 'b']
  | '\x0c' => ['\\', 'f']
  | c =>
      if c.toNat < 32 then ['\\', 'u', '0', '0', Nat.digitChar (c.toNat / 16), Nat.digitChar (c.toNat % 16)] else [c]

def encode (text : List Char) : List Char := '"' :: text.flatMap escape ++ ['"']

def hexDigit (c : Char) : Option Nat :=
  if c.isDigit then some (c.toNat - 48)
  else if 'a' ≤ c ∧ c ≤ 'f' then some (c.toNat - 87)
  else if 'A' ≤ c ∧ c ≤ 'F' then some (c.toNat - 55)
  else none

def hexValue (digits : List Char) : Option Nat :=
  digits.foldlM (fun n c => (hexDigit c).map fun d => 16 * n + d) 0

def unescape (c : Char) : Option Char :=
  match c with
  | '"' => some '"'
  | '\\' => some '\\'
  | '/' => some '/'
  | 'n' => some '\n'
  | 'r' => some '\r'
  | 't' => some '\t'
  | 'b' => some '\x08'
  | 'f' => some '\x0c'
  | _ => none

/-- What follows the opening quote, up to the closing quote at the end. -/
def decodeBody : List Char → Option (List Char)
  | [] => none
  | '\\' :: 'u' :: a :: b :: c :: d :: rest =>
      (hexValue [a, b, c, d]).bind fun n =>
        if n.isValidChar then (decodeBody rest).map (Char.ofNat n :: ·) else none
  | '\\' :: c :: rest => (unescape c).bind fun c => (decodeBody rest).map (c :: ·)
  | c :: rest =>
      if c = '"' then if rest = [] then some [] else none
      else if c.toNat < 32 ∨ c = '\\' then none
      else (decodeBody rest).map (c :: ·)

def decode (text : List Char) : Option (List Char) :=
  match text with
  | '"' :: body => decodeBody body
  | _ => none

theorem hexValue_control {n : Nat} (h : n < 32) :
    hexValue ['0', '0', Nat.digitChar (n / 16), Nat.digitChar (n % 16)] = some n := by
  have hall : ∀ n < 32, hexValue ['0', '0', Nat.digitChar (n / 16), Nat.digitChar (n % 16)] = some n := by decide
  exact hall n h

theorem decodeBody_escape (c : Char) (rest : List Char) :
    decodeBody (escape c ++ rest) = (decodeBody rest).map (c :: ·) := by
  unfold escape
  split
  all_goals try rfl
  rename_i hquote hslash _ _ _ _ _
  split_ifs with hcontrol
  · have hvalid : c.toNat.isValidChar := Or.inl (Nat.lt_trans hcontrol (by decide))
    simp only [List.cons_append, List.nil_append]
    rw [decodeBody, hexValue_control hcontrol, Option.bind_some, if_pos hvalid, Char.ofNat_toNat]
  · rw [List.singleton_append, decodeBody, if_neg hquote, if_neg]
    · rintro (hlt | heq)
      · exact hcontrol hlt
      · exact hslash heq
    · intro _ _ _ _ _ heq
      exact absurd heq hslash
    · intro _ _ heq
      exact absurd heq hslash

theorem decode_encode (text : List Char) : decode (encode text) = some text := by
  have hbody : decodeBody (text.flatMap escape ++ ['"']) = some text := by
    induction text with
    | nil => rfl
    | cons c text ih =>
        rw [List.flatMap_cons, List.append_assoc, decodeBody_escape, ih]
        rfl
  exact hbody

theorem quote_mem_of_decode {text value : List Char} (h : decode text = some value) : '"' ∈ text := by
  unfold decode at h
  split at h
  · exact List.mem_cons_self
  · cases h

theorem escape_printable (c : Char) : ∀ d ∈ escape c, 32 ≤ d.toNat := by
  have hdigits : ∀ n < 32, 32 ≤ (Nat.digitChar (n / 16)).toNat ∧ 32 ≤ (Nat.digitChar (n % 16)).toNat := by decide
  unfold escape
  split
  all_goals try decide
  split_ifs with hcontrol
  · obtain ⟨hhigh, hlow⟩ := hdigits c.toNat hcontrol
    simp only [List.mem_cons, List.not_mem_nil, or_false, forall_eq_or_imp, forall_eq]
    exact ⟨by decide, by decide, by decide, by decide, hhigh, hlow⟩
  · intro d hd
    rw [List.mem_singleton.mp hd]
    exact Nat.le_of_not_lt hcontrol

theorem encode_printable (text : List Char) : ∀ c ∈ encode text, 32 ≤ c.toNat := by
  intro c hc
  rcases List.mem_append.mp hc with hbody | hquote
  · rcases List.mem_cons.mp hbody with rfl | hbody
    · decide
    · obtain ⟨d, -, hd⟩ := List.mem_flatMap.mp hbody
      exact escape_printable d c hd
  · rw [List.mem_singleton.mp hquote]
    decide

/-! ### Literals inside other text -/

/-- A character stands for itself, or for an escape of two or of six characters. -/
theorem escape_cases (c : Char) :
    (escape c = [c] ∧ c ≠ '\\' ∧ c ≠ '"') ∨ (∃ e, escape c = ['\\', e] ∧ e ≠ 'u') ∨
      ∃ high low, escape c = ['\\', 'u', '0', '0', high, low] := by
  unfold escape
  split
  all_goals try exact Or.inr (Or.inl ⟨_, Eq.refl _, by decide⟩)
  rename_i hquote hslash _ _ _ _ _
  split_ifs with hcontrol
  · exact Or.inr (Or.inr ⟨_, _, Eq.refl _⟩)
  · exact Or.inl ⟨Eq.refl _, hslash, hquote⟩

theorem escape_inj {c d : Char} (h : escape c = escape d) : c = d := by
  have hdecode := congrArg (fun text => decodeBody (text ++ ['"'])) h
  simp only [decodeBody_escape] at hdecode
  exact (List.cons.inj (Option.some.inj hdecode)).1

/-- The escape of a character is not the start of another one's. -/
theorem escape_append_inj {c d : Char} {rest rest' : List Char} (h : escape c ++ rest = escape d ++ rest') :
    c = d ∧ rest = rest' := by
  have hlen : (escape c).length = (escape d).length := by
    rcases escape_cases c with ⟨hc, hslash, -⟩ | ⟨e, hc, hu⟩ | ⟨high, low, hc⟩
    · rcases escape_cases d with ⟨hd, -, -⟩ | ⟨e', hd, -⟩ | ⟨high', low', hd⟩
      · rw [hc, hd]
        rfl
      · rw [hc, hd] at h
        exact absurd (List.cons.inj h).1 hslash
      · rw [hc, hd] at h
        exact absurd (List.cons.inj h).1 hslash
    · rcases escape_cases d with ⟨hd, hslash, -⟩ | ⟨e', hd, -⟩ | ⟨high', low', hd⟩
      · rw [hc, hd] at h
        exact absurd (List.cons.inj h).1.symm hslash
      · rw [hc, hd]
        rfl
      · rw [hc, hd] at h
        exact absurd (List.cons.inj (List.cons.inj h).2).1 hu
    · rcases escape_cases d with ⟨hd, hslash, -⟩ | ⟨e', hd, hu⟩ | ⟨high', low', hd⟩
      · rw [hc, hd] at h
        exact absurd (List.cons.inj h).1.symm hslash
      · rw [hc, hd] at h
        exact absurd (List.cons.inj (List.cons.inj h).2).1.symm hu
      · rw [hc, hd]
        rfl
  obtain ⟨hescape, hrest⟩ := List.append_inj h hlen
  exact ⟨escape_inj hescape, hrest⟩

theorem escape_ne_quote (c : Char) (rest rest' : List Char) : escape c ++ rest ≠ '"' :: rest' := by
  intro h
  rcases escape_cases c with ⟨hc, -, hquote⟩ | ⟨e, hc, -⟩ | ⟨high, low, hc⟩
  · rw [hc] at h
    exact hquote (List.cons.inj h).1
  · rw [hc] at h
    exact absurd (List.cons.inj h).1 (by decide)
  · rw [hc] at h
    exact absurd (List.cons.inj h).1 (by decide)

/-- A literal ends where it does whatever follows. -/
theorem encode_append_inj {text text' rest rest' : List Char} (h : encode text ++ rest = encode text' ++ rest') :
    text = text' ∧ rest = rest' := by
  have hbody : text.flatMap escape ++ '"' :: rest = text'.flatMap escape ++ '"' :: rest' := by
    simpa only [encode, List.cons_append, List.append_assoc, List.nil_append, List.cons.injEq, true_and] using h
  clear h
  induction text generalizing text' with
  | nil =>
      cases text' with
      | nil => exact ⟨Eq.refl _, (List.cons.inj hbody).2⟩
      | cons d text' =>
          rw [List.flatMap_cons, List.append_assoc] at hbody
          exact absurd hbody.symm (escape_ne_quote d _ _)
  | cons c text ih =>
      cases text' with
      | nil =>
          rw [List.flatMap_cons, List.append_assoc] at hbody
          exact absurd hbody (escape_ne_quote c _ _)
      | cons d text' =>
          rw [List.flatMap_cons, List.append_assoc, List.flatMap_cons, List.append_assoc] at hbody
          obtain ⟨hcd, hrest⟩ := escape_append_inj hbody
          obtain ⟨htext, htail⟩ := ih hrest
          rw [hcd, htext]
          exact ⟨Eq.refl _, htail⟩

end TinyCortex.JsonString
