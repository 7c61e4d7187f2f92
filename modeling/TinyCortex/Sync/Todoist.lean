import TinyCortex.Lib.Decimal
import TinyCortex.Lib.Json
import TinyCortex.Lib.Text
import TinyCortex.Lib.FrontMatter

/-! The dedup key of a Todoist task (`sync/composio/providers/todoist.rs`, `pick_str` of `common.rs`): the payload
in a canonical text, its hash, and the key made of it. -/

namespace TinyCortex.Sync

/-- How `serde_json` writes numbers: different numbers in different texts, made of the characters that JSON has for
numbers. -/
structure NumberText (ν : Type) where
  text : ν → List Char
  inj : Function.Injective text
  ne_nil : ∀ n, text n ≠ []
  chars : ∀ n, ∀ c ∈ text n, c ∈ "0123456789+-.eE".toList

section Canonical

variable {ν : Type} (numbers : NumberText ν)

/-- The entries in the order of their keys. -/
def sortKeys {α : Type} (entries : List (String × α)) : List (String × α) :=
  entries.insertionSort fun e e' => e.1 ≤ e'.1

/-- An entry of an object as it is written. -/
def writeEntry (entry : String × List Char) : List Char := JsonString.encode entry.1.toList ++ ':' :: entry.2

mutual

def writeCanonical : Json ν → List Char
  | .null => "null".toList
  | .bool true => "true".toList
  | .bool false => "false".toList
  | .number n => numbers.text n
  | .string s => JsonString.encode s.toList
  | .array items => '[' :: ([','].intercalate (writeItems items) ++ [']'])
  | .object entries => '\x7b' :: ([','].intercalate ((sortKeys (writeEntries entries)).map writeEntry) ++ ['\x7d'])

def writeItems : List (Json ν) → List (List Char)
  | [] => []
  | item :: items => writeCanonical item :: writeItems items

def writeEntries : List (String × Json ν) → List (String × List Char)
  | [] => []
  | (key, value) :: entries => (key, writeCanonical value) :: writeEntries entries

end

theorem writeCanonical_number (n : ν) : writeCanonical numbers (.number n) = numbers.text n := rfl

theorem writeItems_eq (items : List (Json ν)) : writeItems numbers items = items.map (writeCanonical numbers) := by
  induction items with
  | nil => rfl
  | cons item items ih =>
      show writeCanonical numbers item :: writeItems numbers items = _
      rw [ih, List.map_cons]

theorem writeEntries_eq (entries : List (String × Json ν)) :
    writeEntries numbers entries = entries.map fun e => (e.1, writeCanonical numbers e.2) := by
  induction entries with
  | nil => rfl
  | cons e entries ih =>
      show (e.1, writeCanonical numbers e.2) :: writeEntries numbers entries = _
      rw [ih, List.map_cons]

theorem writeCanonical_array (items : List (Json ν)) :
    writeCanonical numbers (.array items) =
      '[' :: ([','].intercalate (items.map (writeCanonical numbers)) ++ [']']) := by
  rw [← writeItems_eq]
  rfl

theorem writeCanonical_object (entries : List (String × Json ν)) :
    writeCanonical numbers (.object entries) =
      '\x7b' :: ([','].intercalate ((sortKeys (entries.map fun e => (e.1, writeCanonical numbers e.2))).map writeEntry) ++
        ['\x7d']) := by
  rw [← writeEntries_eq]
  rfl

/-! ### The key -/

/-- `payload_fingerprint`: FNV-1a of the canonical text. -/
def payloadFingerprint (item : Json ν) : UInt64 :=
  ((writeCanonical numbers item).flatMap String.utf8EncodeChar).foldl
    (fun hash byte => (hash ^^^ byte.toUInt64) * 0x00000100000001b3) 0xcbf29ce484222325

/-- The text of a string or a number. -/
def scalarText : Json ν → Option String
  | .string s => some s
  | .number n => some (String.ofList (numbers.text n))
  | _ => none

/-- `pick_str`, with the paths cut at their dots. -/
def pickStr (value : Json ν) (paths : List (List String)) : Option String :=
  paths.findSome? fun path =>
    (((value.pointer path).bind (scalarText numbers)).map Text.trim).filter (· ≠ "")

def dedupKey (item : Json ν) : Option String :=
  (pickStr numbers item [["id"], ["data", "id"], ["task_id"], ["data", "task_id"]]).map fun id =>
    id ++ "@" ++ toString (payloadFingerprint numbers item).toNat

end Canonical

end TinyCortex.Sync

/-! The canonical text of a payload is read back up to the order of keys, so the dedup key of a task follows its
payload and nothing else. -/

namespace TinyCortex.Sync

open Delimited

section Canonical

variable {ν : Type} (numbers : NumberText ν)

/-- What may follow a value. -/
def isStop (c : Char) : Prop := c = ',' ∨ c = ']' ∨ c = '\x7d'

theorem isStop_comma : isStop ',' := Or.inl rfl

theorem isStop_bracket : isStop ']' := Or.inr (Or.inl rfl)

theorem isStop_brace : isStop '\x7d' := Or.inr (Or.inr rfl)

/-! ### Sorted keys -/

theorem sortKeys_map {α β : Type} (f : α → β) (entries : List (String × α)) :
    sortKeys (entries.map fun e => (e.1, f e.2)) = (sortKeys entries).map fun e => (e.1, f e.2) :=
  (List.map_insertionSort (fun e e' : String × α => e.1 ≤ e'.1) (fun e e' : String × β => e.1 ≤ e'.1)
    (fun e => (e.1, f e.2)) entries fun _ _ _ _ => Iff.rfl).symm

theorem sortKeys_perm {α : Type} (entries : List (String × α)) : (sortKeys entries).Perm entries :=
  List.perm_insertionSort _ _

theorem pairwise_sortKeys {α : Type} (entries : List (String × α)) :
    (sortKeys entries).Pairwise fun e e' => e.1 ≤ e'.1 := by
  have htotal : Std.Total fun e e' : String × α => e.1 ≤ e'.1 := ⟨fun e e' => le_total e.1 e'.1⟩
  have htrans : IsTrans (String × α) fun e e' => e.1 ≤ e'.1 := ⟨fun _ _ _ => le_trans⟩
  exact List.pairwise_insertionSort _ entries

/-- Entries with different keys have one order. -/
theorem sortKeys_eq_of_perm {α : Type} {entries entries' : List (String × α)} (hkeys : (entries.map Prod.fst).Nodup)
    (h : entries.Perm entries') : sortKeys entries = sortKeys entries' := by
  apply List.Perm.eq_of_pairwise ?_ (pairwise_sortKeys entries) (pairwise_sortKeys entries')
    (((sortKeys_perm entries).trans h).trans (sortKeys_perm entries').symm)
  intro e e' he he' hle hle'
  have hmem := (sortKeys_perm entries).mem_iff.mp he
  have hmem' := h.mem_iff.mpr ((sortKeys_perm entries').mem_iff.mp he')
  exact List.inj_on_of_nodup_map hkeys hmem hmem' (le_antisymm hle hle')

/-! ### How a value begins -/

/-- The characters that values of each kind begin with. -/
def openings : List (List Char × Nat) :=
  [(['n'], 0), (['t'], 1), (['f'], 2), (['"'], 3), (['['], 4), (['\x7b'], 5), ("0123456789+-.eE".toList, 6)]

def firstKind (c : Char) : Nat := ((openings.find? fun row => c ∈ row.1).map Prod.snd).getD 7

def valueKind : Json ν → Nat
  | .null => 0
  | .bool true => 1
  | .bool false => 2
  | .string _ => 3
  | .array _ => 4
  | .object _ => 5
  | .number _ => 6

theorem firstKind_written (v : Json ν) (rest : List Char) :
    ∃ c text, writeCanonical numbers v ++ rest = c :: text ∧ firstKind c = valueKind v := by
  cases v with
  | null => exact ⟨'n', _, rfl, rfl⟩
  | bool b =>
      cases b with
      | true => exact ⟨'t', _, rfl, rfl⟩
      | false => exact ⟨'f', _, rfl, rfl⟩
  | number n =>
      have hall : ("0123456789+-.eE".toList.all fun c => firstKind c == 6) = true := by decide
      cases htext : numbers.text n with
      | nil => exact absurd htext (numbers.ne_nil n)
      | cons c text =>
          refine ⟨c, text ++ rest, ?_, beq_iff_eq.mp (List.all_eq_true.mp hall c ?_)⟩
          · rw [writeCanonical_number, htext, List.cons_append]
          · exact numbers.chars n c (htext ▸ List.mem_cons_self)
  | string s => exact ⟨'"', _, rfl, rfl⟩
  | array items =>
      rw [writeCanonical_array, List.cons_append]
      exact ⟨'[', _, rfl, rfl⟩
  | object entries =>
      rw [writeCanonical_object, List.cons_append]
      exact ⟨'\x7b', _, rfl, rfl⟩

/-- Texts that go on in the same way begin with values of one kind. -/
theorem valueKind_eq {v w : Json ν} {rest rest' : List Char}
    (h : writeCanonical numbers v ++ rest = writeCanonical numbers w ++ rest') : valueKind v = valueKind w := by
  obtain ⟨c, text, htext, hkind⟩ := firstKind_written numbers v rest
  obtain ⟨c', text', htext', hkind'⟩ := firstKind_written numbers w rest'
  rw [htext, htext'] at h
  rw [← hkind, ← hkind', (List.cons.inj h).1]

theorem written_ne_stop {c : Char} (hc : firstKind c = 7) (v : Json ν) (rest rest' : List Char) :
    writeCanonical numbers v ++ rest ≠ c :: rest' := by
  intro h
  obtain ⟨d, text, htext, hkind⟩ := firstKind_written numbers v rest
  rw [htext] at h
  rw [(List.cons.inj h).1, hc] at hkind
  cases v with
  | bool b => cases b <;> cases hkind
  | _ => cases hkind

/-! ### Reading back -/

/-- Values whose texts are told apart whatever may follow. -/
def ToldApart (v w : Json ν) : Prop :=
  Apart isStop (writeCanonical numbers) (writeCanonical numbers) Json.Same v w

theorem toldApart_array {items items' : List (Json ν)} (h : ∀ v ∈ items, ∀ w ∈ items', ToldApart numbers v w) :
    ToldApart numbers (.array items) (.array items') := by
  intro rest rest' _ _ heq
  rw [writeCanonical_array, writeCanonical_array, List.cons_append, List.cons_append, List.append_assoc,
    List.append_assoc] at heq
  have hmembers := forall₂_of_intercalate (by decide) isStop_comma isStop_bracket h
    (fun v _ t t' => written_ne_stop numbers (by decide) v t t')
    (fun w _ t t' => written_ne_stop numbers (by decide) w t t') (List.cons.inj heq).2
  exact ⟨Json.Same.array hmembers.1, hmembers.2⟩

/-- An entry as it is written in an object. -/
def writtenEntry (e : String × Json ν) : List Char := writeEntry (e.1, writeCanonical numbers e.2)

theorem written_object (entries : List (String × Json ν)) :
    writeCanonical numbers (.object entries) =
      '\x7b' :: ([','].intercalate ((sortKeys entries).map (writtenEntry numbers)) ++ ['\x7d']) := by
  rw [writeCanonical_object, sortKeys_map, List.map_map]
  rfl

theorem writtenEntry_apart {e e' : String × Json ν} (h : ToldApart numbers e.2 e'.2) :
    Apart isStop (writtenEntry numbers) (writtenEntry numbers) (fun e e' => e.1 = e'.1 ∧ Json.Same e.2 e'.2) e e' := by
  intro rest rest' hrest hrest' heq
  simp only [writtenEntry, writeEntry, List.append_assoc, List.cons_append] at heq
  obtain ⟨hkey, hvalue⟩ := JsonString.encode_append_inj heq
  obtain ⟨hsame, htail⟩ := h rest rest' hrest hrest' (List.cons.inj hvalue).2
  exact ⟨⟨String.toList_inj.mp hkey, hsame⟩, htail⟩

theorem writtenEntry_ne_close (e : String × Json ν) (rest rest' : List Char) :
    writtenEntry numbers e ++ rest ≠ '\x7d' :: rest' := by
  intro h
  have hquote : '"' = '\x7d' := (List.cons.inj h).1
  exact absurd hquote (by decide)

theorem toldApart_object {entries entries' : List (String × Json ν)}
    (h : ∀ e ∈ entries, ∀ e' ∈ entries', ToldApart numbers e.2 e'.2) :
    ToldApart numbers (.object entries) (.object entries') := by
  intro rest rest' _ _ heq
  rw [written_object, written_object, List.cons_append, List.cons_append, List.append_assoc, List.append_assoc] at heq
  have hapart : ∀ e ∈ sortKeys entries, ∀ e' ∈ sortKeys entries', Apart isStop (writtenEntry numbers)
      (writtenEntry numbers) (fun e e' => e.1 = e'.1 ∧ Json.Same e.2 e'.2) e e' := by
    intro e he e' he'
    exact writtenEntry_apart numbers
      (h e ((sortKeys_perm entries).mem_iff.mp he) e' ((sortKeys_perm entries').mem_iff.mp he'))
  have hmembers := forall₂_of_intercalate (by decide) isStop_comma isStop_brace hapart
    (fun e _ t t' => writtenEntry_ne_close numbers e t t') (fun e _ t t' => writtenEntry_ne_close numbers e t t')
    (List.cons.inj heq).2
  have hsorted := Json.Same.entries hmembers.1
  exact ⟨((Json.Same.perm (sortKeys_perm entries).symm).trans hsorted).trans (Json.Same.perm (sortKeys_perm entries')),
    hmembers.2⟩

theorem toldApart_number (n m : ν) : ToldApart numbers (.number n) (.number m) := by
  have hplain : ∀ k, ∀ c ∈ numbers.text k, ¬isStop c := by
    intro k c hc hstop
    have hmem := numbers.chars k c hc
    rcases hstop with hcomma | hbracket | hbrace
    · rw [hcomma] at hmem
      exact absurd hmem (by decide)
    · rw [hbracket] at hmem
      exact absurd hmem (by decide)
    · rw [hbrace] at hmem
      exact absurd hmem (by decide)
  intro rest rest' hrest hrest' heq
  rw [writeCanonical_number, writeCanonical_number] at heq
  obtain ⟨htext, htail⟩ := append_inj_of_ends (hplain n) (hplain m) hrest hrest' heq
  rw [numbers.inj htext]
  exact ⟨Json.Same.refl _, htail⟩

/-- Whatever follows two values, their texts end alike only if the values are the same. -/
theorem toldApart (v w : Json ν) : ToldApart numbers v w := by
  induction v using Json.induct generalizing w with
  | null =>
      intro rest rest' _ _ heq
      have hkind := valueKind_eq numbers heq
      cases w with
      | null => exact ⟨Json.Same.refl _, List.append_cancel_left heq⟩
      | bool b => cases b <;> cases hkind
      | _ => cases hkind
  | bool a =>
      intro rest rest' _ _ heq
      have hkind := valueKind_eq numbers heq
      cases a with
      | true =>
          cases w with
          | bool b =>
              cases b with
              | true => exact ⟨Json.Same.refl _, List.append_cancel_left heq⟩
              | false => cases hkind
          | _ => cases hkind
      | false =>
          cases w with
          | bool b =>
              cases b with
              | true => cases hkind
              | false => exact ⟨Json.Same.refl _, List.append_cancel_left heq⟩
          | _ => cases hkind
  | number n =>
      intro rest rest' hrest hrest' heq
      have hkind := valueKind_eq numbers heq
      cases w with
      | number m => exact toldApart_number numbers n m rest rest' hrest hrest' heq
      | bool b => cases b <;> cases hkind
      | _ => cases hkind
  | string s =>
      intro rest rest' _ _ heq
      have hkind := valueKind_eq numbers heq
      cases w with
      | string t =>
          obtain ⟨htext, htail⟩ := JsonString.encode_append_inj heq
          rw [String.toList_inj.mp htext]
          exact ⟨Json.Same.refl _, htail⟩
      | bool b => cases b <;> cases hkind
      | _ => cases hkind
  | array items ih =>
      intro rest rest' hrest hrest' heq
      have hkind := valueKind_eq numbers heq
      cases w with
      | array items' => exact toldApart_array numbers (fun v hv w _ => ih v hv w) rest rest' hrest hrest' heq
      | bool b => cases b <;> cases hkind
      | _ => cases hkind
  | object entries ih =>
      intro rest rest' hrest hrest' heq
      have hkind := valueKind_eq numbers heq
      cases w with
      | object entries' => exact toldApart_object numbers (fun e he e' _ => ih e he e'.2) rest rest' hrest hrest' heq
      | bool b => cases b <;> cases hkind
      | _ => cases hkind

/-- The order of keys does not reach the text. -/
theorem writeCanonical_same {v w : Json ν} (h : v.Same w) (hv : v.Proper) :
    writeCanonical numbers v = writeCanonical numbers w := by
  induction h with
  | refl v => rfl
  | trans huv _ ih ih' => exact (ih hv).trans (ih' (huv.proper hv))
  | perm hperm =>
      obtain _ | _ | _ | _ | _ | ⟨hkeys, _⟩ := hv
      rw [written_object, written_object, sortKeys_eq_of_perm hkeys hperm]
  | item before after _ ih =>
      obtain _ | _ | _ | _ | hitems | _ := hv
      have htext := ih (hitems _ (List.mem_append_right _ List.mem_cons_self))
      rw [writeCanonical_array, writeCanonical_array, List.map_append, List.map_append, List.map_cons, List.map_cons, htext]
  | entry before key after _ ih =>
      obtain _ | _ | _ | _ | _ | ⟨_, hentries⟩ := hv
      have htext := ih (hentries _ (List.mem_append_right _ List.mem_cons_self))
      rw [writeCanonical_object, writeCanonical_object, List.map_append, List.map_append, List.map_cons, List.map_cons]
      rw [htext]

/-- Two payloads have one canonical text exactly when they are the same value. -/
theorem writeCanonical_eq_iff {v w : Json ν} (hv : v.Proper) :
    writeCanonical numbers v = writeCanonical numbers w ↔ v.Same w := by
  constructor
  · intro h
    have hends : Ends isStop [] := fun c hc => by cases hc
    exact (toldApart numbers v w [] [] hends hends (by rw [h])).1
  · intro h
    exact writeCanonical_same numbers h hv

/-! ### Dedup keys -/

theorem scalarText_same {v w : Json ν} (h : v.Same w) : scalarText numbers v = scalarText numbers w := by
  induction h with
  | refl v => rfl
  | trans _ _ ih ih' => exact ih.trans ih'
  | perm _ => rfl
  | item _ _ _ _ => rfl
  | entry _ _ _ _ _ => rfl

theorem pickStr_same {v w : Json ν} (h : v.Same w) (hv : v.Proper) (paths : List (List String)) :
    pickStr numbers v paths = pickStr numbers w paths := by
  have hpath (path : List String) : (v.pointer path).bind (scalarText numbers) = (w.pointer path).bind (scalarText numbers) := by
    have hmember := h.pointer hv path
    generalize v.pointer path = a at hmember ⊢
    generalize w.pointer path = b at hmember ⊢
    cases hmember with
    | none => rfl
    | some hab =>
        rw [Option.bind_some, Option.bind_some]
        exact scalarText_same numbers hab
  rw [pickStr, pickStr]
  congr 1
  funext path
  rw [hpath]

theorem dedupKey_same {v w : Json ν} (h : v.Same w) (hv : v.Proper) : dedupKey numbers v = dedupKey numbers w := by
  rw [dedupKey, dedupKey, pickStr_same numbers h hv, payloadFingerprint, payloadFingerprint,
    writeCanonical_same numbers h hv]

/-- The number behind the last at sign is the fingerprint. -/
theorem fingerprint_eq_of_key {v w : Json ν} {key : String} (hv : dedupKey numbers v = some key)
    (hw : dedupKey numbers w = some key) : payloadFingerprint numbers v = payloadFingerprint numbers w := by
  obtain ⟨id, -, hkey⟩ := Option.map_eq_some_iff.mp hv
  obtain ⟨id', -, hkey'⟩ := Option.map_eq_some_iff.mp hw
  have hchars := congrArg String.toList (hkey.trans hkey'.symm)
  have hat (n : Nat) : '@' ∉ (Nat.toDigits 10 n).reverse := by
    rw [List.mem_reverse]
    exact Decimal.not_mem_toDigits (by decide) n
  have hrev (id : String) (n : Nat) : (id ++ "@" ++ toString n).toList.reverse =
      (Nat.toDigits 10 n).reverse ++ '@' :: id.toList.reverse := by
    rw [String.toList_append, String.toList_append, List.reverse_append, List.reverse_append]
    show (Nat.repr n).toList.reverse ++ '@' :: id.toList.reverse = _
    rw [Nat.toList_repr]
  have hsplit := congrArg List.reverse hchars
  rw [hrev, hrev] at hsplit
  have hdigits := (FrontMatter.append_sep_inj (hat _) (hat _) hsplit).1
  exact UInt64.toNat_inj.mp (Decimal.toDigits_inj (List.reverse_inj.mp hdigits))

/-- Payloads have one canonical text exactly when they are the same value. The dedup key follows the payload: the
same value gives the same key, and another one gives another key unless its different text has the same hash. -/
theorem canonical_unambiguous {v w : Json ν} (hv : v.Proper) :
    (writeCanonical numbers v = writeCanonical numbers w ↔ v.Same w) ∧
      (v.Same w → dedupKey numbers v = dedupKey numbers w) ∧
      ∀ key, dedupKey numbers v = some key → dedupKey numbers w = some key →
        v.Same w ∨ (writeCanonical numbers v ≠ writeCanonical numbers w ∧
          payloadFingerprint numbers v = payloadFingerprint numbers w) := by
  refine ⟨writeCanonical_eq_iff numbers hv, fun h => dedupKey_same numbers h hv, ?_⟩
  intro key hkey hkey'
  by_cases hsame : v.Same w
  · exact Or.inl hsame
  · refine Or.inr ⟨?_, fingerprint_eq_of_key numbers hkey hkey'⟩
    intro htext
    exact hsame ((writeCanonical_eq_iff numbers hv).mp htext)

end Canonical

/-- Natural numbers. -/
def naturals : NumberText Nat where
  text := Nat.toDigits 10
  inj := fun _ _ h => Decimal.toDigits_inj h
  ne_nil := fun _ => Nat.toDigits_ne_nil
  chars := by
    intro n c hc
    have hall : ∀ k < 10, Char.ofNat (48 + k) ∈ "0123456789+-.eE".toList := by decide
    have hrange := Text.range_of_isDigit (Nat.isDigit_of_mem_toDigits (by decide) (by decide) hc)
    have hmem := hall (c.toNat - 48) (by omega)
    rwa [show 48 + (c.toNat - 48) = c.toNat by omega, Char.ofNat_toNat] at hmem

/-- The keys of a task may come in another order. -/
theorem canonical_unambiguous_swapped :
    writeCanonical naturals (.object [("id", .string "7"), ("order", .number 3)]) =
      writeCanonical naturals (.object [("order", .number 3), ("id", .string "7")]) := by
  have hproper : (Json.object [("id", .string "7"), ("order", .number 3)] : Json Nat).Proper := by
    refine Json.Proper.object (by decide) ?_
    intro e he
    rcases List.mem_cons.mp he with hid | horder
    · rw [hid]
      exact Json.Proper.string _
    · rw [List.mem_singleton.mp horder]
      exact Json.Proper.number _
  exact ((canonical_unambiguous naturals hproper).1).mpr (Json.Same.perm (List.Perm.swap _ _ _))

end TinyCortex.Sync
