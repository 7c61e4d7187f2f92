import TinyCortex.Diff.Ledger
import TinyCortex.Lib.FrontMatter
import TinyCortex.Lib.PathName

/-! Item ids as names in a git tree (`diff/ledger_helpers.rs`): the encoding, which no slash survives, and
the way back. -/

namespace TinyCortex.Diff

/-! ### Bytes as text -/

/-- How many bytes follow the first one of a longer character, and the range of the next. -/
def secondRange (first : UInt8) : Option (Nat × UInt8 × UInt8) :=
  if 0xc2 ≤ first ∧ first ≤ 0xdf then some (1, 0x80, 0xbf)
  else if first = 0xe0 then some (2, 0xa0, 0xbf)
  else if first = 0xed then some (2, 0x80, 0x9f)
  else if 0xe1 ≤ first ∧ first ≤ 0xef then some (2, 0x80, 0xbf)
  else if first = 0xf0 then some (3, 0x90, 0xbf)
  else if 0xf1 ≤ first ∧ first ≤ 0xf3 then some (3, 0x80, 0xbf)
  else if first = 0xf4 then some (3, 0x80, 0x8f)
  else none

def isContinuation (b : UInt8) : Bool := 0x80 ≤ b && b ≤ 0xbf

/-- The six bits of a continuation byte behind those before it. -/
def addBits (bits : Nat) (b : UInt8) : Nat := bits * 64 + b.toNat % 64

/-- The characters of some bytes, with one replacement character for each longest start of a character that
does not go on. -/
def lossyChars : List UInt8 → List Char
  | [] => []
  | a :: rest =>
      if a < 0x80 then Char.ofNat a.toNat :: lossyChars rest
      else match secondRange a with
        | none => '\ufffd' :: lossyChars rest
        | some (more, low, high) =>
            match rest with
            | [] => ['\ufffd']
            | b :: rest =>
                if low ≤ b ∧ b ≤ high then
                  if more = 1 then Char.ofNat (addBits (a.toNat % 32) b) :: lossyChars rest
                  else match rest with
                    | [] => ['\ufffd']
                    | c :: rest =>
                        if isContinuation c then
                          if more = 2 then Char.ofNat (addBits (addBits (a.toNat % 16) b) c) :: lossyChars rest
                          else match rest with
                            | [] => ['\ufffd']
                            | d :: rest =>
                                if isContinuation d then
                                  Char.ofNat (addBits (addBits (addBits (a.toNat % 8) b) c) d) :: lossyChars rest
                                else '\ufffd' :: lossyChars (d :: rest)
                        else '\ufffd' :: lossyChars (c :: rest)
                else '\ufffd' :: lossyChars (b :: rest)

/-- `String::from_utf8_lossy`. -/
def fromUtf8Lossy (bytes : List UInt8) : String :=
  (Lines.decode bytes).getD (String.ofList (lossyChars bytes))

/-! ### Decoding -/

def hexDigit (b : UInt8) : Option Nat :=
  if 48 ≤ b ∧ b ≤ 57 then some (b.toNat - 48)
  else if 65 ≤ b ∧ b ≤ 70 then some (b.toNat - 55)
  else if 97 ≤ b ∧ b ≤ 102 then some (b.toNat - 87)
  else none

/-- `u8::from_str_radix` of two bytes to the base 16, which takes a plus sign too. -/
def fromStrRadix16 (high low : UInt8) : Option UInt8 :=
  (hexDigit low).bind fun l =>
    if high = 43 then some (UInt8.ofNat l)
    else (hexDigit high).map fun h => UInt8.ofNat (16 * h + l)

/-- The loop of `decode_item_id`. -/
def decodeBytes : List UInt8 → List UInt8
  | [] => []
  | b :: rest =>
      match rest with
      | high :: low :: more =>
          if b = 37 then
            match fromStrRadix16 high low with
            | some byte => byte :: decodeBytes more
            | none => b :: decodeBytes (high :: low :: more)
          else b :: decodeBytes (high :: low :: more)
      | rest => b :: decodeBytes rest

/-- Inverse of `encode_item_id`. -/
def decodeItemId (encoded : String) : String :=
  let body := (encoded.toList.dropPrefix? "i_".toList).getD encoded.toList
  fromUtf8Lossy (decodeBytes (body.flatMap String.utf8EncodeChar))

/-! ### The round trip -/

/-- A byte of an encoded item id. -/
def encodeByte (b : UInt8) : List Char :=
  let c := Char.ofNat b.toNat
  if c.isAlphanum ∨ c = '.' ∨ c = '_' ∨ c = '-' then [c] else '%' :: upperHexByte b

theorem encodeItemId_eq (itemId : String) :
    encodeItemId itemId = String.ofList ("i_".toList ++ (Lines.encode itemId).flatMap encodeByte) := by
  rw [encodeItemId]
  rfl

/-- The bytes are the byte itself, or a percent sign and the two digits it is read back from. -/
def readsBackAs (b : UInt8) : List UInt8 → Bool
  | [c] => b != 37 && c == b
  | [percent, high, low] => percent == 37 && fromStrRadix16 high low == some b
  | _ => false

/-- A byte stands for itself, and is no percent sign, or is written with two digits that are read back. -/
theorem encodeByte_cases (b : UInt8) :
    (b ≠ 37 ∧ (encodeByte b).flatMap String.utf8EncodeChar = [b]) ∨
      ∃ high low, (encodeByte b).flatMap String.utf8EncodeChar = [37, high, low] ∧
        fromStrRadix16 high low = some b := by
  have hall : ∀ n < 256, readsBackAs (UInt8.ofNat n)
      ((encodeByte (UInt8.ofNat n)).flatMap String.utf8EncodeChar) = true := by
    decide +kernel
  have hb := hall b.toNat b.toNat_lt
  rw [UInt8.ofNat_toNat] at hb
  unfold readsBackAs at hb
  split at hb
  · rename_i c heq
    simp only [Bool.and_eq_true, bne_iff_ne, beq_iff_eq] at hb
    exact Or.inl ⟨hb.1, heq.trans (congrArg (fun c => [c]) hb.2)⟩
  · rename_i percent high low heq
    simp only [Bool.and_eq_true, beq_iff_eq] at hb
    exact Or.inr ⟨high, low, heq.trans (congrArg (fun c => [c, high, low]) hb.1), hb.2⟩
  · exact absurd hb Bool.false_ne_true

theorem decodeBytes_cons_of_ne {b : UInt8} (h : b ≠ 37) (rest : List UInt8) :
    decodeBytes (b :: rest) = b :: decodeBytes rest := by
  cases rest with
  | nil => rfl
  | cons high rest =>
      cases rest with
      | nil => rfl
      | cons low more => rw [decodeBytes, if_neg h]

theorem decodeBytes_percent {high low b : UInt8} (h : fromStrRadix16 high low = some b) (rest : List UInt8) :
    decodeBytes (37 :: high :: low :: rest) = b :: decodeBytes rest := by
  rw [decodeBytes, if_pos (Eq.refl _), h]

theorem decodeBytes_encode (bytes : List UInt8) :
    decodeBytes ((bytes.flatMap encodeByte).flatMap String.utf8EncodeChar) = bytes := by
  induction bytes with
  | nil => rfl
  | cons b bytes ih =>
      rw [List.flatMap_cons, List.flatMap_append]
      rcases encodeByte_cases b with ⟨hne, hself⟩ | ⟨high, low, hescaped, hread⟩
      · rw [hself, List.singleton_append, decodeBytes_cons_of_ne hne, ih]
      · rw [hescaped]
        exact (decodeBytes_percent hread _).trans (congrArg _ ih)

/-- An encoded item id is decoded to itself. -/
theorem decodeItemId_encodeItemId (itemId : String) : decodeItemId (encodeItemId itemId) = itemId := by
  rw [decodeItemId, encodeItemId_eq, String.toList_ofList, FrontMatter.dropPrefix?_append, Option.getD_some,
    decodeBytes_encode, fromUtf8Lossy, Lines.decode_encode, Option.getD_some]

theorem encodeItemId_inj {itemId other : String} (h : encodeItemId itemId = encodeItemId other) : itemId = other := by
  rw [← decodeItemId_encodeItemId itemId, h, decodeItemId_encodeItemId]

theorem separator_not_mem_encodeItemId (itemId : String) :
    ∀ sep ∈ PathName.separators, sep ∉ (encodeItemId itemId).toList := by
  have hall : ∀ n < 256, ∀ sep ∈ PathName.separators, sep ∉ encodeByte (UInt8.ofNat n) := by
    decide +kernel
  intro sep hsep
  rw [encodeItemId_eq, String.toList_ofList]
  intro hmem
  rcases List.mem_append.mp hmem with hpre | hbytes
  · have hnot : ∀ sep ∈ PathName.separators, sep ∉ "i_".toList := by decide
    exact hnot sep hsep hpre
  · obtain ⟨b, -, hb⟩ := List.mem_flatMap.mp hbytes
    have hnot := hall b.toNat b.toNat_lt sep hsep
    rw [UInt8.ofNat_toNat] at hnot
    exact hnot hb

/-- An encoded item id is one component of a path. -/
theorem slash_not_mem_encodeItemId (itemId : String) : '/' ∉ (encodeItemId itemId).toList :=
  separator_not_mem_encodeItemId itemId '/' List.mem_cons_self

/-- The letter of the prefix keeps an encoded item id from being a reserved name. -/
theorem safe_encodeItemId (itemId : String) : PathName.Safe (encodeItemId itemId).toList := by
  have hi : 'i' ∈ (encodeItemId itemId).toList := by
    rw [encodeItemId_eq, String.toList_ofList]
    exact List.mem_append_left _ (by decide)
  exact PathName.Safe.of_mem hi (by decide) (separator_not_mem_encodeItemId itemId)

/-- Item ids and their names in a tree stand for each other, and every name is one component of a path. -/
theorem itemId_names :
    Function.LeftInverse decodeItemId encodeItemId ∧ Function.Injective encodeItemId ∧
      ∀ itemId, PathName.Safe (encodeItemId itemId).toList := by
  refine ⟨decodeItemId_encodeItemId, ?_, safe_encodeItemId⟩
  intro itemId other h
  exact encodeItemId_inj h

end TinyCortex.Diff
