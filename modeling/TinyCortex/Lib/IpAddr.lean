import TinyCortex.Lib.FrontMatter

/-! Blocks of network addresses. An address is its octets, the most significant first; a block is a base
address and how many of its leading bits an address shares with it. -/

namespace TinyCortex.Cidr

/-- The number that an address is. -/
def number : List UInt8 → Nat
  | [] => 0
  | o :: octets => o.toNat * 2 ^ (8 * octets.length) + number octets

structure Block where
  base : List UInt8
  len : Nat
deriving Repr, DecidableEq

/-- The address is as long as the base and the two share the leading bits. -/
def Block.Has (block : Block) (octets : List UInt8) : Prop :=
  octets.length = block.base.length ∧
    number octets / 2 ^ (8 * octets.length - block.len) =
      number block.base / 2 ^ (8 * block.base.length - block.len)

instance (block : Block) (octets : List UInt8) : Decidable (block.Has octets) :=
  inferInstanceAs (Decidable (_ ∧ _))

theorem number_lt (octets : List UInt8) : number octets < 2 ^ (8 * octets.length) := by
  induction octets with
  | nil => exact Nat.one_pos
  | cons o octets ih =>
      have ho : o.toNat + 1 ≤ 256 := o.toNat_lt
      have hpow : 2 ^ (8 * (o :: octets).length) = 256 * 2 ^ (8 * octets.length) := by
        rw [List.length_cons, Nat.mul_add, Nat.pow_add]
        ring
      calc number (o :: octets) < o.toNat * 2 ^ (8 * octets.length) + 2 ^ (8 * octets.length) :=
            Nat.add_lt_add_left ih _
        _ = (o.toNat + 1) * 2 ^ (8 * octets.length) := by ring
        _ ≤ 256 * 2 ^ (8 * octets.length) := Nat.mul_le_mul_right _ ho
        _ = 2 ^ (8 * (o :: octets).length) := hpow.symm

/-- Cut below the first octet, the number keeps that octet and a smaller remainder. -/
theorem number_cons_div (o : UInt8) (octets : List UInt8) {k : Nat} (h : k ≤ 8 * octets.length) :
    number (o :: octets) / 2 ^ k = o.toNat * 2 ^ (8 * octets.length - k) + number octets / 2 ^ k := by
  have hpow : 2 ^ (8 * octets.length) = 2 ^ k * 2 ^ (8 * octets.length - k) := by
    rw [← Nat.pow_add, Nat.add_sub_cancel' h]
  rw [number, hpow]
  have hswap : o.toNat * (2 ^ k * 2 ^ (8 * octets.length - k)) = 2 ^ k * (o.toNat * 2 ^ (8 * octets.length - k)) := by
    ring
  rw [hswap, Nat.mul_add_div (Nat.two_pow_pos k)]

theorem rest_div_lt (octets : List UInt8) {k : Nat} (h : k ≤ 8 * octets.length) :
    number octets / 2 ^ k < 2 ^ (8 * octets.length - k) := by
  apply Nat.div_lt_of_lt_mul
  rw [← Nat.pow_add, Nat.add_sub_cancel' h]
  exact number_lt octets

variable {o b : UInt8} {octets base : List UInt8} {len : Nat}

/-- A block that fixes the whole first octet. -/
theorem has_cons (h : 8 ≤ len) : Block.Has ⟨b :: base, len⟩ (o :: octets) ↔ o = b ∧ Block.Has ⟨base, len - 8⟩ octets := by
  simp only [Block.Has, List.length_cons, Nat.add_right_cancel_iff]
  by_cases hlen : octets.length = base.length
  · simp only [hlen, true_and]
    have hshift : 8 * (base.length + 1) - len = 8 * base.length - (len - 8) := by omega
    have hle : 8 * base.length - (len - 8) ≤ 8 * base.length := Nat.sub_le _ _
    have hrest := rest_div_lt octets (hlen ▸ hle)
    have hbase := rest_div_lt base hle
    rw [hshift, number_cons_div o octets (hlen ▸ hle), number_cons_div b base hle]
    rw [hlen] at hrest ⊢
    generalize 2 ^ (8 * base.length - (8 * base.length - (len - 8))) = w at hrest hbase ⊢
    constructor
    · intro heq
      have hfirst : o.toNat = b.toNat := by
        have hdiv := congrArg (· / w) heq
        simpa only [Nat.mul_comm _ w, Nat.mul_add_div (Nat.zero_lt_of_lt hrest), Nat.div_eq_of_lt hrest,
          Nat.div_eq_of_lt hbase, Nat.add_zero] using hdiv
      refine ⟨UInt8.toNat_inj.mp hfirst, ?_⟩
      rw [hfirst] at heq
      exact Nat.add_left_cancel heq
    · intro ⟨hfirst, heq⟩
      rw [hfirst, heq]
  · simp only [hlen, false_and, and_false]

/-- A block that ends inside the first octet. -/
theorem has_part (h : len ≤ 8) :
    Block.Has ⟨b :: base, len⟩ (o :: octets) ↔
      octets.length = base.length ∧ o.toNat / 2 ^ (8 - len) = b.toNat / 2 ^ (8 - len) := by
  simp only [Block.Has, List.length_cons, Nat.add_right_cancel_iff]
  apply and_congr_right
  intro hlen
  have hcut (a : UInt8) (rest : List UInt8) :
      number (a :: rest) / 2 ^ (8 * (rest.length + 1) - len) = a.toNat / 2 ^ (8 - len) := by
    have hshift : 8 * (rest.length + 1) - len = 8 * rest.length + (8 - len) := by omega
    rw [hshift, Nat.pow_add, ← Nat.div_div_eq_div_mul, number_cons_div a rest le_rfl]
    rw [Nat.sub_self, Nat.pow_zero, Nat.mul_one, Nat.div_eq_of_lt (number_lt rest), Nat.add_zero]
  rw [hcut o octets, hcut b base]

/-- A block of one address. -/
theorem has_whole (h : 8 * base.length ≤ len) : Block.Has ⟨base, len⟩ octets ↔ octets = base := by
  induction base generalizing octets len with
  | nil =>
      rw [← List.length_eq_zero_iff]
      constructor
      · exact And.left
      · intro hnil
        rw [List.length_eq_zero_iff.mp hnil]
        exact ⟨rfl, rfl⟩
  | cons b base ih =>
      rw [List.length_cons] at h
      cases octets with
      | nil =>
          constructor
          · intro hhas
            exact absurd hhas.1 (Nat.succ_ne_zero _).symm
          · intro heq
            cases heq
      | cons o octets => rw [has_cons (by omega), ih (by omega), List.cons.injEq]

end TinyCortex.Cidr

/-! Internet addresses as `std::net` has them: their octets, the kinds its predicates tell apart, the
dotted form and the reading of a text. -/

namespace TinyCortex

structure Ipv4Addr where
  a : UInt8
  b : UInt8
  c : UInt8
  d : UInt8
deriving DecidableEq, Repr

structure Ipv6Addr where
  octets : Fin 16 → UInt8
deriving DecidableEq

inductive IpAddr where
  | v4 (ip : Ipv4Addr)
  | v6 (ip : Ipv6Addr)
deriving DecidableEq

namespace Ipv4Addr

def octets (ip : Ipv4Addr) : List UInt8 := [ip.a, ip.b, ip.c, ip.d]

def isUnspecified (ip : Ipv4Addr) : Bool := ip == ⟨0, 0, 0, 0⟩

def isLoopback (ip : Ipv4Addr) : Bool := ip.a == 127

def isPrivate (ip : Ipv4Addr) : Bool :=
  ip.a == 10 || (ip.a == 172 && 16 ≤ ip.b && ip.b ≤ 31) || (ip.a == 192 && ip.b == 168)

def isLinkLocal (ip : Ipv4Addr) : Bool := ip.a == 169 && ip.b == 254

def isMulticast (ip : Ipv4Addr) : Bool := 224 ≤ ip.a && ip.a ≤ 239

def isBroadcast (ip : Ipv4Addr) : Bool := ip == ⟨255, 255, 255, 255⟩

/-- `::ffff:a.b.c.d`. -/
def toIpv6Mapped (ip : Ipv4Addr) : Ipv6Addr :=
  ⟨![0, 0, 0, 0, 0, 0, 0, 0, 0, 0, 0xff, 0xff, ip.a, ip.b, ip.c, ip.d]⟩

/-- The dotted form. -/
def dotted (ip : Ipv4Addr) : List Char :=
  Nat.toDigits 10 ip.a.toNat ++ '.' :: (Nat.toDigits 10 ip.b.toNat ++ '.' ::
    (Nat.toDigits 10 ip.c.toNat ++ '.' :: Nat.toDigits 10 ip.d.toNat))

end Ipv4Addr

namespace Ipv6Addr

def isUnspecified (ip : Ipv6Addr) : Bool := ip == ⟨![0, 0, 0, 0, 0, 0, 0, 0, 0, 0, 0, 0, 0, 0, 0, 0]⟩

def isLoopback (ip : Ipv6Addr) : Bool := ip == ⟨![0, 0, 0, 0, 0, 0, 0, 0, 0, 0, 0, 0, 0, 0, 0, 1]⟩

def isMulticast (ip : Ipv6Addr) : Bool := ip.octets 0 == 0xff

/-- The last four octets of an address of the mapped form. -/
def toIpv4Mapped (ip : Ipv6Addr) : Option Ipv4Addr :=
  let v4 : Ipv4Addr := ⟨ip.octets 12, ip.octets 13, ip.octets 14, ip.octets 15⟩
  if ip = v4.toIpv6Mapped then some v4 else none

theorem toIpv4Mapped_eq_some_iff {ip : Ipv6Addr} {v4 : Ipv4Addr} :
    ip.toIpv4Mapped = some v4 ↔ ip = v4.toIpv6Mapped := by
  unfold toIpv4Mapped
  constructor
  · intro h
    obtain ⟨hmapped, hsome⟩ := Option.ite_none_right_eq_some.mp h
    rw [Option.some.inj hsome] at hmapped
    exact hmapped
  · intro h
    subst h
    exact if_pos rfl

end Ipv6Addr

/-! ### Reading -/

/-- `char::to_digit`. -/
def toDigit (radix : Nat) (c : Char) : Option Nat :=
  let digit :=
    if '0' ≤ c ∧ c ≤ '9' then c.toNat - 48
    else if 'a' ≤ c ∧ c ≤ 'z' then c.toNat - 97 + 10
    else if 'A' ≤ c ∧ c ≤ 'Z' then c.toNat - 65 + 10
    else radix
  if digit < radix then some digit else none

/-- `read_number`: the digits at the front, at most so many, without a zero before others unless that is
allowed, and below the bound. -/
def readNumber (radix maxDigits : Nat) (allowZeroPrefix : Bool) (bound : Nat) (input : List Char) :
    Option (Nat × List Char) :=
  let digits := input.takeWhile fun c => (toDigit radix c).isSome
  let value := (digits.filterMap (toDigit radix)).foldl (fun value digit => value * radix + digit) 0
  if digits.length = 0 ∨ maxDigits < digits.length then none
  else if !allowZeroPrefix ∧ digits.head? = some '0' ∧ 1 < digits.length then none
  else if value < bound then some (value, input.dropWhile fun c => (toDigit radix c).isSome)
  else none

/-- `read_given_char`. -/
def readGivenChar (c : Char) : List Char → Option (List Char)
  | [] => none
  | d :: input => if d = c then some input else none

def readOctet : List Char → Option (UInt8 × List Char) := fun input =>
  (readNumber 10 3 false 256 input).map fun (value, rest) => (UInt8.ofNat value, rest)

/-- `read_ipv4_addr`. -/
def readIpv4Addr (input : List Char) : Option (Ipv4Addr × List Char) := do
  let (a, input) ← readOctet input
  let (b, input) ← readGivenChar '.' input >>= readOctet
  let (c, input) ← readGivenChar '.' input >>= readOctet
  let (d, input) ← readGivenChar '.' input >>= readOctet
  return (⟨a, b, c, d⟩, input)

/-- `read_groups` with so many slots left: the groups, and whether a dotted address ended them. A
separator stands before every group but the first. -/
def readGroups : Nat → Bool → List Char → List Nat × Bool × List Char
  | 0, _, input => ([], false, input)
  | slots + 1, first, input =>
      let front := if first then some input else readGivenChar ':' input
      -- a dotted address takes two groups
      match if slots = 0 then none else front >>= readIpv4Addr with
      | some (ip, rest) => ([ip.a.toNat * 256 + ip.b.toNat, ip.c.toNat * 256 + ip.d.toNat], true, rest)
      | none =>
          match front >>= readNumber 16 4 true 65536 with
          | some (group, rest) =>
              let (groups, dotted, rest) := readGroups slots false rest
              (group :: groups, dotted, rest)
          | none => ([], false, input)

/-- The address of eight groups. -/
def Ipv6Addr.ofGroups (groups : List Nat) : Ipv6Addr :=
  ⟨fun k =>
    let group := groups.getD (k.val / 2) 0
    UInt8.ofNat (if k.val % 2 = 0 then group / 256 else group % 256)⟩

/-- `read_ipv6_addr`: the groups before `::`, and those after it at the end of the address. -/
def readIpv6Addr (input : List Char) : Option (Ipv6Addr × List Char) :=
  let (head, dotted, input) := readGroups 8 true input
  if head.length = 8 then some (Ipv6Addr.ofGroups head, input)
  else if dotted then none
  else do
    let input ← readGivenChar ':' input >>= readGivenChar ':'
    let (tail, _, input) := readGroups (8 - (head.length + 1)) true input
    return (Ipv6Addr.ofGroups (head ++ List.replicate (8 - head.length - tail.length) 0 ++ tail), input)

/-- What is read when nothing is left over. -/
def readAll {α : Type*} (read : List Char → Option (α × List Char)) (text : List Char) : Option α :=
  match read text with
  | some (value, []) => some value
  | _ => none

/-- `Ipv4Addr::from_str`. -/
def Ipv4Addr.fromStr (text : List Char) : Option Ipv4Addr :=
  if 15 < text.length then none else readAll readIpv4Addr text

/-- `Ipv6Addr::from_str`. -/
def Ipv6Addr.fromStr (text : List Char) : Option Ipv6Addr := readAll readIpv6Addr text

section Numbers

variable {radix maxDigits bound : Nat} {allowZeroPrefix : Bool} {rest : List Char}

theorem takeWhile_append_stop {p : Char → Bool} {digits : List Char} (hdigits : ∀ c ∈ digits, p c)
    (hrest : ∀ c ∈ rest.head?, p c = false) :
    (digits ++ rest).takeWhile p = digits ∧ (digits ++ rest).dropWhile p = rest := by
  rw [List.takeWhile_append_of_pos hdigits, List.dropWhile_append_of_pos hdigits]
  cases rest with
  | nil => exact ⟨List.append_nil digits, rfl⟩
  | cons c rest =>
      have hc : ¬p c = true := by
        rw [hrest c rfl]
        exact Bool.false_ne_true
      rw [List.takeWhile_cons_of_neg hc, List.dropWhile_cons_of_neg hc]
      exact ⟨List.append_nil digits, rfl⟩

/-- A number ends at the first character that is no digit. -/
theorem readNumber_append {digits : List Char} (hdigits : ∀ c ∈ digits, (toDigit radix c).isSome)
    (hrest : ∀ c ∈ rest.head?, (toDigit radix c).isSome = false) :
    readNumber radix maxDigits allowZeroPrefix bound (digits ++ rest) =
      (readNumber radix maxDigits allowZeroPrefix bound digits).map fun number => (number.1, rest) := by
  obtain ⟨htake, hdrop⟩ := takeWhile_append_stop hdigits hrest
  obtain ⟨htake', -⟩ := @takeWhile_append_stop [] _ digits hdigits (by simp)
  rw [List.append_nil] at htake'
  simp only [readNumber, htake, hdrop, htake']
  split_ifs <;> simp

theorem readNumber_eq_none {c : Char} (h : toDigit radix c = none) (input : List Char) :
    readNumber radix maxDigits allowZeroPrefix bound (c :: input) = none := by
  have hdigits : (c :: input).takeWhile (fun c => (toDigit radix c).isSome) = [] := by
    rw [List.takeWhile_cons_of_neg (by simp [h])]
  rw [readNumber, hdigits]
  exact if_pos (Or.inl rfl)

end Numbers

/-- A text that starts with no digit and no colon is no address. -/
theorem Ipv4Addr.fromStr_eq_none {c : Char} (h : toDigit 10 c = none) (input : List Char) :
    Ipv4Addr.fromStr (c :: input) = none := by
  have hread : readIpv4Addr (c :: input) = none := by
    rw [readIpv4Addr, readOctet, readNumber_eq_none h]
    rfl
  rw [Ipv4Addr.fromStr, readAll, hread]
  exact ite_self none

theorem Ipv6Addr.fromStr_eq_none {c : Char} (h : toDigit 16 c = none) (h' : toDigit 10 c = none) (hcolon : c ≠ ':')
    (input : List Char) : Ipv6Addr.fromStr (c :: input) = none := by
  have hdotted : readIpv4Addr (c :: input) = none := by
    rw [readIpv4Addr, readOctet, readNumber_eq_none h']
    rfl
  have hgroups : readGroups 8 true (c :: input) = ([], false, c :: input) := by
    rw [readGroups, if_pos rfl, if_neg (by decide), Option.bind_eq_bind, Option.bind_some, hdotted]
    dsimp only
    rw [Option.bind_eq_bind, Option.bind_some, readNumber_eq_none h]
  have hread : readIpv6Addr (c :: input) = none := by
    rw [readIpv6Addr, hgroups]
    simp [readGivenChar, hcolon]
  rw [Ipv6Addr.fromStr, readAll, hread]

/-! ### The dotted form is read back -/

theorem readOctet_byte : ∀ n : Fin 256,
    readOctet (Nat.toDigits 10 n.val) = some (UInt8.ofNat n.val, []) ∧
      (Nat.toDigits 10 n.val).all (fun c => (toDigit 10 c).isSome && c.isDigit) ∧
      (Nat.toDigits 10 n.val).length ≤ 3 := by
  decide +kernel

theorem readOctet_toDigits (o : UInt8) {rest : List Char}
    (hrest : ∀ c ∈ rest.head?, (toDigit 10 c).isSome = false) :
    readOctet (Nat.toDigits 10 o.toNat ++ rest) = some (o, rest) := by
  obtain ⟨hread, hdigits, -⟩ := readOctet_byte ⟨o.toNat, o.toNat_lt⟩
  have hall : ∀ c ∈ Nat.toDigits 10 o.toNat, (toDigit 10 c).isSome := by
    intro c hc
    exact (Bool.and_eq_true_iff.mp (List.all_eq_true.mp hdigits c hc)).1
  rw [readOctet, readNumber_append hall hrest, Option.map_map]
  rw [readOctet, UInt8.ofNat_toNat] at hread
  obtain ⟨number, hnumber, hvalue⟩ := Option.map_eq_some_iff.mp hread
  rw [hnumber, Option.map_some]
  show some (UInt8.ofNat number.1, rest) = some (o, rest)
  rw [(Prod.mk.inj hvalue).1]

theorem Ipv4Addr.fromStr_dotted (ip : Ipv4Addr) : Ipv4Addr.fromStr ip.dotted = some ip := by
  have hdot (rest : List Char) : ∀ c ∈ ('.' :: rest).head?, (toDigit 10 c).isSome = false := by
    intro c hc
    rw [← Option.some.inj hc]
    rfl
  have hend : ∀ c ∈ ([] : List Char).head?, (toDigit 10 c).isSome = false := fun _ h => nomatch h
  have hlast : readOctet (Nat.toDigits 10 ip.d.toNat) = some (ip.d, []) := by
    have h := readOctet_toDigits ip.d hend
    rwa [List.append_nil] at h
  have hread : readIpv4Addr ip.dotted = some (ip, []) := by
    simp [readIpv4Addr, Ipv4Addr.dotted, readOctet_toDigits _ (hdot _), hlast, readGivenChar]
  have hlen : ¬15 < ip.dotted.length := by
    have hbyte (o : UInt8) : (Nat.toDigits 10 o.toNat).length ≤ 3 := (readOctet_byte ⟨o.toNat, o.toNat_lt⟩).2.2
    have ha := hbyte ip.a
    have hb := hbyte ip.b
    have hc := hbyte ip.c
    have hd := hbyte ip.d
    simp only [Ipv4Addr.dotted, List.length_append, List.length_cons]
    omega
  rw [Ipv4Addr.fromStr, if_neg hlen, readAll, hread]

/-- The dotted form is made of digits and dots and ends in a digit. -/
theorem Ipv4Addr.mem_dotted {ip : Ipv4Addr} {c : Char} (h : c ∈ ip.dotted) : c.isDigit ∨ c = '.' := by
  have hbyte (o : UInt8) (hc : c ∈ Nat.toDigits 10 o.toNat) : c.isDigit ∨ c = '.' :=
    Or.inl (Nat.isDigit_of_mem_toDigits (by decide) (by decide) hc)
  simp only [Ipv4Addr.dotted, List.mem_append, List.mem_cons] at h
  rcases h with ha | hdot | hb | hdot | hc | hdot | hd
  · exact hbyte _ ha
  · exact Or.inr hdot
  · exact hbyte _ hb
  · exact Or.inr hdot
  · exact hbyte _ hc
  · exact Or.inr hdot
  · exact hbyte _ hd

theorem Ipv4Addr.getLast?_dotted {ip : Ipv4Addr} {c : Char} (h : ip.dotted.getLast? = some c) : c.isDigit := by
  have hd : Nat.toDigits 10 ip.d.toNat ≠ [] := Nat.toDigits_ne_nil
  obtain ⟨init, last, hlast⟩ := List.eq_nil_or_concat (Nat.toDigits 10 ip.d.toNat) |>.resolve_left hd
  rw [List.concat_eq_append] at hlast
  have hmem : last ∈ Nat.toDigits 10 ip.d.toNat := hlast ▸ List.mem_append_right init List.mem_cons_self
  have hdigit := Nat.isDigit_of_mem_toDigits (by decide) (by decide) hmem
  rw [Ipv4Addr.dotted, hlast] at h
  simp only [← List.cons_append, ← List.append_assoc, List.getLast?_concat] at h
  rw [← Option.some.inj h]
  exact hdigit

end TinyCortex
