import TinyCortex.Lib.IpAddr

/-! `sources/readers/ssrf.rs`: which addresses the network readers may fetch from, and which hosts of a
URL they refuse. -/

namespace TinyCortex.Sources

/-! ### The guard -/

-- The octets of an address are indexed by `Fin 16`.
local instance neZeroSixteen : NeZero (16 : Nat) := ⟨by decide⟩

def isPrivateIpv4 (ip : Ipv4Addr) : Bool :=
  if ip.isLoopback || ip.isPrivate || ip.isLinkLocal || ip.isUnspecified then true
  else (ip.a == 100 && ip.b &&& 0xc0 == 0x40) || (ip.a == 192 && ip.b == 0)

def isPrivateIpv6 (ip : Ipv6Addr) : Bool :=
  if ip.isLoopback || ip.isUnspecified then true
  else (ip.octets 0 == 0xfc || ip.octets 0 == 0xfd) || (ip.octets 0 == 0xfe && ip.octets 1 &&& 0xc0 == 0x80)

def isPublicIpv4 (ip : Ipv4Addr) : Bool :=
  if isPrivateIpv4 ip || ip.isMulticast || ip.isBroadcast then false
  else
    !((ip.a == 192 && ip.b == 0 && ip.c == 2) || (ip.a == 198 && ip.b == 51 && ip.c == 100) ||
      (ip.a == 203 && ip.b == 0 && ip.c == 113) || (ip.a == 198 && ip.b == 18) || 240 ≤ ip.a)

def isPublicIpv6 (ip : Ipv6Addr) : Bool :=
  if isPrivateIpv6 ip || ip.isMulticast then false
  else if ip.octets 0 == 0x20 && ip.octets 1 == 0x01 && ip.octets 2 == 0x0d && ip.octets 3 == 0xb8 then false
  else
    match ip.toIpv4Mapped with
    | some v4 => isPublicIpv4 v4
    | none => true

def isPublicIp : IpAddr → Bool
  | .v4 ip => isPublicIpv4 ip
  | .v6 ip => isPublicIpv6 ip

/-- `host.trim().trim_end_matches('.').to_ascii_lowercase()`. -/
def foldHost (host : List Char) : List Char :=
  ((FrontMatter.trim host).rdropWhile (· == '.')).map Char.toLower

def isBlockedHost (text : List Char) : Bool :=
  let host := foldHost text
  if host.isEmpty then true
  else
    match Ipv4Addr.fromStr host with
    | some ip => !isPublicIpv4 ip
    | none =>
        match Ipv6Addr.fromStr host with
        | some ip => !isPublicIpv6 ip
        | none =>
            if host == "localhost".toList || ".local".toList.isSuffixOf host || ".internal".toList.isSuffixOf host
            then true
            else !host.contains '.'

/-- The host of a parsed URL. -/
inductive Host where
  | domain (name : List Char)
  | ipv4 (ip : Ipv4Addr)
  | ipv6 (ip : Ipv6Addr)

structure Url where
  scheme : String
  host : Option Host

/-- How the URL library writes the address of a bracketed host: hexadecimal groups and colons, the mapped
addresses included. -/
structure HostText where
  ipv6 : Ipv6Addr → List Char
  hex : ∀ ip, ∀ c ∈ ipv6 ip, (toDigit 16 c).isSome ∨ c = ':'

/-- `Url::host_str`. -/
def Url.hostStr (text : HostText) (url : Url) : Option (List Char) :=
  url.host.map fun
    | .domain name => name
    | .ipv4 ip => ip.dotted
    | .ipv6 ip => '[' :: (text.ipv6 ip ++ [']'])

def isUrlAllowed (text : HostText) (url : Url) : Bool :=
  if url.scheme == "http" || url.scheme == "https" then
    match url.hostStr text with
    | none => false
    | some host => !isBlockedHost host
  else false

/-! ### The ranges the module names -/

/-- Loopback, private, link-local, unspecified, shared, protocol assignments, documentation, benchmarking,
multicast, reserved and broadcast. -/
def specialIpv4 : List Cidr.Block :=
  [⟨[127, 0, 0, 0], 8⟩, ⟨[10, 0, 0, 0], 8⟩, ⟨[172, 16, 0, 0], 12⟩, ⟨[192, 168, 0, 0], 16⟩, ⟨[169, 254, 0, 0], 16⟩,
    ⟨[0, 0, 0, 0], 32⟩, ⟨[100, 64, 0, 0], 10⟩, ⟨[192, 0, 0, 0], 24⟩, ⟨[192, 0, 2, 0], 24⟩, ⟨[198, 51, 100, 0], 24⟩,
    ⟨[203, 0, 113, 0], 24⟩, ⟨[198, 18, 0, 0], 15⟩, ⟨[224, 0, 0, 0], 4⟩, ⟨[240, 0, 0, 0], 4⟩,
    ⟨[255, 255, 255, 255], 32⟩]

/-- Loopback, unspecified, unique local, link-local, multicast and documentation. -/
def specialIpv6 : List Cidr.Block :=
  [⟨[0, 0, 0, 0, 0, 0, 0, 0, 0, 0, 0, 0, 0, 0, 0, 1], 128⟩, ⟨[0, 0, 0, 0, 0, 0, 0, 0, 0, 0, 0, 0, 0, 0, 0, 0], 128⟩,
    ⟨[0xfc, 0, 0, 0, 0, 0, 0, 0, 0, 0, 0, 0, 0, 0, 0, 0], 7⟩,
    ⟨[0xfe, 0x80, 0, 0, 0, 0, 0, 0, 0, 0, 0, 0, 0, 0, 0, 0], 10⟩,
    ⟨[0xff, 0, 0, 0, 0, 0, 0, 0, 0, 0, 0, 0, 0, 0, 0, 0], 8⟩,
    ⟨[0x20, 0x01, 0x0d, 0xb8, 0, 0, 0, 0, 0, 0, 0, 0, 0, 0, 0, 0], 32⟩]

def SpecialIpv4 (ip : Ipv4Addr) : Prop := ∃ block ∈ specialIpv4, block.Has ip.octets

def SpecialIpv6 (ip : Ipv6Addr) : Prop := ∃ block ∈ specialIpv6, block.Has (List.ofFn ip.octets)

/-- The second half of the benchmarking range, and what lies around the two blocks of `192.0.0.0/16`. -/
def Misjudged (ip : Ipv4Addr) : Prop :=
  Cidr.Block.Has ⟨[198, 19, 0, 0], 16⟩ ip.octets ∨
    (Cidr.Block.Has ⟨[192, 0, 0, 0], 16⟩ ip.octets ∧ ¬Cidr.Block.Has ⟨[192, 0, 0, 0], 24⟩ ip.octets ∧
      ¬Cidr.Block.Has ⟨[192, 0, 2, 0], 24⟩ ip.octets)

/-- The mask of the two leading bits. -/
theorem and_c0 (o : UInt8) :
    (o &&& 0xc0 = 0x40 ↔ o.toNat / 64 = 1) ∧ (o &&& 0xc0 = 0x80 ↔ o.toNat / 64 = 2) := by
  have hall : ∀ n : Fin 256, (UInt8.ofNat n &&& 0xc0 = 0x40 ↔ n.val / 64 = 1) ∧
      (UInt8.ofNat n &&& 0xc0 = 0x80 ↔ n.val / 64 = 2) := by
    decide +kernel
  have h := hall ⟨o.toNat, o.toNat_lt⟩
  rwa [UInt8.ofNat_toNat] at h

/-- What the named ranges and the code's tests have in common, in octets. -/
def Shared (ip : Ipv4Addr) : Prop :=
  ip.a.toNat = 127 ∨ ip.a.toNat = 10 ∨ (ip.a.toNat = 172 ∧ ip.b.toNat / 16 = 1) ∨
    (ip.a.toNat = 192 ∧ ip.b.toNat = 168) ∨ (ip.a.toNat = 169 ∧ ip.b.toNat = 254) ∨ ip = ⟨0, 0, 0, 0⟩ ∨
    (ip.a.toNat = 100 ∧ ip.b.toNat / 64 = 1) ∨ (ip.a.toNat = 192 ∧ ip.b.toNat = 0 ∧ ip.c.toNat = 2) ∨
    (ip.a.toNat = 198 ∧ ip.b.toNat = 51 ∧ ip.c.toNat = 100) ∨ (ip.a.toNat = 203 ∧ ip.b.toNat = 0 ∧ ip.c.toNat = 113) ∨
    ip.a.toNat / 16 = 14 ∨ ip.a.toNat / 16 = 15 ∨ ip = ⟨255, 255, 255, 255⟩

theorem specialIpv4_iff (ip : Ipv4Addr) :
    SpecialIpv4 ip ↔
      Shared ip ∨ (ip.a.toNat = 192 ∧ ip.b.toNat = 0 ∧ ip.c.toNat = 0) ∨
        (ip.a.toNat = 198 ∧ ip.b.toNat / 2 = 9) := by
  obtain ⟨a, b, c, d⟩ := ip
  have hlt (o : UInt8) : o.toNat < 256 := o.toNat_lt
  simp [SpecialIpv4, specialIpv4, Shared, Ipv4Addr.octets, Cidr.has_cons, Cidr.has_part, Cidr.has_whole, hlt,
    ← UInt8.toNat_inj]
  apply iff_of_eq
  ac_rfl

theorem isPrivateIpv4_iff (ip : Ipv4Addr) :
    isPrivateIpv4 ip = true ↔
      ip.a.toNat = 127 ∨ ip.a.toNat = 10 ∨ (ip.a.toNat = 172 ∧ ip.b.toNat / 16 = 1) ∨
        (ip.a.toNat = 192 ∧ ip.b.toNat = 168) ∨ (ip.a.toNat = 169 ∧ ip.b.toNat = 254) ∨ ip = ⟨0, 0, 0, 0⟩ ∨
        (ip.a.toNat = 100 ∧ ip.b.toNat / 64 = 1) ∨ (ip.a.toNat = 192 ∧ ip.b.toNat = 0) := by
  have hb : ip.b.toNat / 16 = 1 ↔ 16 ≤ ip.b.toNat ∧ ip.b.toNat ≤ 31 := by omega
  rw [hb]
  simp only [isPrivateIpv4, Ipv4Addr.isLoopback, Ipv4Addr.isPrivate, Ipv4Addr.isLinkLocal, Ipv4Addr.isUnspecified,
    Bool.if_true_left, Bool.or_eq_true, Bool.and_eq_true, beq_iff_eq, decide_eq_true_eq, (and_c0 ip.b).1,
    UInt8.le_iff_toNat_le, ← UInt8.toNat_inj, and_assoc, or_assoc]
  exact Iff.rfl

theorem isPublicIpv4_eq_false_iff (ip : Ipv4Addr) :
    isPublicIpv4 ip = false ↔
      Shared ip ∨ (ip.a.toNat = 192 ∧ ip.b.toNat = 0) ∨ (ip.a.toNat = 198 ∧ ip.b.toNat = 18) := by
  have ha : ip.a.toNat < 256 := ip.a.toNat_lt
  have h14 : ip.a.toNat / 16 = 14 ↔ 224 ≤ ip.a.toNat ∧ ip.a.toNat ≤ 239 := by omega
  have h15 : ip.a.toNat / 16 = 15 ↔ 240 ≤ ip.a.toNat := by omega
  have htests : isPublicIpv4 ip = false ↔
      (isPrivateIpv4 ip = true ∨ ip.a.toNat / 16 = 14 ∨ ip = ⟨255, 255, 255, 255⟩) ∨
        (ip.a.toNat = 192 ∧ ip.b.toNat = 0 ∧ ip.c.toNat = 2) ∨ (ip.a.toNat = 198 ∧ ip.b.toNat = 51 ∧ ip.c.toNat = 100) ∨
        (ip.a.toNat = 203 ∧ ip.b.toNat = 0 ∧ ip.c.toNat = 113) ∨ (ip.a.toNat = 198 ∧ ip.b.toNat = 18) ∨
        ip.a.toNat / 16 = 15 := by
    rw [h14, h15]
    simp only [isPublicIpv4, Ipv4Addr.isMulticast, Ipv4Addr.isBroadcast, Bool.if_false_left, Bool.and_eq_false_iff,
      Bool.not_eq_false', Bool.or_eq_true, Bool.and_eq_true, beq_iff_eq, decide_eq_true_eq, UInt8.le_iff_toNat_le,
      ← UInt8.toNat_inj, and_assoc, or_assoc]
    exact Iff.rfl
  rw [htests, isPrivateIpv4_iff, Shared]
  apply iff_of_eq
  ac_rfl

theorem misjudged_iff (ip : Ipv4Addr) :
    Misjudged ip ↔
      (ip.a.toNat = 198 ∧ ip.b.toNat = 19) ∨
        (ip.a.toNat = 192 ∧ ip.b.toNat = 0 ∧ ip.c.toNat ≠ 0 ∧ ip.c.toNat ≠ 2) := by
  obtain ⟨a, b, c, d⟩ := ip
  have hlt (o : UInt8) : o.toNat < 256 := o.toNat_lt
  simp [Misjudged, Ipv4Addr.octets, Cidr.has_cons, Cidr.has_part, hlt, ← UInt8.toNat_inj]
  omega

theorem not_shared_of_misjudged {ip : Ipv4Addr} (h : Misjudged ip) : ¬Shared ip := by
  rw [misjudged_iff] at h
  obtain ⟨a, b, c, d⟩ := ip
  simp only [Shared, Ipv4Addr.mk.injEq, ← UInt8.toNat_inj] at h ⊢
  omega

theorem judged_iff (ip : Ipv4Addr) : (isPublicIpv4 ip = false ↔ SpecialIpv4 ip) ↔ ¬Misjudged ip := by
  rw [isPublicIpv4_eq_false_iff, specialIpv4_iff]
  constructor
  · intro hiff hmis
    have hshared := not_shared_of_misjudged hmis
    rw [misjudged_iff] at hmis
    simp only [hshared, false_or] at hiff
    omega
  · intro hmis
    rw [misjudged_iff] at hmis
    by_cases hshared : Shared ip
    · simp only [hshared, true_or]
    · have hdoc : ¬(ip.a.toNat = 192 ∧ ip.b.toNat = 0 ∧ ip.c.toNat = 2) := by
        intro hdoc
        apply hshared
        simp only [Shared, hdoc, and_self, true_or, or_true]
      simp only [hshared, false_or]
      omega

/-! ### The second address family -/

theorem specialIpv6_iff (ip : Ipv6Addr) :
    SpecialIpv6 ip ↔ isPrivateIpv6 ip = true ∨ ip.isMulticast = true ∨
      (ip.octets 0 = 0x20 ∧ ip.octets 1 = 0x01 ∧ ip.octets 2 = 0x0d ∧ ip.octets 3 = 0xb8) := by
  have hwhole (base : Fin 16 → UInt8) : Cidr.Block.Has ⟨List.ofFn base, 128⟩ (List.ofFn ip.octets) ↔ ip = ⟨base⟩ := by
    have hlen : 8 * (List.ofFn base).length ≤ 128 := by rw [List.length_ofFn]
    rw [Cidr.has_whole hlen, List.ofFn_inj]
    exact ⟨fun h => congrArg Ipv6Addr.mk h, congrArg Ipv6Addr.octets⟩
  have hlo : Cidr.Block.Has ⟨[0, 0, 0, 0, 0, 0, 0, 0, 0, 0, 0, 0, 0, 0, 0, 1], 128⟩ (List.ofFn ip.octets) ↔
      ip.isLoopback = true := by
    rw [Ipv6Addr.isLoopback, beq_iff_eq, ← hwhole]
    exact Iff.rfl
  have hun : Cidr.Block.Has ⟨[0, 0, 0, 0, 0, 0, 0, 0, 0, 0, 0, 0, 0, 0, 0, 0], 128⟩ (List.ofFn ip.octets) ↔
      ip.isUnspecified = true := by
    rw [Ipv6Addr.isUnspecified, beq_iff_eq, ← hwhole]
    exact Iff.rfl
  have hlen : (List.ofFn fun k : Fin 15 => ip.octets k.succ).length = 15 := List.length_ofFn
  have hfc : Cidr.Block.Has ⟨[0xfc, 0, 0, 0, 0, 0, 0, 0, 0, 0, 0, 0, 0, 0, 0, 0], 7⟩ (List.ofFn ip.octets) ↔
      ip.octets 0 = 0xfc ∨ ip.octets 0 = 0xfd := by
    rw [List.ofFn_succ, Cidr.has_part (by decide)]
    simp only [hlen, List.length_cons, List.length_nil, true_and, ← UInt8.toNat_inj]
    show (ip.octets 0).toNat / 2 = 126 ↔ (ip.octets 0).toNat = 252 ∨ (ip.octets 0).toNat = 253
    omega
  have hfe : Cidr.Block.Has ⟨[0xfe, 0x80, 0, 0, 0, 0, 0, 0, 0, 0, 0, 0, 0, 0, 0, 0], 10⟩ (List.ofFn ip.octets) ↔
      ip.octets 0 = 0xfe ∧ ip.octets 1 &&& 0xc0 = 0x80 := by
    rw [List.ofFn_succ, Cidr.has_cons (by decide), List.ofFn_succ, Cidr.has_part (by decide), (and_c0 _).2]
    simp only [List.length_ofFn, List.length_cons, List.length_nil, true_and]
    exact Iff.rfl
  have hff : Cidr.Block.Has ⟨[0xff, 0, 0, 0, 0, 0, 0, 0, 0, 0, 0, 0, 0, 0, 0, 0], 8⟩ (List.ofFn ip.octets) ↔
      ip.isMulticast = true := by
    rw [List.ofFn_succ, Cidr.has_part (by decide), Ipv6Addr.isMulticast, beq_iff_eq, ← UInt8.toNat_inj]
    simp only [hlen, List.length_cons, List.length_nil, true_and]
    show (ip.octets 0).toNat / 1 = 255 ↔ (ip.octets 0).toNat = 255
    rw [Nat.div_one]
  have hdoc : Cidr.Block.Has ⟨[0x20, 0x01, 0x0d, 0xb8, 0, 0, 0, 0, 0, 0, 0, 0, 0, 0, 0, 0], 32⟩ (List.ofFn ip.octets) ↔
      ip.octets 0 = 0x20 ∧ ip.octets 1 = 0x01 ∧ ip.octets 2 = 0x0d ∧ ip.octets 3 = 0xb8 := by
    rw [List.ofFn_succ, Cidr.has_cons (by decide), List.ofFn_succ, Cidr.has_cons (by decide), List.ofFn_succ,
      Cidr.has_cons (by decide), List.ofFn_succ, Cidr.has_part (by decide), ← UInt8.toNat_inj (a := ip.octets 3)]
    simp only [List.length_ofFn, List.length_cons, List.length_nil, true_and]
    show _ ∧ _ ∧ _ ∧ (ip.octets 3).toNat / 1 = 184 ↔ _ ∧ _ ∧ _ ∧ (ip.octets 3).toNat = 184
    rw [Nat.div_one]
    exact Iff.rfl
  have hprivate : isPrivateIpv6 ip = true ↔ ip.isLoopback = true ∨ ip.isUnspecified = true ∨
      (ip.octets 0 = 0xfc ∨ ip.octets 0 = 0xfd) ∨ (ip.octets 0 = 0xfe ∧ ip.octets 1 &&& 0xc0 = 0x80) := by
    simp only [isPrivateIpv6, Bool.if_true_left, Bool.or_eq_true, Bool.and_eq_true, beq_iff_eq, decide_eq_true_eq, or_assoc]
  simp only [SpecialIpv6, specialIpv6, List.mem_cons, List.not_mem_nil, or_false, exists_eq_or_imp, exists_eq_left, hlo,
    hun, hfc, hfe, hff, hdoc, hprivate, or_assoc]

/-- The second half of the guard agrees with the named ranges and with the first half. -/
theorem isPublicIpv6_eq_false_iff (ip : Ipv6Addr) :
    isPublicIpv6 ip = false ↔ SpecialIpv6 ip ∨ ∃ v4, isPublicIpv4 v4 = false ∧ ip = v4.toIpv6Mapped := by
  rw [specialIpv6_iff]
  have hmapped : (match ip.toIpv4Mapped with
      | some v4 => isPublicIpv4 v4
      | none => true) = false ↔ ∃ v4, isPublicIpv4 v4 = false ∧ ip = v4.toIpv6Mapped := by
    simp only [← Ipv6Addr.toIpv4Mapped_eq_some_iff]
    cases ip.toIpv4Mapped with
    | none => simp
    | some v4 => simp
  rw [← hmapped, isPublicIpv6]
  simp only [Bool.if_false_left, Bool.and_eq_false_iff, Bool.not_eq_false', Bool.or_eq_true, Bool.and_eq_true,
    beq_iff_eq, decide_eq_true_eq, or_assoc, and_assoc]

/-! ### Hosts that are addresses -/

/-- The address that a host stands for without a lookup: a literal host's, or the one that a name reads as. -/
def Host.literal : Host → Option IpAddr
  | .domain name => (Ipv4Addr.fromStr (foldHost name)).map .v4 <|> (Ipv6Addr.fromStr (foldHost name)).map .v6
  | .ipv4 ip => some (.v4 ip)
  | .ipv6 ip => some (.v6 ip)

theorem toLower_of_isDigit {c : Char} (h : c.isDigit) : c.toLower = c := by
  have hrange := Text.range_of_isDigit h
  rw [Char.toLower, dif_neg]
  intro hupper
  have hle : 65 ≤ c.toNat := UInt32.le_iff_toNat_le.mp hupper.1
  omega

theorem toLower_ne_dot {c : Char} (h : c ≠ '.') : c.toLower ≠ '.' := by
  intro hdot
  rw [Char.toLower] at hdot
  split at hdot
  · rename_i hupper
    have hle : 65 ≤ c.val.toNat := UInt32.le_iff_toNat_le.mp hupper.1
    have hle' : c.val.toNat ≤ 90 := UInt32.le_iff_toNat_le.mp hupper.2
    have hval : (c.val + 32).toNat = 46 := congrArg Char.toNat hdot
    rw [UInt32.toNat_add] at hval
    have hshift : (32 : UInt32).toNat = 32 := rfl
    omega
  · exact h hdot

/-- Surroundings, final dots and case are already right in the dotted form. -/
theorem foldHost_dotted (ip : Ipv4Addr) : foldHost ip.dotted = ip.dotted := by
  have htrim : FrontMatter.trim ip.dotted = ip.dotted := by
    apply FrontMatter.trim_of_forall
    intro c hc
    rcases Ipv4Addr.mem_dotted hc with hdigit | hdot
    · exact Text.isWhitespace_digit hdigit
    · rw [hdot]
      rfl
  have hdots : ip.dotted.rdropWhile (· == '.') = ip.dotted := by
    apply List.rdropWhile_eq_self_iff.mpr
    intro hne hdot
    have hdigit := Ipv4Addr.getLast?_dotted (List.getLast?_eq_some_getLast hne)
    rw [beq_iff_eq.mp hdot] at hdigit
    exact absurd hdigit (by decide)
  have hlower : ip.dotted.map Char.toLower = ip.dotted := by
    calc ip.dotted.map Char.toLower = ip.dotted.map id := by
          apply List.map_congr_left
          intro c hc
          rcases Ipv4Addr.mem_dotted hc with hdigit | hdot
          · exact toLower_of_isDigit hdigit
          · rw [hdot]
            rfl
      _ = ip.dotted := List.map_id _
  rw [foldHost, htrim, hdots, hlower]

theorem isBlockedHost_dotted (ip : Ipv4Addr) : isBlockedHost ip.dotted = !isPublicIpv4 ip := by
  have hne : ip.dotted.isEmpty = false := by
    rw [List.isEmpty_eq_false_iff, Ipv4Addr.dotted]
    exact List.append_ne_nil_of_left_ne_nil Nat.toDigits_ne_nil _
  rw [isBlockedHost, foldHost_dotted]
  simp only [hne, Ipv4Addr.fromStr_dotted]
  exact if_neg Bool.false_ne_true

/-- No bracketed host reads as an address, and none has a dot: all of them are refused. -/
theorem isBlockedHost_bracketed (text : HostText) (ip : Ipv6Addr) :
    isBlockedHost ('[' :: (text.ipv6 ip ++ [']'])) = true := by
  have htrim : FrontMatter.trim ('[' :: (text.ipv6 ip ++ [']'])) = '[' :: (text.ipv6 ip ++ [']']) := by
    apply FrontMatter.trim_of_ends
    · intro c hc
      rw [← Option.some.inj hc]
      rfl
    · intro c hc
      rw [← List.cons_append, List.getLast?_concat] at hc
      rw [← Option.some.inj hc]
      rfl
  have hdots : ('[' :: (text.ipv6 ip ++ [']'])).rdropWhile (· == '.') = '[' :: (text.ipv6 ip ++ [']']) := by
    rw [← List.cons_append]
    exact List.rdropWhile_concat_neg _ _ _ (by decide)
  have hfold : foldHost ('[' :: (text.ipv6 ip ++ [']'])) = '[' :: (text.ipv6 ip ++ [']']).map Char.toLower := by
    rw [foldHost, htrim, hdots]
    rfl
  have hnodot : ('[' :: (text.ipv6 ip ++ [']']).map Char.toLower).contains '.' = false := by
    rw [List.contains_eq_mem, decide_eq_false_iff_not, List.mem_cons, List.mem_map]
    intro hmem
    rcases hmem with hbracket | ⟨c, hc, hlower⟩
    · exact absurd hbracket (by decide)
    · have hdot : c = '.' := by
        by_contra hne
        exact toLower_ne_dot hne hlower
      rw [hdot] at hc
      rcases List.mem_append.mp hc with hhex | hbracket
      · rcases text.hex ip '.' hhex with hdigit | hcolon
        · exact absurd hdigit (by decide)
        · exact absurd hcolon (by decide)
      · exact absurd (List.mem_singleton.mp hbracket) (by decide)
  rw [isBlockedHost, hfold]
  simp only [List.isEmpty_cons, Ipv4Addr.fromStr_eq_none (c := '[') rfl, Ipv6Addr.fromStr_eq_none (c := '[') rfl rfl (by decide),
    hnodot, Bool.not_false, ite_self]

/-- A host that stands for an address is refused unless the address is public. -/
theorem isUrlAllowed_of_literal (text : HostText) {url : Url} {host : Host} {ip : IpAddr} (hhost : url.host = some host)
    (hliteral : host.literal = some ip) (hip : isPublicIp ip = false) : isUrlAllowed text url = false := by
  have hblocked (h : List Char) (hstr : url.hostStr text = some h) (hb : isBlockedHost h = true) :
      isUrlAllowed text url = false := by
    rw [isUrlAllowed, hstr]
    simp only [hb, Bool.not_true, ite_self]
  cases host with
  | domain name =>
      apply hblocked name (by rw [Url.hostStr, hhost]; rfl)
      rw [Host.literal] at hliteral
      rw [isBlockedHost]
      cases h4 : Ipv4Addr.fromStr (foldHost name) with
      | some v4 =>
          rw [h4] at hliteral
          rw [← Option.some.inj hliteral] at hip
          have hpublic : isPublicIpv4 v4 = false := hip
          simp only [hpublic, Bool.not_false, ite_self]
      | none =>
          rw [h4, Option.map_none] at hliteral
          obtain ⟨v6, h6, hv6⟩ := Option.map_eq_some_iff.mp hliteral
          rw [← hv6] at hip
          have hpublic : isPublicIpv6 v6 = false := hip
          simp only [h6, hpublic, Bool.not_false, ite_self]
  | ipv4 v4 =>
      apply hblocked v4.dotted (by rw [Url.hostStr, hhost]; rfl)
      rw [← Option.some.inj hliteral] at hip
      rw [isBlockedHost_dotted]
      exact congrArg (! ·) hip
  | ipv6 v6 =>
      apply hblocked _ (by rw [Url.hostStr, hhost]; rfl)
      exact isBlockedHost_bracketed text v6

/-- An IPv4 address is judged as the named ranges say exactly when it lies outside the second half of the
benchmarking range and outside the unnamed part of `192.0.0.0/16`. The IPv6 judgement is that of the named
ranges and of the mapped IPv4 address, and no host that stands for an address is fetched from when the
resolver would drop that address. -/
theorem guard_exact_iff (text : HostText) :
    (∀ ip, (isPublicIpv4 ip = false ↔ SpecialIpv4 ip) ↔ ¬Misjudged ip) ∧
      (∀ ip, isPublicIpv6 ip = false ↔ SpecialIpv6 ip ∨ ∃ v4, isPublicIpv4 v4 = false ∧ ip = v4.toIpv6Mapped) ∧
      ∀ url host ip, url.host = some host → host.literal = some ip → isPublicIp ip = false →
        isUrlAllowed text url = false :=
  ⟨judged_iff, isPublicIpv6_eq_false_iff, fun _ _ _ hhost hliteral hip => isUrlAllowed_of_literal text hhost hliteral hip⟩

/-- A group in hexadecimal, without zeros before other digits. -/
def hexGroup (high low : UInt8) : List Char :=
  ([high.toNat / 16, high.toNat % 16, low.toNat / 16].map Nat.digitChar).dropWhile (· == '0') ++
    [Nat.digitChar (low.toNat % 16)]

theorem hex_of_mem_hexGroup {high low : UInt8} {c : Char} (h : c ∈ hexGroup high low) : (toDigit 16 c).isSome := by
  have hnibble : ∀ n : Fin 16, (toDigit 16 (Nat.digitChar n.val)).isSome := by decide
  have hhigh : high.toNat < 256 := high.toNat_lt
  have hlow : low.toNat < 256 := low.toNat_lt
  rcases List.mem_append.mp h with hfront | hlast
  · obtain ⟨n, hn, hc⟩ := List.mem_map.mp ((List.dropWhile_suffix _).subset hfront)
    have hlt : n < 16 := by
      simp only [List.mem_cons, List.not_mem_nil, or_false] at hn
      omega
    rw [← hc]
    exact hnibble ⟨n, hlt⟩
  · rw [List.mem_singleton.mp hlast]
    exact hnibble ⟨low.toNat % 16, Nat.mod_lt _ (by decide)⟩

/-- The text of the addresses that have no two zero groups in a row. -/
def plainText : HostText where
  ipv6 ip :=
    hexGroup (ip.octets 0) (ip.octets 1) ++
      ([(2, 3), (4, 5), (6, 7), (8, 9), (10, 11), (12, 13), (14, 15)] : List (Fin 16 × Fin 16)).flatMap
        fun (high, low) => ':' :: hexGroup (ip.octets high) (ip.octets low)
  hex ip c hc := by
    rcases List.mem_append.mp hc with hfirst | hmore
    · exact Or.inl (hex_of_mem_hexGroup hfirst)
    · obtain ⟨k, -, hk⟩ := List.mem_flatMap.mp hmore
      rcases List.mem_cons.mp hk with hcolon | hgroup
      · exact Or.inr hcolon
      · exact Or.inl (hex_of_mem_hexGroup hgroup)

/-- `http://[fe80:1:1:1:1:1:1:1]/` goes nowhere. -/
theorem guard_exact_link_local :
    isUrlAllowed plainText ⟨"http", some (.ipv6 ⟨![0xfe, 0x80, 0, 1, 0, 1, 0, 1, 0, 1, 0, 1, 0, 1, 0, 1]⟩)⟩ = false :=
  (guard_exact_iff plainText).2.2 _ _ _ rfl rfl (by decide)

/-- `198.19.0.1` is a benchmarking address, and the guard takes it for a public one. -/
theorem not_exact_benchmark :
    ¬∀ ip, isPublicIpv4 ip = false ↔ SpecialIpv4 ip := by
  intro h
  have hspecial : SpecialIpv4 ⟨198, 19, 0, 1⟩ :=
    ⟨⟨[198, 18, 0, 0], 15⟩, by decide, by decide⟩
  exact absurd ((h ⟨198, 19, 0, 1⟩).mpr hspecial) (by decide)

end TinyCortex.Sources
