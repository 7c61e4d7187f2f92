import TinyCortex.Lib.FrontMatter
import TinyCortex.Lib.PathName

/-! Machine identifiers as path components (`fsutil.rs`), and the directories that are named by them: the
namespaces of the time tree (`tree/runtime/store/paths.rs`) and the sessions of the archivist
(`archivist/store.rs`). -/

namespace TinyCortex.Content

section Component

/- `Sha256::digest`. -/
variable (sha256 : List UInt8 → Fin 32 → UInt8)

/-- `{byte:02x}`. -/
def lowerHexByte (byte : UInt8) : List Char :=
  [Nat.digitChar (byte.toNat / 16), Nat.digitChar (byte.toNat % 16)]

/-- The first six bytes of the digest. -/
def shortDigest (raw : List Char) : List UInt8 :=
  List.ofFn fun k : Fin 6 => sha256 (raw.flatMap String.utf8EncodeChar) (k.castLE (by decide))

/-- Every character that is not allowed becomes an underscore. -/
def masked (allowed : Char → Bool) (raw : List Char) : List Char := raw.map fun c => if allowed c then c else '_'

def sanitizeComponentWithDigest (allowed : Char → Bool) (raw : List Char) : List Char :=
  let sanitized := masked allowed raw
  if sanitized = raw ∧ sanitized ≠ [] then sanitized
  else sanitized ++ '-' :: (shortDigest sha256 raw).flatMap lowerHexByte

/-- The predicate of `sanitize`. -/
def allowedInNamespace (c : Char) : Bool :=
  !(c == '/' || c == '\\' || c == ':' || c == '*' || c == '?' || c == '"' || c == '<' || c == '>' || c == '|' || c == '.')

/-- The directory of a namespace. -/
def sanitizeNamespaceDir (ns : List Char) : List Char :=
  sanitizeComponentWithDigest sha256 allowedInNamespace (FrontMatter.trim ns)

/-- The predicate of `sanitize_session`; letters and digits are those of Unicode. -/
def allowedInSession (isAlphanumeric : Char → Bool) (c : Char) : Bool := isAlphanumeric c || c == '-' || c == '_'

/-- The directory of a session. -/
def sanitizeSession (isAlphanumeric : Char → Bool) (session : List Char) : List Char :=
  sanitizeComponentWithDigest sha256 (allowedInSession isAlphanumeric) session

/-! ### Which names are kept -/

/-- A name that keeps its spelling. -/
def Plain (allowed : Char → Bool) (raw : List Char) : Prop := raw ≠ [] ∧ ∀ c ∈ raw, allowed c = true ∨ c = '_'

/-- A plain name that spells out the masked text and the digest of another name, which is not plain. -/
def SpellsOut (allowed : Char → Bool) (name raw : List Char) : Prop :=
  Plain allowed name ∧ ¬Plain allowed raw ∧
    name = masked allowed raw ++ '-' :: (shortDigest sha256 raw).flatMap lowerHexByte

/-- The predicate lets no separator of the name through, and no dot of a reserved name. -/
def Guarded (allowed : Char → Bool) (raw : List Char) : Prop :=
  (∀ sep ∈ PathName.separators, sep ∈ raw → allowed sep = false) ∧
    (raw = ['.'] ∨ raw = ['.', '.'] → allowed '.' = false)

variable {allowed : Char → Bool} {raw other : List Char}

theorem masked_eq_self_iff : masked allowed raw = raw ↔ ∀ c ∈ raw, allowed c = true ∨ c = '_' := by
  have hmap : masked allowed raw = raw ↔ raw.map (fun c => if allowed c then c else '_') = raw.map id := by
    rw [masked, List.map_id]
  rw [hmap, List.map_inj_left]
  apply forall₂_congr
  intro c _
  by_cases hc : allowed c = true
  · simp only [hc, if_true, id, true_or]
  · rw [Bool.not_eq_true] at hc
    simp only [hc, Bool.false_eq_true, if_false, false_or, id]
    exact eq_comm

theorem sanitize_of_plain (h : Plain allowed raw) : sanitizeComponentWithDigest sha256 allowed raw = raw := by
  have hself := masked_eq_self_iff.mpr h.2
  unfold sanitizeComponentWithDigest
  rw [hself]
  exact if_pos ⟨Eq.refl raw, h.1⟩

theorem sanitize_of_not_plain (h : ¬Plain allowed raw) :
    sanitizeComponentWithDigest sha256 allowed raw =
      masked allowed raw ++ '-' :: (shortDigest sha256 raw).flatMap lowerHexByte := by
  rw [sanitizeComponentWithDigest, if_neg]
  intro ⟨hself, hne⟩
  exact h ⟨hself ▸ hne, masked_eq_self_iff.mp hself⟩

/-! ### Digests in hexadecimal -/

theorem lowerHexByte_inj {a b : UInt8} (h : lowerHexByte a = lowerHexByte b) : a = b := by
  have hdigit : ∀ m < 16, ∀ n < 16, Nat.digitChar m = Nat.digitChar n → m = n := by decide
  have ha : a.toNat < 256 := a.toNat_lt
  have hb : b.toNat < 256 := b.toNat_lt
  obtain ⟨hhigh, hrest⟩ := List.cons.inj h
  have hq := hdigit (a.toNat / 16) (by omega) (b.toNat / 16) (by omega) hhigh
  have hr := hdigit (a.toNat % 16) (by omega) (b.toNat % 16) (by omega) (List.cons.inj hrest).1
  apply UInt8.toNat_inj.mp
  omega

theorem hex_inj {bytes bytes' : List UInt8} (h : bytes.flatMap lowerHexByte = bytes'.flatMap lowerHexByte) :
    bytes = bytes' := by
  induction bytes generalizing bytes' with
  | nil =>
      cases bytes' with
      | nil => rfl
      | cons b bytes' => cases h
  | cons a bytes ih =>
      cases bytes' with
      | nil => cases h
      | cons b bytes' =>
          rw [List.flatMap_cons, List.flatMap_cons] at h
          obtain ⟨hbyte, hrest⟩ := List.append_inj h rfl
          rw [lowerHexByte_inj hbyte, ih hrest]

theorem length_hex (bytes : List UInt8) : (bytes.flatMap lowerHexByte).length = 2 * bytes.length := by
  induction bytes with
  | nil => rfl
  | cons b bytes ih =>
      rw [List.flatMap_cons, List.length_append, ih, List.length_cons]
      show 2 + 2 * bytes.length = 2 * (bytes.length + 1)
      omega

/-- The digits are lowercase hexadecimal ones. -/
theorem mem_hex {bytes : List UInt8} {c : Char} (h : c ∈ bytes.flatMap lowerHexByte) :
    c ∈ "0123456789abcdef".toList := by
  have hall : ∀ n < 256, ∀ c ∈ lowerHexByte (UInt8.ofNat n), c ∈ "0123456789abcdef".toList := by decide +kernel
  obtain ⟨b, -, hb⟩ := List.mem_flatMap.mp h
  rw [← UInt8.ofNat_toNat (x := b)] at hb
  exact hall b.toNat b.toNat_lt c hb

/-! ### Collisions and safety -/

/-- Two digested names are equal only if the digests are. -/
theorem shortDigest_eq_of_append (h : masked allowed raw ++ '-' :: (shortDigest sha256 raw).flatMap lowerHexByte =
    masked allowed other ++ '-' :: (shortDigest sha256 other).flatMap lowerHexByte) :
    shortDigest sha256 raw = shortDigest sha256 other := by
  have hlen : ('-' :: (shortDigest sha256 raw).flatMap lowerHexByte).length =
      ('-' :: (shortDigest sha256 other).flatMap lowerHexByte).length := by
    simp only [List.length_cons, length_hex, shortDigest, List.length_ofFn]
  have htail := (List.append_inj' h hlen).2
  exact hex_inj (List.cons.inj htail).2

/-- Two names whose digests tell them apart share a component exactly when one spells out the other's. -/
theorem sanitize_eq_iff (hne : raw ≠ other) (hdigest : shortDigest sha256 raw = shortDigest sha256 other → raw = other) :
    sanitizeComponentWithDigest sha256 allowed raw = sanitizeComponentWithDigest sha256 allowed other ↔
      SpellsOut sha256 allowed raw other ∨ SpellsOut sha256 allowed other raw := by
  by_cases hraw : Plain allowed raw
  · by_cases hother : Plain allowed other
    · rw [sanitize_of_plain sha256 hraw, sanitize_of_plain sha256 hother]
      simp only [hne, SpellsOut, hraw, hother, not_true_eq_false, false_and, and_false, or_self]
    · rw [sanitize_of_plain sha256 hraw, sanitize_of_not_plain sha256 hother]
      simp only [SpellsOut, hraw, hother, not_false_eq_true, true_and, false_and, or_false]
  · by_cases hother : Plain allowed other
    · rw [sanitize_of_not_plain sha256 hraw, sanitize_of_plain sha256 hother, eq_comm]
      simp only [SpellsOut, hraw, hother, not_false_eq_true, true_and, false_and, false_or]
    · rw [sanitize_of_not_plain sha256 hraw, sanitize_of_not_plain sha256 hother]
      simp only [SpellsOut, hraw, hother, false_and, or_self, iff_false]
      intro h
      exact hne (hdigest (shortDigest_eq_of_append sha256 h))

theorem safe_iff_guarded : PathName.Safe (sanitizeComponentWithDigest sha256 allowed raw) ↔ Guarded allowed raw := by
  have hunder : ∀ sep ∈ PathName.separators, sep ≠ '_' := by decide
  by_cases hraw : Plain allowed raw
  · rw [sanitize_of_plain sha256 hraw]
    constructor
    · intro hsafe
      refine ⟨fun sep hsep hmem => absurd hmem (hsafe.whole sep hsep), ?_⟩
      intro hdots
      rcases hdots with hdot | hdots
      · exact absurd hdot hsafe.ne_dot
      · exact absurd hdots hsafe.ne_dots
    · intro ⟨hsep, hdots⟩
      have hallowed {c : Char} (hc : c ∈ raw) (hne : c ≠ '_') : allowed c = true := (hraw.2 c hc).resolve_right hne
      refine ⟨hraw.1, ?_, ?_, ?_⟩
      · intro sep hmem hin
        have htrue := hallowed hin (hunder sep hmem)
        rw [hsep sep hmem hin] at htrue
        cases htrue
      · intro hdot
        have htrue : allowed '.' = true := hallowed (hdot ▸ List.mem_cons_self) (by decide)
        rw [hdots (Or.inl hdot)] at htrue
        cases htrue
      · intro hdot
        have htrue : allowed '.' = true := hallowed (hdot ▸ List.mem_cons_self) (by decide)
        rw [hdots (Or.inr hdot)] at htrue
        cases htrue
  · rw [sanitize_of_not_plain sha256 hraw]
    constructor
    · intro hsafe
      constructor
      · intro sep hsep hmem
        by_contra htrue
        rw [Bool.not_eq_false] at htrue
        refine hsafe.whole sep hsep (List.mem_append_left _ (List.mem_map.mpr ⟨sep, hmem, ?_⟩))
        rw [if_pos htrue]
      · intro hdots
        by_contra htrue
        rw [Bool.not_eq_false] at htrue
        apply hraw
        rcases hdots with hdot | hdots
        · rw [hdot]
          exact ⟨List.cons_ne_nil _ _, by simp [htrue]⟩
        · rw [hdots]
          exact ⟨List.cons_ne_nil _ _, by simp [htrue]⟩
    · intro ⟨hsep, _⟩
      apply PathName.Safe.of_mem (List.mem_append_right _ List.mem_cons_self) (by decide)
      intro sep hmem hin
      rcases List.mem_append.mp hin with hmasked | hdigest
      · obtain ⟨c, hc, hmap⟩ := List.mem_map.mp hmasked
        by_cases htrue : allowed c = true
        · rw [if_pos htrue] at hmap
          rw [hmap] at hc htrue
          rw [hsep sep hmem hc] at htrue
          cases htrue
        · rw [if_neg htrue] at hmap
          exact hunder sep hmem hmap.symm
      · rcases List.mem_cons.mp hdigest with hdash | hhex
        · have hnot : ∀ sep ∈ PathName.separators, sep ≠ '-' := by decide
          exact hnot sep hmem hdash
        · have hnot : ∀ sep ∈ PathName.separators, sep ∉ "0123456789abcdef".toList := by decide
          exact hnot sep hmem (mem_hex hhex)

theorem guarded_namespace (raw : List Char) : Guarded allowedInNamespace raw := by
  have hall : ∀ sep ∈ PathName.separators, allowedInNamespace sep = false := by decide
  refine ⟨fun sep hsep _ => hall sep hsep, fun _ => ?_⟩
  decide

theorem guarded_session {isAlphanumeric : Char → Bool} (hdot : isAlphanumeric '.' = false)
    (hsep : ∀ sep ∈ PathName.separators, isAlphanumeric sep = false) (raw : List Char) :
    Guarded (allowedInSession isAlphanumeric) raw := by
  have hall : ∀ sep ∈ PathName.separators, (sep == '-' || sep == '_') = false := by decide
  constructor
  · intro sep hmem _
    rw [allowedInSession, hsep sep hmem, Bool.or_assoc, hall sep hmem]
    rfl
  · intro _
    rw [allowedInSession, hdot]
    rfl

/-- Two names whose digests tell them apart get two components, and a name gets a safe one, exactly when neither
name is a plain one that spells out the component of the other and the predicate lets no separator of the name
through. The predicates of namespaces and sessions never do; namespaces are told apart without the space around
them. -/
theorem components_apart_iff (isAlphanumeric : Char → Bool) (hdot : isAlphanumeric '.' = false)
    (hsep : ∀ sep ∈ PathName.separators, isAlphanumeric sep = false) :
    (∀ allowed raw other, raw ≠ other → (shortDigest sha256 raw = shortDigest sha256 other → raw = other) →
      ((sanitizeComponentWithDigest sha256 allowed raw ≠ sanitizeComponentWithDigest sha256 allowed other ∧
          PathName.Safe (sanitizeComponentWithDigest sha256 allowed raw)) ↔
        ¬(SpellsOut sha256 allowed raw other ∨ SpellsOut sha256 allowed other raw) ∧ Guarded allowed raw)) ∧
      (∀ ns other, FrontMatter.trim ns ≠ FrontMatter.trim other →
        (shortDigest sha256 (FrontMatter.trim ns) = shortDigest sha256 (FrontMatter.trim other) →
          FrontMatter.trim ns = FrontMatter.trim other) →
        ((sanitizeNamespaceDir sha256 ns ≠ sanitizeNamespaceDir sha256 other ∧
            PathName.Safe (sanitizeNamespaceDir sha256 ns)) ↔
          ¬(SpellsOut sha256 allowedInNamespace (FrontMatter.trim ns) (FrontMatter.trim other) ∨
            SpellsOut sha256 allowedInNamespace (FrontMatter.trim other) (FrontMatter.trim ns)))) ∧
      ∀ session other, session ≠ other →
        (shortDigest sha256 session = shortDigest sha256 other → session = other) →
        ((sanitizeSession sha256 isAlphanumeric session ≠ sanitizeSession sha256 isAlphanumeric other ∧
            PathName.Safe (sanitizeSession sha256 isAlphanumeric session)) ↔
          ¬(SpellsOut sha256 (allowedInSession isAlphanumeric) session other ∨
            SpellsOut sha256 (allowedInSession isAlphanumeric) other session)) := by
  have hgeneral (allowed : Char → Bool) (raw other : List Char) (hne : raw ≠ other)
      (hdigest : shortDigest sha256 raw = shortDigest sha256 other → raw = other) :
      (sanitizeComponentWithDigest sha256 allowed raw ≠ sanitizeComponentWithDigest sha256 allowed other ∧
          PathName.Safe (sanitizeComponentWithDigest sha256 allowed raw)) ↔
        ¬(SpellsOut sha256 allowed raw other ∨ SpellsOut sha256 allowed other raw) ∧ Guarded allowed raw :=
    and_congr (not_congr (sanitize_eq_iff sha256 hne hdigest)) (safe_iff_guarded sha256)
  refine ⟨hgeneral, ?_, ?_⟩
  · intro ns other hne hdigest
    have hiff := hgeneral allowedInNamespace _ _ hne hdigest
    rwa [and_iff_left (guarded_namespace _)] at hiff
  · intro session other hne hdigest
    have hiff := hgeneral (allowedInSession isAlphanumeric) _ _ hne hdigest
    rwa [and_iff_left (guarded_session hdot hsep _)] at hiff

end Component

/-- The digests of two names. -/
def twoDigests (bytes : List UInt8) (k : Fin 32) : UInt8 :=
  if bytes = "x/y".toList.flatMap String.utf8EncodeChar then
    [189, 60, 144, 71, 214, 129, 108, 49, 114, 245, 45, 219, 66, 191, 119, 199, 44, 160, 37, 228, 210, 42,
    203, 255, 62, 155, 189, 74, 181, 185, 4, 139].getD k.val 0
  else if bytes = "x:y".toList.flatMap String.utf8EncodeChar then
    [18, 116, 226, 134, 104, 107, 84, 254, 118, 94, 196, 7, 53, 102, 91, 75, 247, 137, 206, 226, 165, 178,
    33, 36, 197, 224, 73, 26, 136, 225, 82, 113].getD k.val 0
  else 0

/-- The namespaces `x/y` and `x:y` have directories of their own. -/
theorem components_apart_masked :
    sanitizeNamespaceDir twoDigests "x/y".toList ≠ sanitizeNamespaceDir twoDigests "x:y".toList ∧
      PathName.Safe (sanitizeNamespaceDir twoDigests "x/y".toList) := by
  refine ((components_apart_iff twoDigests Char.isAlphanum rfl (by decide)).2.1 _ _ (by decide)
    (fun h => absurd h (by decide +kernel))).mpr ?_
  intro h
  rcases h with hspells | hspells
  · exact absurd hspells.1.2 (by decide)
  · exact absurd hspells.1.2 (by decide)

/-- The namespace that is spelled like the directory of `x/y` shares it. -/
theorem not_apart_spelled :
    ¬∀ ns other, FrontMatter.trim ns ≠ FrontMatter.trim other →
      shortDigest twoDigests (FrontMatter.trim ns) ≠ shortDigest twoDigests (FrontMatter.trim other) →
      sanitizeNamespaceDir twoDigests ns ≠ sanitizeNamespaceDir twoDigests other := by
  intro h
  exact h "x_y-bd3c9047d681".toList "x/y".toList (by decide) (by decide +kernel) (by decide +kernel)

end TinyCortex.Content
