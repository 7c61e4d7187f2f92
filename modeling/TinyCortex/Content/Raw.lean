import TinyCortex.Content.Paths
import TinyCortex.Lib.Decimal
import TinyCortex.Lib.FrontMatter

/-! The archive of raw provider items (`store/content/raw.rs`): one file per item, named by the slug of its
source, its kind, its clamped timestamp and its cleaned uid, and written over whatever the file holds. -/

namespace TinyCortex.Content

/-- The category of a raw item. -/
inductive RawKind
  | email
  | chat
  | document
  | contact
  | post
  | commit
  | issue
  | pullRequest
  deriving DecidableEq, Repr

/-- The directory of a kind. -/
def RawKind.asDir : RawKind → String
  | .email => "emails"
  | .chat => "chats"
  | .document => "documents"
  | .contact => "contacts"
  | .post => "posts"
  | .commit => "commits"
  | .issue => "issues"
  | .pullRequest => "prs"

/-- One raw item ready to land on disk. -/
structure RawItem where
  uid : String
  createdAtMs : Int
  markdown : String
  kind : RawKind
  deriving DecidableEq, Repr

/-- The characters of a uid that a path cannot hold. -/
def illegalChars : List Char := ['\\', '/', ':', '*', '?', '"', '<', '>', '|', ' ']

/-- One character of `sanitize_uid`. -/
def cleanChar (c : Char) : Char := if c ∈ illegalChars then '-' else c

def sanitizeUid (uid : String) : String :=
  let cleaned := uid.toList.map cleanChar
  if cleaned = [] then "unknown" else String.ofList cleaned

def buildFilename (createdAtMs : Int) (uid : String) : String :=
  toString (max createdAtMs 0) ++ "_" ++ sanitizeUid uid ++ ".md"

def rawSourceDir (sourceId : String) : String := "raw/" ++ slugifySourceId sourceId

def rawKindDir (sourceId : String) (kind : RawKind) : String := rawSourceDir sourceId ++ "/" ++ kind.asDir

/-- The reference of a raw item, relative to the content root. -/
def rawRelPath (sourceId : String) (kind : RawKind) (createdAtMs : Int) (uid : String) : String :=
  "raw/" ++ slugifySourceId sourceId ++ "/" ++ kind.asDir ++ "/" ++ buildFilename createdAtMs uid

/-- The files below the content root, by their relative paths. -/
abbrev RawFiles := String → Option String

/-- The loop of `write_raw_items`. `disk` says which of its writes get through: the first that does not
ends the batch with an error, and its file is as it was, since only a finished temporary file is renamed. -/
def writeLoop (disk : Nat → Bool) (sourceId : String) : List RawItem → Nat → RawFiles → RawFiles × Option Nat
  | [], written, files => (files, some written)
  | item :: items, written, files =>
      let path := rawKindDir sourceId item.kind ++ "/" ++ buildFilename item.createdAtMs item.uid
      if disk written then
        writeLoop disk sourceId items (written + 1) (Function.update files path (some item.markdown))
      else (files, none)

def writeRawItems (disk : Nat → Bool) (sourceId : String) (items : List RawItem) (files : RawFiles) :
    RawFiles × Option Nat :=
  writeLoop disk sourceId items 0 files

/-- The reference of an item of a source. -/
def RawItem.relPath (item : RawItem) (sourceId : String) : String :=
  rawRelPath sourceId item.kind item.createdAtMs item.uid

/-- What makes an item: its source, its kind and its uid upstream. -/
def RawItem.identity (item : RawItem) (sourceId : String) : String × RawKind × String :=
  (sourceId, item.kind, item.uid)

/-- Two characters that a filename does not tell apart. -/
def SameChar (c d : Char) : Prop :=
  c = d ∨ (c ∈ illegalChars ∨ c = '-') ∧ (d ∈ illegalChars ∨ d = '-')

/-- Two uids that a filename does not tell apart: the same up to characters that become dashes, or the
empty one and the word that stands for it. -/
def SameUid (uid uid' : String) : Prop :=
  List.Forall₂ SameChar uid.toList uid'.toList ∨ uid = "" ∧ uid' = "unknown" ∨ uid = "unknown" ∧ uid' = ""

/-- Two items that share a file. -/
structure Collide (sourceId : String) (item : RawItem) (sourceId' : String) (item' : RawItem) : Prop where
  slug : slugifySourceId sourceId = slugifySourceId sourceId'
  kind : item.kind = item'.kind
  time : max item.createdAtMs 0 = max item'.createdAtMs 0
  uid : SameUid item.uid item'.uid

theorem RawKind.asDir_inj {kind kind' : RawKind} (h : kind.asDir.toList = kind'.asDir.toList) : kind = kind' := by
  revert h
  cases kind <;> cases kind' <;> decide

theorem RawKind.slash_not_mem (kind : RawKind) : '/' ∉ kind.asDir.toList := by
  cases kind <;> decide

theorem slash_not_mem_slug (sourceId : String) : '/' ∉ (slugifySourceId sourceId).toList := by
  intro h
  have hsafe := (slugifySourceId_safe sourceId).2.2 _ h
  exact absurd hsafe (by decide)

theorem cleanChar_eq_iff (c d : Char) : cleanChar c = cleanChar d ↔ SameChar c d := by
  have hdash : '-' ∉ illegalChars := by decide
  unfold cleanChar SameChar
  by_cases hc : c ∈ illegalChars
  · by_cases hd : d ∈ illegalChars
    · simp [hc, hd]
    · have hne : c ≠ d := fun h => hd (h ▸ hc)
      simp [hc, hd, hne, eq_comm]
  · by_cases hd : d ∈ illegalChars
    · have hne : c ≠ d := fun h => hc (h ▸ hd)
      simp [hc, hd, hne]
    · simp only [hc, hd, if_false, false_or]
      constructor
      · exact Or.inl
      · rintro (h | ⟨rfl, rfl⟩)
        · exact h
        · exact Eq.refl _

theorem map_cleanChar_eq_iff (chars chars' : List Char) :
    chars.map cleanChar = chars'.map cleanChar ↔ List.Forall₂ SameChar chars chars' := by
  rw [← List.forall₂_eq_eq_eq, List.forall₂_map_left_iff, List.forall₂_map_right_iff]
  constructor
  · exact fun h => h.imp fun c d => (cleanChar_eq_iff c d).mp
  · exact fun h => h.imp fun c d => (cleanChar_eq_iff c d).mpr

/-- A cleaned text without a dash was clean. -/
theorem eq_of_map_cleanChar {chars cleaned : List Char} (h : chars.map cleanChar = cleaned) (hdash : '-' ∉ cleaned) :
    chars = cleaned := by
  induction chars generalizing cleaned with
  | nil => exact h
  | cons c chars ih =>
      subst h
      obtain ⟨hhead, htail⟩ := not_or.mp (mt List.mem_cons.mpr hdash)
      rw [List.map_cons, ← ih (Eq.refl _) htail]
      by_cases hc : c ∈ illegalChars
      · rw [cleanChar, if_pos hc] at hhead
        exact absurd (Eq.refl _) hhead
      · rw [cleanChar, if_neg hc]

theorem eq_unknown_of_map {uid : String} (h : uid.toList.map cleanChar = "unknown".toList) : uid = "unknown" :=
  String.toList_inj.mp (eq_of_map_cleanChar h (by decide))

/-- Which uids share their part of the filename. -/
theorem sanitizeUid_eq_iff (uid uid' : String) : sanitizeUid uid = sanitizeUid uid' ↔ SameUid uid uid' := by
  unfold sanitizeUid SameUid
  dsimp only
  rw [← map_cleanChar_eq_iff]
  simp only [List.map_eq_nil_iff]
  have hempty : ∀ s : String, s.toList = [] ↔ s = "" := fun s =>
    ⟨fun h => String.toList_inj.mp h, fun h => by rw [h]; decide⟩
  simp only [hempty]
  by_cases h : uid = "" <;> by_cases h' : uid' = ""
  · simp [h, h']
  · rw [if_pos h, if_neg h', h]
    constructor
    · intro heq
      have hchars := String.toList_ofList.symm.trans (congrArg String.toList heq.symm)
      exact Or.inr (Or.inl ⟨Eq.refl _, eq_unknown_of_map hchars⟩)
    · rintro (heq | ⟨-, rfl⟩ | ⟨hne, -⟩)
      · exact absurd ((hempty _).mp (List.map_eq_nil_iff.mp heq.symm)) h'
      · decide
      · exact absurd hne (by decide)
  · rw [if_neg h, if_pos h', h']
    constructor
    · intro heq
      have hchars := String.toList_ofList.symm.trans (congrArg String.toList heq)
      exact Or.inr (Or.inr ⟨eq_unknown_of_map hchars, Eq.refl _⟩)
    · rintro (heq | ⟨hne, -⟩ | ⟨rfl, -⟩)
      · exact absurd ((hempty _).mp (List.map_eq_nil_iff.mp heq)) h
      · exact absurd hne h
      · decide
  · rw [if_neg h, if_neg h']
    simp only [h, h', false_and, and_false, or_false]
    constructor
    · intro heq
      have hchars := congrArg String.toList heq
      rwa [String.toList_ofList, String.toList_ofList] at hchars
    · exact congrArg String.ofList

/-- Which items share a reference. -/
theorem relPath_eq_iff (sourceId sourceId' : String) (item item' : RawItem) :
    item.relPath sourceId = item'.relPath sourceId' ↔ Collide sourceId item sourceId' item' := by
  constructor
  · intro h
    have hchars := congrArg String.toList h
    simp only [RawItem.relPath, rawRelPath, buildFilename, String.toList_append, List.append_assoc] at hchars
    have hslash : "/".toList = ['/'] := by decide
    have hunder : "_".toList = ['_'] := by decide
    simp only [hslash, hunder, List.singleton_append] at hchars
    obtain ⟨hslug, hchars⟩ := FrontMatter.append_sep_inj (slash_not_mem_slug _) (slash_not_mem_slug _)
      (List.append_cancel_left hchars)
    obtain ⟨hkind, hchars⟩ := FrontMatter.append_sep_inj (RawKind.slash_not_mem _) (RawKind.slash_not_mem _) hchars
    -- A decimal number has no underscore in it, so that the first one of the filename ends the timestamp.
    have hnumber : ∀ n : Int, '_' ∉ (toString n).toList := by
      intro n hmem
      rcases Decimal.isDigit_of_mem hmem with hc | hc
      · exact absurd hc (by decide)
      · exact absurd hc (by decide)
    obtain ⟨htime, hchars⟩ := FrontMatter.append_sep_inj (hnumber _) (hnumber _) hchars
    exact ⟨String.toList_inj.mp hslug, RawKind.asDir_inj hkind, Decimal.toString_inj (String.toList_inj.mp htime),
      (sanitizeUid_eq_iff _ _).mp (String.toList_inj.mp (List.append_cancel_right hchars))⟩
  · intro h
    unfold RawItem.relPath rawRelPath buildFilename
    rw [h.slug, h.kind, h.time, (sanitizeUid_eq_iff _ _).mpr h.uid]

/-- An item is written where its reference points. -/
theorem writeLoop_cons (disk : Nat → Bool) (sourceId : String) (item : RawItem) (items : List RawItem)
    (written : Nat) (files : RawFiles) :
    writeLoop disk sourceId (item :: items) written files =
      if disk written then
        writeLoop disk sourceId items (written + 1)
          (Function.update files (item.relPath sourceId) (some item.markdown))
      else (files, none) := by
  have hpath : rawKindDir sourceId item.kind ++ "/" ++ buildFilename item.createdAtMs item.uid =
      item.relPath sourceId := by
    simp only [rawKindDir, rawSourceDir, RawItem.relPath, rawRelPath, String.append_assoc]
  rw [writeLoop, hpath]

/-- A batch touches the files of its items only, wherever it stops. -/
theorem writeLoop_other {sourceId path : String} {items : List RawItem}
    (h : ∀ item ∈ items, item.relPath sourceId ≠ path) (disk : Nat → Bool) (written : Nat) (files : RawFiles) :
    (writeLoop disk sourceId items written files).1 path = files path := by
  induction items generalizing written files with
  | nil => rfl
  | cons item items ih =>
      obtain ⟨hitem, hitems⟩ := List.forall_mem_cons.mp h
      rw [writeLoop_cons]
      split
      · rw [ih hitems]
        exact Function.update_of_ne hitem.symm _ _
      · rfl

/-- A batch that gets through leaves the last item written to a file in it. -/
theorem writeLoop_last {disk : Nat → Bool} (hdisk : ∀ n, disk n = true) (sourceId : String) (item : RawItem)
    (items : List RawItem) (written : Nat) (files : RawFiles)
    (h : ∀ other ∈ items, other.relPath sourceId ≠ item.relPath sourceId) :
    (writeLoop disk sourceId (item :: items) written files).1 (item.relPath sourceId) = some item.markdown := by
  rw [writeLoop_cons, hdisk, if_pos (Eq.refl _), writeLoop_other h]
  exact Function.update_self _ _ _

end TinyCortex.Content
