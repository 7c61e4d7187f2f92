import TinyCortex.Lib.Text
import TinyCortex.Lib.Windows
import TinyCortex.Lib.I64
import TinyCortex.Conversations.Jsonl

/-! Normalization and n-grams (`conversations/tokenize.rs`). `char::to_lowercase` is a table of the
standard library; everything after it is spelled out. -/

namespace TinyCortex.Conversations

/-- Full-width ASCII to ASCII, and the ideographic space to a space. -/
def fullwidthToAscii (c : Char) : Option Char :=
  if 0xFF01 ≤ c.toNat ∧ c.toNat ≤ 0xFF5E then some (Char.ofNat (c.toNat - 0xFEE0))
  else if c.toNat = 0x3000 then some ' '
  else none

/-- Letters without a decomposition. -/
def foldNonDecomposing : Char → Option (List Char)
  | 'ł' => some ['l']
  | 'ø' => some ['o']
  | 'ß' => some ['s', 's']
  | 'æ' => some ['a', 'e']
  | 'œ' => some ['o', 'e']
  | 'þ' => some ['t', 'h']
  | 'ð' => some ['d']
  | 'đ' => some ['d']
  | 'ħ' => some ['h']
  | 'ı' => some ['i']
  | 'ŋ' => some ['n']
  | _ => none

def latinDiacritics : List (List Char × Char) :=
  [(['à', 'á', 'â', 'ã', 'ä', 'å'], 'a'), (['ç'], 'c'), (['è', 'é', 'ê', 'ë'], 'e'),
    (['ì', 'í', 'î', 'ï'], 'i'), (['ñ'], 'n'), (['ò', 'ó', 'ô', 'õ', 'ö'], 'o'),
    (['ù', 'ú', 'û', 'ü'], 'u'), (['ý', 'ÿ'], 'y'), (['ā', 'ă', 'ą'], 'a'),
    (['ć', 'ĉ', 'ċ', 'č'], 'c'), (['ď'], 'd'), (['ē', 'ĕ', 'ė', 'ę', 'ě'], 'e'),
    (['ĝ', 'ğ', 'ġ', 'ģ'], 'g'), (['ĥ'], 'h'), (['ĩ', 'ī', 'ĭ', 'į'], 'i'), (['ĵ'], 'j'),
    (['ķ'], 'k'), (['ĺ', 'ļ', 'ľ', 'ŀ'], 'l'), (['ń', 'ņ', 'ň'], 'n'), (['ō', 'ŏ', 'ő'], 'o'),
    (['ŕ', 'ŗ', 'ř'], 'r'), (['ś', 'ŝ', 'ş', 'š'], 's'), (['ţ', 'ť', 'ŧ'], 't'),
    (['ũ', 'ū', 'ŭ', 'ů', 'ű', 'ų'], 'u'), (['ŵ'], 'w'), (['ŷ'], 'y'), (['ź', 'ż', 'ž'], 'z')]

/-- A precomposed accented Latin letter to its base letter. -/
def stripLatinDiacritic (c : Char) : Option Char :=
  (latinDiacritics.find? fun row => c ∈ row.1).map (·.2)

def combiningMarks : List (Nat × Nat) :=
  [(0x0300, 0x036F), (0x0483, 0x0489), (0x0591, 0x05BD), (0x05BF, 0x05BF), (0x05C1, 0x05C2),
    (0x05C4, 0x05C5), (0x05C7, 0x05C7), (0x0610, 0x061A), (0x064B, 0x065F), (0x0670, 0x0670),
    (0x06D6, 0x06DC), (0x06DF, 0x06E4), (0x06E7, 0x06E8), (0x06EA, 0x06ED), (0xFE20, 0xFE2F)]

def isCombiningMark (c : Char) : Bool :=
  combiningMarks.any fun range => range.1 ≤ c.toNat && c.toNat ≤ range.2

/-- Full-width katakana for U+FF66 to U+FF9D, in order. -/
def hwKatakana : List Nat :=
  [0x30F2, 0x30A1, 0x30A3, 0x30A5, 0x30A7, 0x30A9, 0x30E3, 0x30E5, 0x30E7, 0x30C3, 0x30FC,
    0x30A2, 0x30A4, 0x30A6, 0x30A8, 0x30AA, 0x30AB, 0x30AD, 0x30AF, 0x30B1, 0x30B3, 0x30B5,
    0x30B7, 0x30B9, 0x30BB, 0x30BD, 0x30BF, 0x30C1, 0x30C4, 0x30C6, 0x30C8, 0x30CA, 0x30CB,
    0x30CC, 0x30CD, 0x30CE, 0x30CF, 0x30D2, 0x30D5, 0x30D8, 0x30DB, 0x30DE, 0x30DF, 0x30E0,
    0x30E1, 0x30E2, 0x30E4, 0x30E6, 0x30E8, 0x30E9, 0x30EA, 0x30EB, 0x30EC, 0x30ED, 0x30EF,
    0x30F3]

def halfwidthToFullwidth (c : Char) : Option Char :=
  if 0xFF66 ≤ c.toNat ∧ c.toNat ≤ 0xFF9D then (hwKatakana[c.toNat - 0xFF66]?).map Char.ofNat
  else none

/-- What one lowercase character becomes. -/
def normalizeChar (c : Char) : List Char :=
  if isCombiningMark c then []
  else match foldNonDecomposing c with
    | some folded => folded
    | none => match stripLatinDiacritic c with
      | some base => [base]
      | none => match fullwidthToAscii c with
        | some ascii => [ascii]
        | none => match halfwidthToFullwidth c with
          | some full => [full]
          | none => [c]

section Normalize

variable (toLowercase : Char → List Char)

def normalize (text : List Char) : List Char := (text.flatMap toLowercase).flatMap normalizeChar

end Normalize

def cjkRanges : List (Nat × Nat) :=
  [(0x3040, 0x309F), (0x30A0, 0x30FF), (0x3400, 0x4DBF), (0x4E00, 0x9FFF), (0xF900, 0xFAFF),
    (0x1100, 0x11FF), (0xAC00, 0xD7AF)]

def isCjk (c : Char) : Bool := cjkRanges.any fun range => range.1 ≤ c.toNat && c.toNat ≤ range.2

def gramWidth (cjk : Bool) : Nat := if cjk then 2 else 3

theorem gramWidth_pos (cjk : Bool) : 0 < gramWidth cjk := by cases cjk <;> decide

/-- Bigrams of CJK runs and trigrams of all other runs. -/
def ngrams (normalized : List Char) : List (List Char) :=
  Windows.runWindows isCjk gramWidth normalized

theorem ngrams_subset {term text : List Char} (h : term <:+: text) : ngrams term ⊆ ngrams text :=
  Windows.runWindows_subset gramWidth_pos h

example : ngrams "cat東京都".toList = ["cat".toList, "東京".toList, "京都".toList] := by decide

/-- `str::split_whitespace`. -/
def splitWhitespace (text : List Char) : List (List Char) :=
  (text.splitOnP Text.isWhitespace).filter fun word => !word.isEmpty

/-- `str::len`. -/
def byteLength (text : List Char) : Nat := (text.map Char.utf8Size).sum

end TinyCortex.Conversations

/-! The inverted index over conversation messages (`conversations/inverted_index.rs`). A hash map is a
function or an association list; the order in which a `HashMap` is walked is a parameter. -/

namespace TinyCortex.Conversations

/-- What the index takes from libraries: the lowercase table and the RFC 3339 parser, whose instants
are in milliseconds. -/
structure SearchEnv where
  toLowercase : Char → List Char
  parseFromRfc3339 : String → Option Int

/-- An order in which the entries of a hash map come out. -/
structure HashOrder (α : Type*) where
  list : List α → List α
  perm : ∀ entries, (list entries).Perm entries

structure DocEntry where
  threadId : String
  messageId : String
  role : String
  content : String
  contentNormalized : List Char
  createdAt : String
  createdAtMs : Int
  deriving DecidableEq

def DocEntry.key (entry : DocEntry) : String × String := (entry.threadId, entry.messageId)

/-- Documents are addressed by their slot; a deleted message leaves an empty slot behind. -/
structure InvertedIndex where
  postings : List Char → Option (List Nat)
  docs : List (Option DocEntry)
  byMessage : List ((String × String) × Nat)

def minTermBytes : Nat := 3

def largeCandidateLimit : Nat := 10000

section Update

variable (env : SearchEnv)

def createdAtMs (createdAt : String) : Int := (env.parseFromRfc3339 createdAt).getD I64.minValue

def docEntry (threadId : String) (msg : ConversationMessage) : DocEntry where
  threadId := threadId
  messageId := msg.id
  role := msg.sender
  content := msg.content
  contentNormalized := normalize env.toLowercase msg.content.toList
  createdAt := msg.createdAt
  createdAtMs := createdAtMs env msg.createdAt

/-- A posting is an ordered set. -/
def addDoc (docId : Nat) (posting : List Nat) : List Nat :=
  if docId ∈ posting then posting else posting.orderedInsert (· ≤ ·) docId

def addGram (docId : Nat) (postings : List Char → Option (List Nat)) (gram : List Char) :
    List Char → Option (List Nat) :=
  Function.update postings gram (some (match postings gram with
    | some posting => addDoc docId posting
    | none => [docId]))

def dropGram (docId : Nat) (postings : List Char → Option (List Nat)) (gram : List Char) :
    List Char → Option (List Nat) :=
  match postings gram with
  | none => postings
  | some posting =>
      Function.update postings gram
        (if (posting.erase docId).isEmpty then none else some (posting.erase docId))

namespace InvertedIndex

def new : InvertedIndex := ⟨fun _ => none, [], []⟩

def entry (index : InvertedIndex) (docId : Nat) : Option DocEntry := (index.docs[docId]?).join

/-- A known message is left alone. The slot number is a `u32`. -/
def insert (index : InvertedIndex) (threadId : String) (msg : ConversationMessage) : InvertedIndex :=
  if index.byMessage.any fun row => row.1 = (threadId, msg.id) then index
  else
    let docId := index.docs.length % 2 ^ 32
    let doc := docEntry env threadId msg
    { postings := (ngrams doc.contentNormalized).foldl (addGram docId) index.postings
      docs := index.docs ++ [some doc]
      byMessage := ((threadId, msg.id), docId) :: index.byMessage }

def removeDoc (index : InvertedIndex) (docId : Nat) : InvertedIndex :=
  match index.entry docId with
  | none => index
  | some doc =>
      { postings := (ngrams doc.contentNormalized).foldl (dropGram docId) index.postings
        docs := index.docs.set docId none
        byMessage := index.byMessage.filter fun row => row.1 ≠ doc.key }

def removeThread (index : InvertedIndex) (threadId : String) : InvertedIndex :=
  ((index.byMessage.filter fun row => row.1.1 = threadId).map (·.2)).foldl removeDoc index

def clear (_ : InvertedIndex) : InvertedIndex := new

/-- The live documents, in slot order. -/
def live (index : InvertedIndex) : List DocEntry := index.docs.reduceOption

end InvertedIndex

end Update

/-- The two-pointer intersection of two ascending lists. -/
def intersectSorted : List Nat → List Nat → List Nat
  | [], _ => []
  | target :: acc, other =>
      match other.dropWhile fun o => decide (o < target) with
      | [] => intersectSorted acc []
      | o :: rest =>
          if o = target then target :: intersectSorted acc rest
          else intersectSorted acc (o :: rest)

section Search

variable (env : SearchEnv)

/-- The terms of a query, with their repetitions. -/
def queryTerms (query : String) : List (List Char) :=
  (splitWhitespace query.toList).filterMap fun term =>
    let normalized := normalize env.toLowercase term
    if minTermBytes ≤ byteLength term ∨ minTermBytes ≤ byteLength normalized then some normalized
    else none

def DocEntry.hit (doc : DocEntry) (score : ℚ) : CrossThreadHit where
  threadId := doc.threadId
  messageId := doc.messageId
  role := doc.role
  content := doc.content
  createdAt := doc.createdAt
  score := score

namespace InvertedIndex

variable (index : InvertedIndex)

/-- The intersection with the postings of the remaining n-grams. -/
def intersectGrams : List Nat → List (List Char) → List Nat
  | acc, [] => acc
  | [], _ :: _ => []
  | d :: acc, gram :: grams =>
      match index.postings gram with
      | some posting => intersectGrams (intersectSorted (d :: acc) posting) grams
      | none => []

/-- `none` when the term is too short for an n-gram. -/
def candidatesForTerm (term : List Char) : Option (List Nat) :=
  match ngrams term with
  | [] => none
  | first :: grams =>
      match index.postings first with
      | none => some []
      | some posting => some (index.intersectGrams posting grams)

def liveIds : List Nat :=
  (List.range index.docs.length).filter fun docId => (index.entry docId).isSome

/-- Phase 1: the candidates of every term, or `none` when a term has too many. -/
def perTerm : List (List Char) → Option (List (List Nat))
  | [] => some []
  | term :: terms =>
      match index.candidatesForTerm term with
      | some candidates =>
          if largeCandidateLimit < candidates.length then none
          else (perTerm terms).map (candidates :: ·)
      | none => (perTerm terms).map (index.liveIds :: ·)

/-- Phase 2: the exact check of one candidate. -/
def verifies (excludeThreadId : Option String) (term : List Char) (docId : Nat) : Bool :=
  match index.entry docId with
  | none => false
  | some doc =>
      !decide (excludeThreadId = some doc.threadId) && decide (term <:+: doc.contentNormalized)

/-- The verified candidates of all terms, one after the other. -/
def verified (excludeThreadId : Option String) (terms : List (List Char))
    (candidates : List (List Nat)) : List Nat :=
  (terms.zip candidates).flatMap fun row => row.2.filter (index.verifies excludeThreadId row.1)

def hitCounts (hits : List Nat) : List (Nat × Nat) := hits.dedup.map fun docId => (docId, hits.count docId)

def createdAtMsOf (docId : Nat) : Int := ((index.entry docId).map (·.createdAtMs)).getD 0

/-- More matches first, then the newer message. -/
def rankedBefore (a b : Nat × Nat) : Prop :=
  b.2 < a.2 ∨ b.2 = a.2 ∧ index.createdAtMsOf b.1 ≤ index.createdAtMsOf a.1

instance : DecidableRel index.rankedBefore := fun _ _ => inferInstanceAs (Decidable (_ ∨ _ ∧ _))

def recencyFallback (excludeThreadId : Option String) (limit : Nat) : List CrossThreadHit :=
  (((index.live.filter fun doc => excludeThreadId ≠ some doc.threadId).insertionSort
    fun a b => b.createdAtMs ≤ a.createdAtMs).take limit).map fun doc => doc.hit 0

def search (order : HashOrder (Nat × Nat)) (query : String) (limit : Nat)
    (excludeThreadId : Option String) : List CrossThreadHit :=
  if limit = 0 then []
  else
    let terms := queryTerms env query
    if terms.isEmpty then []
    else match index.perTerm terms with
      | none => index.recencyFallback excludeThreadId limit
      | some candidates =>
          let hits := index.verified excludeThreadId terms candidates
          let ranked := ((order.list (hitCounts hits)).insertionSort index.rankedBefore).take limit
          ranked.filterMap fun row =>
            (index.entry row.1).map fun doc => doc.hit (row.2 / terms.length)

end InvertedIndex

end Search

end TinyCortex.Conversations
