import TinyCortex.Conversations.Indexed

/-! The index against a scan of all live messages. The live messages are what is left of the inserted
ones, kept without any index; the scan ranks by the number of distinct terms that a message matches. -/

namespace TinyCortex.Conversations

/-- A change of the index. -/
inductive IndexOp
  | insert (threadId : String) (msg : ConversationMessage)
  | removeThread (threadId : String)
  | clear
  deriving DecidableEq

section Live

/-- The live messages with their threads, in the order they came. -/
abbrev Live := List (String × ConversationMessage)

namespace Live

/-- Only the first message of a thread under an id counts. -/
def insert (live : Live) (threadId : String) (msg : ConversationMessage) : Live :=
  if live.any fun row => (row.1, row.2.id) = (threadId, msg.id) then live
  else live ++ [(threadId, msg)]

def removeThread (live : Live) (threadId : String) : Live := live.filter fun row => row.1 ≠ threadId

def apply (live : Live) : IndexOp → Live
  | .insert threadId msg => live.insert threadId msg
  | .removeThread threadId => live.removeThread threadId
  | .clear => []

def run (ops : List IndexOp) : Live := ops.foldl apply []

end Live

end Live

section Scan

variable (env : SearchEnv)

namespace InvertedIndex

def apply (index : InvertedIndex) : IndexOp → InvertedIndex
  | .insert threadId msg => index.insert env threadId msg
  | .removeThread threadId => index.removeThread threadId
  | .clear => index.clear

def run (ops : List IndexOp) : InvertedIndex := ops.foldl (apply env) new

end InvertedIndex

/-- What the scan sees of the live messages. -/
def Live.documents (live : Live) : List DocEntry := live.map fun row => docEntry env row.1 row.2

/-- How many of the terms a document contains. -/
def matched (terms : List (List Char)) (doc : DocEntry) : Nat :=
  terms.countP fun term => decide (term <:+: doc.contentNormalized)

def distinctMatched (terms : List (List Char)) (doc : DocEntry) : Nat := matched terms.dedup doc

/-- More matches first, then the newer message. -/
def ranksBefore (count : DocEntry → Nat) (a b : DocEntry) : Prop :=
  count b < count a ∨ count b = count a ∧ b.createdAtMs ≤ a.createdAtMs

instance (count : DocEntry → Nat) : DecidableRel (ranksBefore count) :=
  fun _ _ => inferInstanceAs (Decidable (_ ∨ _ ∧ _))

/-- The documents a search is about. -/
def found (terms : List (List Char)) (excludeThreadId : Option String) (doc : DocEntry) : Bool :=
  !decide (excludeThreadId = some doc.threadId) && decide (0 < matched terms doc)

/-- The scan: every document is looked at, in some order. -/
def linearScan (docs : List DocEntry) (query : String) (limit : Nat)
    (excludeThreadId : Option String) : List DocEntry :=
  ((docs.filter (found (queryTerms env query) excludeThreadId)).insertionSort
    (ranksBefore (distinctMatched (queryTerms env query)))).take limit

def CrossThreadHit.unscored (hit : CrossThreadHit) : CrossThreadHit := { hit with score := 0 }

/-- For every limit and every order in which the hash map may come out, the search returns what a scan
of the documents returns. -/
def SearchesLikeScan (index : InvertedIndex) (docs : List DocEntry) (query : String)
    (excludeThreadId : Option String) : Prop :=
  ∀ limit order, ∃ listing, listing.Perm docs ∧
    (index.search env order query limit excludeThreadId).map CrossThreadHit.unscored =
      (linearScan env listing query limit excludeThreadId).map fun doc => doc.hit 0

/-- No term of the query has more candidates than the index looks at. -/
def UnderCap (index : InvertedIndex) (query : String) : Prop :=
  ∀ term ∈ queryTerms env query, (index.candidatesForTerm term).all fun candidates =>
    candidates.length ≤ largeCandidateLimit

/-- Counting repeated terms ranks no document before one that the distinct terms put strictly first. -/
def RepetitionsKeepRank (docs : List DocEntry) (query : String) (excludeThreadId : Option String) :
    Prop :=
  ∀ a ∈ docs, ∀ b ∈ docs, found (queryTerms env query) excludeThreadId a →
    found (queryTerms env query) excludeThreadId b →
      ranksBefore (matched (queryTerms env query)) a b →
        ranksBefore (distinctMatched (queryTerms env query)) a b

end Scan

section Order

variable (count : DocEntry → Nat)

instance : IsTrans DocEntry (ranksBefore count) where
  trans := by
    intro a b c hab hbc
    unfold ranksBefore at *
    omega

instance : Std.Total (ranksBefore count) where
  total := by
    intro a b
    unfold ranksBefore
    omega

instance (index : InvertedIndex) : IsTrans (Nat × Nat) index.rankedBefore where
  trans := by
    intro a b c hab hbc
    unfold InvertedIndex.rankedBefore at *
    omega

instance (index : InvertedIndex) : Std.Total index.rankedBefore where
  total := by
    intro a b
    unfold InvertedIndex.rankedBefore
    omega

end Order

section Refinement

variable {env : SearchEnv} {live : Live} {threadId : String} {msg : ConversationMessage}

theorem Live.nodup_insert (h : (live.map fun row => (row.1, row.2.id)).Nodup) :
    ((live.insert threadId msg).map fun row => (row.1, row.2.id)).Nodup := by
  rw [Live.insert]
  split_ifs with hknown
  · exact h
  · rw [List.map_append, List.nodup_append]
    refine ⟨h, List.nodup_singleton _, ?_⟩
    intro key hkey key' hkey' heq
    rw [List.map_singleton, List.mem_singleton] at hkey'
    obtain ⟨row, hrow, hrowKey⟩ := List.mem_map.mp hkey
    refine hknown (List.any_eq_true.mpr ⟨row, hrow, decide_eq_true ?_⟩)
    rw [hrowKey, heq, hkey']

theorem Live.nodup_run (ops : List IndexOp) :
    ((Live.run ops).map fun row => (row.1, row.2.id)).Nodup := by
  rw [Live.run]
  induction ops using List.reverseRecOn with
  | nil => exact List.nodup_nil
  | append_singleton ops op ih =>
      rw [List.foldl_append, List.foldl_cons, List.foldl_nil]
      cases op with
      | insert threadId msg => exact Live.nodup_insert ih
      | removeThread threadId => exact ih.sublist (List.filter_sublist.map _)
      | clear => exact List.nodup_nil

theorem Live.documents_insert : (live.insert threadId msg).documents env =
    if (live.documents env).any fun doc => doc.key = (threadId, msg.id) then live.documents env
    else live.documents env ++ [docEntry env threadId msg] := by
  have hany : (live.documents env).any (fun doc => doc.key = (threadId, msg.id)) =
      live.any fun row => (row.1, row.2.id) = (threadId, msg.id) := by
    rw [Live.documents, List.any_map]
    rfl
  rw [Live.insert, hany]
  split_ifs
  · rfl
  · rw [Live.documents, List.map_append]
    rfl

theorem Live.documents_removeThread : (live.removeThread threadId).documents env =
    (live.documents env).filter fun doc => doc.threadId ≠ threadId := by
  rw [Live.documents, Live.documents, List.filter_map]
  rfl

/-- While slot numbers last, the index is sound and its documents are the live messages. -/
theorem InvertedIndex.run_spec (env : SearchEnv) (ops : List IndexOp)
    (hroom : (InvertedIndex.run env ops).docs.length ≤ 2 ^ 32) :
    (InvertedIndex.run env ops).Indexed ∧
      (InvertedIndex.run env ops).live = (Live.run ops).documents env := by
  rw [InvertedIndex.run, Live.run] at *
  induction ops using List.reverseRecOn with
  | nil => exact ⟨InvertedIndex.indexed_new, rfl⟩
  | append_singleton ops op ih =>
      rw [List.foldl_append, List.foldl_cons, List.foldl_nil] at hroom ⊢
      rw [List.foldl_append, List.foldl_cons, List.foldl_nil]
      cases op with
      | insert threadId msg =>
          obtain ⟨hindexed, hlive⟩ := ih (InvertedIndex.length_insert_le.trans hroom)
          refine ⟨?_, ?_⟩
          · change (InvertedIndex.insert env _ threadId msg).Indexed
            rcases InvertedIndex.insert_eq_or_lt hroom with hsame | hlt
            · rw [hsame]
              exact hindexed
            · exact hindexed.insert hlt
          · change (InvertedIndex.insert env _ threadId msg).live =
              (Live.insert _ threadId msg).documents env
            rw [hindexed.live_insert, Live.documents_insert, hlive]
      | removeThread threadId =>
          obtain ⟨hindexed, hlive⟩ := ih (InvertedIndex.length_removeThread.symm.trans_le hroom)
          refine ⟨hindexed.removeThread, ?_⟩
          change (InvertedIndex.removeThread _ threadId).live =
            (Live.removeThread _ threadId).documents env
          rw [hindexed.live_removeThread, Live.documents_removeThread, hlive]
      | clear => exact ⟨InvertedIndex.indexed_new, rfl⟩

theorem repetitionsKeepRank_of_nodup {docs : List DocEntry} {query : String}
    (h : (queryTerms env query).Nodup) (excludeThreadId : Option String) :
    RepetitionsKeepRank env docs query excludeThreadId := by
  intro a _ b _ _ _ hab
  have hsame : distinctMatched (queryTerms env query) = matched (queryTerms env query) := by
    funext doc
    rw [distinctMatched, h.dedup]
  rw [hsame]
  exact hab

end Refinement

end TinyCortex.Conversations
