import TinyCortex.Conversations.InvertedIndex

/-! What the index keeps of its documents: the postings are exactly the n-grams of the live documents,
and every live document is found under its thread and message. -/

namespace TinyCortex.Conversations

section Postings

variable {docId other : Nat} {posting : List Nat} {postings : List Char → Option (List Nat)}
  {gram target : List Char}

/-- The documents under an n-gram. -/
def Posted (postings : List Char → Option (List Nat)) (gram : List Char) (docId : Nat) : Prop :=
  ∃ posting, postings gram = some posting ∧ docId ∈ posting

/-- All postings ascend. -/
def Ascending (postings : List Char → Option (List Nat)) : Prop :=
  ∀ gram posting, postings gram = some posting → posting.Pairwise (· < ·)

theorem mem_addDoc : other ∈ addDoc docId posting ↔ other = docId ∨ other ∈ posting := by
  rw [addDoc]
  split_ifs with h
  · constructor
    · exact Or.inr
    · rintro (rfl | hmem)
      · exact h
      · exact hmem
  · exact List.mem_orderedInsert (· ≤ ·)

theorem addDoc_ascending (h : posting.Pairwise (· < ·)) : (addDoc docId posting).Pairwise (· < ·) := by
  rw [addDoc]
  split_ifs with hmem
  · exact h
  · have hsorted : (posting.orderedInsert (· ≤ ·) docId).Pairwise (· ≤ ·) :=
      List.Pairwise.orderedInsert docId posting (h.imp Nat.le_of_lt)
    have hnodup : (posting.orderedInsert (· ≤ ·) docId).Nodup := by
      refine (List.perm_orderedInsert (· ≤ ·) docId posting).nodup_iff.mpr ?_
      exact List.nodup_cons.mpr ⟨hmem, h.imp Nat.ne_of_lt⟩
    refine (hsorted.and hnodup).imp fun hab => ?_
    exact lt_of_le_of_ne hab.1 hab.2

theorem posted_addGram : Posted (addGram docId postings gram) target other ↔
    Posted postings target other ∨ target = gram ∧ other = docId := by
  unfold Posted addGram
  by_cases h : target = gram
  · subst h
    simp only [Function.update_self, Option.some.injEq, true_and]
    cases hposting : postings target with
    | none => simp
    | some posting => simp [mem_addDoc, or_comm]
  · simp [h]

theorem addGram_ascending (h : Ascending postings) : Ascending (addGram docId postings gram) := by
  intro target posting htarget
  unfold addGram at htarget
  by_cases heq : target = gram
  · subst heq
    rw [Function.update_self] at htarget
    cases hposting : postings target with
    | none =>
        rw [hposting] at htarget
        obtain rfl := Option.some.inj htarget
        exact List.pairwise_singleton _ _
    | some old =>
        rw [hposting] at htarget
        obtain rfl := Option.some.inj htarget
        exact addDoc_ascending (h target old hposting)
  · rw [Function.update_of_ne heq] at htarget
    exact h target posting htarget

theorem posted_foldl_addGram {grams : List (List Char)} :
    Posted (grams.foldl (addGram docId) postings) target other ↔
      Posted postings target other ∨ target ∈ grams ∧ other = docId := by
  induction grams generalizing postings with
  | nil => simp
  | cons gram grams ih =>
      rw [List.foldl_cons, ih, posted_addGram, List.mem_cons]
      constructor
      · rintro ((h | ⟨rfl, rfl⟩) | ⟨h, rfl⟩)
        · exact Or.inl h
        · exact Or.inr ⟨Or.inl rfl, rfl⟩
        · exact Or.inr ⟨Or.inr h, rfl⟩
      · rintro (h | ⟨rfl | h, rfl⟩)
        · exact Or.inl (Or.inl h)
        · exact Or.inl (Or.inr ⟨rfl, rfl⟩)
        · exact Or.inr ⟨h, rfl⟩

theorem foldl_addGram_ascending {grams : List (List Char)} (h : Ascending postings) :
    Ascending (grams.foldl (addGram docId) postings) := by
  induction grams generalizing postings with
  | nil => exact h
  | cons gram grams ih => exact ih (addGram_ascending h)

theorem posted_dropGram (h : Ascending postings) : Posted (dropGram docId postings gram) target other ↔
    Posted postings target other ∧ ¬(target = gram ∧ other = docId) := by
  unfold dropGram
  cases hposting : postings gram with
  | none =>
      dsimp only
      refine ⟨fun hposted => ⟨hposted, ?_⟩, And.left⟩
      rintro ⟨rfl, -⟩
      obtain ⟨posting, hsome, -⟩ := hposted
      rw [hposting] at hsome
      cases hsome
  | some posting =>
      have hnodup : posting.Nodup := (h gram posting hposting).imp Nat.ne_of_lt
      unfold Posted
      dsimp only
      by_cases heq : target = gram
      · subst heq
        rw [Function.update_self, hposting]
        have hmem : ∀ d, d ∈ posting.erase docId ↔ d ∈ posting ∧ d ≠ docId := by
          intro d
          rw [hnodup.mem_erase_iff, and_comm]
        split_ifs with hempty
        · rw [List.isEmpty_iff] at hempty
          simp only [false_and, exists_false, Option.some.injEq, exists_eq_left', true_and, false_iff]
          intro ⟨hother, hne⟩
          have := (hmem other).mpr ⟨hother, hne⟩
          rw [hempty] at this
          cases this
        · simp only [Option.some.injEq, exists_eq_left', true_and]
          exact hmem other
      · rw [Function.update_of_ne heq]
        simp [heq]

theorem dropGram_ascending (docId : Nat) (gram : List Char) (h : Ascending postings) :
    Ascending (dropGram docId postings gram) := by
  intro target posting htarget
  unfold dropGram at htarget
  cases hposting : postings gram with
  | none =>
      rw [hposting] at htarget
      exact h target posting htarget
  | some old =>
      rw [hposting] at htarget
      dsimp only at htarget
      by_cases heq : target = gram
      · subst heq
        rw [Function.update_self] at htarget
        split_ifs at htarget
        obtain rfl := Option.some.inj htarget
        exact (h target old hposting).sublist List.erase_sublist
      · rw [Function.update_of_ne heq] at htarget
        exact h target posting htarget

theorem foldl_dropGram (docId : Nat) (grams : List (List Char)) (h : Ascending postings) :
    Ascending (grams.foldl (dropGram docId) postings) ∧
      ∀ target other, Posted (grams.foldl (dropGram docId) postings) target other ↔
        Posted postings target other ∧ ¬(target ∈ grams ∧ other = docId) := by
  induction grams generalizing postings with
  | nil => exact ⟨h, fun _ _ => by simp⟩
  | cons gram grams ih =>
      obtain ⟨hasc, hposted⟩ := ih (dropGram_ascending docId gram h)
      refine ⟨hasc, fun target other => ?_⟩
      rw [List.foldl_cons, hposted, posted_dropGram h, List.mem_cons]
      tauto

end Postings

namespace InvertedIndex

section Entries

variable {index : InvertedIndex} {docId : Nat} {doc : DocEntry}

theorem entry_eq_some : index.entry docId = some doc ↔ index.docs[docId]? = some (some doc) := by
  rw [entry, Option.join_eq_some_iff]

theorem mem_live : doc ∈ index.live ↔ ∃ docId, index.entry docId = some doc := by
  rw [live, List.reduceOption_mem_iff, List.mem_iff_getElem?]
  exact exists_congr fun _ => entry_eq_some.symm

theorem mem_liveIds : docId ∈ index.liveIds ↔ ∃ doc, index.entry docId = some doc := by
  rw [liveIds, List.mem_filter, Option.isSome_iff_exists, List.mem_range]
  refine ⟨And.right, fun ⟨doc, h⟩ => ⟨?_, doc, h⟩⟩
  obtain ⟨hlt, -⟩ := List.getElem?_eq_some_iff.mp (entry_eq_some.mp h)
  exact hlt

end Entries

/-- The postings and the reverse lookup say what the slots hold. -/
structure Indexed (index : InvertedIndex) : Prop where
  ascending : Ascending index.postings
  posted : ∀ gram docId, Posted index.postings gram docId ↔
    ∃ doc, index.entry docId = some doc ∧ gram ∈ ngrams doc.contentNormalized
  byMessage : ∀ key docId, (key, docId) ∈ index.byMessage ↔
    ∃ doc, index.entry docId = some doc ∧ doc.key = key
  unique : ∀ docId other doc doc', index.entry docId = some doc → index.entry other = some doc' →
    doc.key = doc'.key → docId = other

theorem indexed_new : new.Indexed where
  ascending := fun _ _ h => nomatch h
  posted := by
    intro gram docId
    constructor
    · rintro ⟨posting, h, -⟩
      cases h
    · rintro ⟨doc, h, -⟩
      cases h
  byMessage := by
    intro key docId
    constructor
    · intro h
      cases h
    · rintro ⟨doc, h, -⟩
      cases h
  unique := fun _ _ _ _ h => nomatch h

section Insert

variable {env : SearchEnv} {index : InvertedIndex} {threadId : String} {msg : ConversationMessage}

theorem entry_concat {docs : List (Option DocEntry)} {postings : List Char → Option (List Nat)}
    {rows : List ((String × String) × Nat)} {slot : Option DocEntry} {docId : Nat} :
    (InvertedIndex.mk postings (docs ++ [slot]) rows).entry docId =
      if docId = docs.length then slot else (docs[docId]?).join := by
  rw [entry]
  dsimp only
  by_cases h : docId = docs.length
  · rw [if_pos h, h, List.getElem?_concat_length]
    rfl
  · rw [if_neg h]
    rcases Nat.lt_or_gt_of_ne h with hlt | hgt
    · rw [List.getElem?_append_left hlt]
    · rw [List.getElem?_eq_none (by rw [List.length_append, List.length_singleton]; omega),
        List.getElem?_eq_none hgt.le]

theorem entry_length : index.entry index.docs.length = none := by
  rw [entry, List.getElem?_eq_none le_rfl]
  rfl

/-- Whether the message is known is read off the live documents. -/
theorem Indexed.any_byMessage (h : index.Indexed) (key : String × String) :
    index.byMessage.any (fun row => row.1 = key) = index.live.any (fun doc => doc.key = key) := by
  rw [Bool.eq_iff_iff, List.any_eq_true, List.any_eq_true]
  constructor
  · intro ⟨row, hrow, hkey⟩
    obtain ⟨doc, hdoc, heq⟩ := (h.byMessage row.1 row.2).mp hrow
    refine ⟨doc, mem_live.mpr ⟨row.2, hdoc⟩, ?_⟩
    rw [heq]
    exact hkey
  · intro ⟨doc, hdoc, hkey⟩
    obtain ⟨docId, hentry⟩ := mem_live.mp hdoc
    exact ⟨(doc.key, docId), (h.byMessage doc.key docId).mpr ⟨doc, hentry, rfl⟩, hkey⟩

theorem insert_of_known (h : index.byMessage.any fun row => row.1 = (threadId, msg.id)) :
    index.insert env threadId msg = index := if_pos h

theorem Indexed.insert (h : index.Indexed) (hroom : index.docs.length < 2 ^ 32) :
    (index.insert env threadId msg).Indexed := by
  rw [InvertedIndex.insert]
  split_ifs with hknown
  · exact h
  · rw [Nat.mod_eq_of_lt hroom]
    have hfresh : ∀ other doc, index.entry other = some doc →
        doc.key ≠ (docEntry env threadId msg).key := by
      intro other doc hentry hkey
      refine hknown ?_
      rw [h.any_byMessage, List.any_eq_true]
      exact ⟨doc, mem_live.mpr ⟨other, hentry⟩, decide_eq_true hkey⟩
    have hentry : ∀ docId doc, (if docId = index.docs.length then some (docEntry env threadId msg)
        else index.entry docId) = some doc ↔
          index.entry docId = some doc ∨
            docId = index.docs.length ∧ docEntry env threadId msg = doc := by
      intro docId doc
      split_ifs with hid
      · rw [hid, entry_length]
        simp
      · simp [hid]
    constructor
    · exact foldl_addGram_ascending h.ascending
    · intro gram docId
      rw [posted_foldl_addGram, h.posted gram docId, entry_concat]
      simp only [← entry.eq_def, hentry]
      constructor
      · rintro (⟨doc, hdoc, hgram⟩ | ⟨hgram, rfl⟩)
        · exact ⟨doc, Or.inl hdoc, hgram⟩
        · exact ⟨_, Or.inr ⟨rfl, rfl⟩, hgram⟩
      · rintro ⟨doc, hdoc | ⟨hid, rfl⟩, hgram⟩
        · exact Or.inl ⟨doc, hdoc, hgram⟩
        · exact Or.inr ⟨hgram, hid⟩
    · intro key docId
      rw [List.mem_cons, h.byMessage key docId, entry_concat]
      simp only [← entry.eq_def, hentry]
      constructor
      · rintro (heq | ⟨doc, hdoc, hkey⟩)
        · obtain ⟨rfl, rfl⟩ := Prod.mk.inj heq
          exact ⟨_, Or.inr ⟨rfl, rfl⟩, rfl⟩
        · exact ⟨doc, Or.inl hdoc, hkey⟩
      · rintro ⟨doc, hdoc | ⟨hid, rfl⟩, hkey⟩
        · exact Or.inr ⟨doc, hdoc, hkey⟩
        · exact Or.inl (Prod.ext hkey.symm hid)
    · intro docId other doc doc' hdoc hdoc' hkey
      rw [entry_concat, ← entry.eq_def, hentry] at hdoc hdoc'
      rcases hdoc with hdoc | ⟨rfl, rfl⟩ <;> rcases hdoc' with hdoc' | ⟨hid', rfl⟩
      · exact h.unique docId other doc doc' hdoc hdoc' hkey
      · exact absurd hkey (hfresh docId doc hdoc)
      · exact absurd hkey.symm (hfresh other doc' hdoc')
      · exact hid'.symm

theorem Indexed.live_insert (h : index.Indexed) :
    (index.insert env threadId msg).live =
      if index.live.any fun doc => doc.key = (threadId, msg.id) then index.live
      else index.live ++ [docEntry env threadId msg] := by
  rw [InvertedIndex.insert, h.any_byMessage]
  split_ifs with hknown
  · rfl
  · rw [live, List.reduceOption_append]
    rfl

theorem length_insert_le : index.docs.length ≤ (index.insert env threadId msg).docs.length := by
  rw [InvertedIndex.insert]
  split_ifs
  · exact le_rfl
  · rw [List.length_append]
    omega

/-- A document enters only while a slot number is left. -/
theorem insert_eq_or_lt (hroom : (index.insert env threadId msg).docs.length ≤ 2 ^ 32) :
    index.insert env threadId msg = index ∨ index.docs.length < 2 ^ 32 := by
  by_cases hknown : index.byMessage.any fun row => row.1 = (threadId, msg.id)
  · exact Or.inl (insert_of_known hknown)
  · right
    rw [InvertedIndex.insert, if_neg hknown, List.length_append, List.length_singleton] at hroom
    omega

end Insert

section Remove

variable {index : InvertedIndex} {docId : Nat} {threadId : String}

theorem removeDoc_of_none (h : index.entry docId = none) : index.removeDoc docId = index := by
  rw [removeDoc, h]

theorem entry_removeDoc (other : Nat) :
    (index.removeDoc docId).entry other = if other = docId then none else index.entry other := by
  cases h : index.entry docId with
  | none =>
      rw [removeDoc_of_none h]
      split_ifs with heq
      · rw [heq, h]
      · rfl
  | some doc =>
      rw [removeDoc, h, entry, entry]
      dsimp only
      rw [List.getElem?_set]
      by_cases heq : other = docId
      · subst heq
        rw [if_pos rfl, if_pos rfl]
        split_ifs <;> rfl
      · rw [if_neg (Ne.symm heq), if_neg heq]

@[simp] theorem length_removeDoc : (index.removeDoc docId).docs.length = index.docs.length := by
  cases h : index.entry docId with
  | none => rw [removeDoc_of_none h]
  | some doc =>
      rw [removeDoc, h]
      exact List.length_set

theorem Indexed.removeDoc (docId : Nat) (h : index.Indexed) : (index.removeDoc docId).Indexed := by
  cases hentry : index.entry docId with
  | none =>
      rw [removeDoc_of_none hentry]
      exact h
  | some doc =>
      obtain ⟨hasc, hposted⟩ := foldl_dropGram docId (ngrams doc.contentNormalized)
        h.ascending
      have hkept : ∀ other found, (index.removeDoc docId).entry other = some found ↔
          index.entry other = some found ∧ other ≠ docId := by
        intro other found
        rw [entry_removeDoc]
        split_ifs with heq <;> simp [heq]
      have hpostings : (index.removeDoc docId).postings =
          (ngrams doc.contentNormalized).foldl (dropGram docId) index.postings := by
        rw [InvertedIndex.removeDoc, hentry]
      have hrows : (index.removeDoc docId).byMessage =
          index.byMessage.filter fun row => row.1 ≠ doc.key := by
        rw [InvertedIndex.removeDoc, hentry]
      constructor
      · rw [hpostings]
        exact hasc
      · intro gram other
        rw [hpostings, hposted, h.posted gram other]
        constructor
        · rintro ⟨⟨found, hfound, hgram⟩, hnot⟩
          refine ⟨found, (hkept other found).mpr ⟨hfound, ?_⟩, hgram⟩
          rintro rfl
          rw [hentry] at hfound
          obtain rfl := Option.some.inj hfound
          exact hnot ⟨hgram, rfl⟩
        · rintro ⟨found, hfound, hgram⟩
          obtain ⟨hold, hne⟩ := (hkept other found).mp hfound
          exact ⟨⟨found, hold, hgram⟩, fun hnot => hne hnot.2⟩
      · intro key other
        rw [hrows, List.mem_filter, h.byMessage key other, decide_eq_true_iff]
        constructor
        · rintro ⟨⟨found, hfound, hkey⟩, hne⟩
          refine ⟨found, (hkept other found).mpr ⟨hfound, ?_⟩, hkey⟩
          rintro rfl
          rw [hentry] at hfound
          obtain rfl := Option.some.inj hfound
          exact hne hkey.symm
        · rintro ⟨found, hfound, hkey⟩
          obtain ⟨hold, hne⟩ := (hkept other found).mp hfound
          refine ⟨⟨found, hold, hkey⟩, fun hsame => ?_⟩
          exact hne (h.unique other docId found doc hold hentry (hkey.trans hsame))
      · intro other other' found found' hfound hfound' hkey
        obtain ⟨hold, -⟩ := (hkept other found).mp hfound
        obtain ⟨hold', -⟩ := (hkept other' found').mp hfound'
        exact h.unique other other' found found' hold hold' hkey

theorem length_foldl_removeDoc {docIds : List Nat} :
    (docIds.foldl InvertedIndex.removeDoc index).docs.length = index.docs.length := by
  induction docIds generalizing index with
  | nil => rfl
  | cons docId docIds ih => exact ih.trans length_removeDoc

@[simp] theorem length_removeThread :
    (index.removeThread threadId).docs.length = index.docs.length := length_foldl_removeDoc

theorem foldl_removeDoc {docIds : List Nat} (h : index.Indexed) :
    (docIds.foldl InvertedIndex.removeDoc index).Indexed ∧
      ∀ other, (docIds.foldl InvertedIndex.removeDoc index).entry other =
        if other ∈ docIds then none else index.entry other := by
  induction docIds generalizing index with
  | nil => exact ⟨h, fun _ => rfl⟩
  | cons docId docIds ih =>
      obtain ⟨hindexed, hentry⟩ := ih (h.removeDoc docId)
      refine ⟨hindexed, fun other => ?_⟩
      rw [List.foldl_cons, hentry, entry_removeDoc]
      by_cases hmem : other ∈ docIds
      · simp [hmem]
      · by_cases heq : other = docId <;> simp [hmem, heq]

theorem Indexed.removeThread (h : index.Indexed) : (index.removeThread threadId).Indexed :=
  (foldl_removeDoc h).1

theorem Indexed.entry_removeThread (h : index.Indexed) (docId : Nat) :
    (index.removeThread threadId).entry docId =
      (index.entry docId).filter fun doc => doc.threadId ≠ threadId := by
  rw [InvertedIndex.removeThread, (foldl_removeDoc h).2]
  have hmem : docId ∈ ((index.byMessage.filter fun row => row.1.1 = threadId).map (·.2)) ↔
      ∃ doc, index.entry docId = some doc ∧ doc.threadId = threadId := by
    simp only [List.mem_map, List.mem_filter, decide_eq_true_iff]
    constructor
    · rintro ⟨⟨key, id⟩, ⟨hrow, hthread⟩, rfl⟩
      obtain ⟨doc, hdoc, rfl⟩ := (h.byMessage key id).mp hrow
      exact ⟨doc, hdoc, hthread⟩
    · rintro ⟨doc, hdoc, hthread⟩
      exact ⟨(doc.key, docId), ⟨(h.byMessage _ _).mpr ⟨doc, hdoc, rfl⟩, hthread⟩, rfl⟩
  cases hentry : index.entry docId with
  | none => simp
  | some doc =>
      by_cases hthread : doc.threadId = threadId
      · rw [if_pos (hmem.mpr ⟨doc, hentry, hthread⟩)]
        simp [Option.filter, hthread]
      · rw [if_neg]
        · simp [Option.filter, hthread]
        · intro hin
          obtain ⟨found, hfound, hthread'⟩ := hmem.mp hin
          rw [hentry] at hfound
          obtain rfl := Option.some.inj hfound
          exact hthread hthread'

/-- Slots emptied by a predicate leave the documents that do not satisfy it. -/
theorem reduceOption_filter {α : Type*} {p : α → Bool} {docs docs' : List (Option α)}
    (hlength : docs'.length = docs.length)
    (h : ∀ i : Nat, (docs'[i]?).join = ((docs[i]?).join).filter p) :
    docs'.reduceOption = docs.reduceOption.filter p := by
  induction docs generalizing docs' with
  | nil =>
      rw [List.length_eq_zero_iff.mp hlength]
      rfl
  | cons slot docs ih =>
      cases docs' with
      | nil => cases hlength
      | cons slot' docs' =>
          have hhead : slot' = slot.filter p := h 0
          have htail := ih (Nat.succ.inj hlength) fun i => h (i + 1)
          rw [hhead]
          cases slot with
          | none => exact htail
          | some doc =>
              rw [List.reduceOption_cons_of_some, List.filter_cons]
              by_cases hp : p doc
              · rw [if_pos hp, show (some doc).filter p = some doc by simp [Option.filter, hp],
                  List.reduceOption_cons_of_some, htail]
              · rw [if_neg hp, show (some doc).filter p = none by simp [Option.filter, hp],
                  List.reduceOption_cons_of_none, htail]

theorem Indexed.live_removeThread (h : index.Indexed) :
    (index.removeThread threadId).live = index.live.filter fun doc => doc.threadId ≠ threadId :=
  reduceOption_filter length_removeThread fun i => h.entry_removeThread i

end Remove

end InvertedIndex
end TinyCortex.Conversations
