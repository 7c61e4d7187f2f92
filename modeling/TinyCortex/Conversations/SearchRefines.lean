import TinyCortex.Conversations.LinearScan

/-! The search of the index is the scan: every document that contains a term is among the candidates of
the term, so the verified candidates are the documents the scan finds. -/

namespace TinyCortex.Conversations

theorem dropWhile_lt_of_ascending (target : Nat) {other : List Nat} (h : other.Pairwise (· < ·)) :
    ∀ x, x ∈ other.dropWhile (fun o => decide (o < target)) ↔ x ∈ other ∧ target ≤ x := by
  induction other with
  | nil => simp
  | cons o other ih =>
      obtain ⟨hlt, htail⟩ := List.pairwise_cons.mp h
      intro x
      by_cases ho : o < target
      · rw [List.dropWhile_cons, if_pos (decide_eq_true ho), ih htail x, List.mem_cons]
        constructor
        · exact fun ⟨hx, hle⟩ => ⟨Or.inr hx, hle⟩
        · rintro ⟨rfl | hx, hle⟩
          · omega
          · exact ⟨hx, hle⟩
      · rw [List.dropWhile_cons, if_neg (by simpa using ho), List.mem_cons]
        constructor
        · rintro (rfl | hx)
          · exact ⟨Or.inl rfl, Nat.le_of_not_lt ho⟩
          · exact ⟨Or.inr hx, (Nat.le_of_not_lt ho).trans (hlt x hx).le⟩
        · exact And.left

theorem mem_intersectSorted {acc other : List Nat} (hacc : acc.Pairwise (· < ·))
    (hother : other.Pairwise (· < ·)) (x : Nat) :
    x ∈ intersectSorted acc other ↔ x ∈ acc ∧ x ∈ other := by
  induction acc generalizing other with
  | nil => simp [intersectSorted]
  | cons target acc ih =>
      obtain ⟨hlt, htail⟩ := List.pairwise_cons.mp hacc
      have hdrop := dropWhile_lt_of_ascending target hother
      have hascending : (other.dropWhile fun o => decide (o < target)).Pairwise (· < ·) :=
        hother.sublist (List.dropWhile_sublist _)
      rw [intersectSorted]
      cases hrest : other.dropWhile fun o => decide (o < target) with
      | nil =>
          rw [hrest] at hdrop
          dsimp only
          rw [ih htail List.Pairwise.nil, List.mem_cons]
          constructor
          · exact fun hx => nomatch hx.2
          · rintro ⟨rfl | hx, hmem⟩
            · exact nomatch (hdrop x).mpr ⟨hmem, le_rfl⟩
            · exact nomatch (hdrop x).mpr ⟨hmem, (hlt x hx).le⟩
      | cons o rest =>
          rw [hrest] at hdrop hascending
          dsimp only
          split_ifs with ho
          · subst ho
            rw [List.mem_cons, ih htail (List.pairwise_cons.mp hascending).2, List.mem_cons]
            constructor
            · rintro (rfl | ⟨hx, hmem⟩)
              · exact ⟨Or.inl rfl, ((hdrop x).mp List.mem_cons_self).1⟩
              · exact ⟨Or.inr hx, ((hdrop x).mp (List.mem_cons_of_mem _ hmem)).1⟩
            · rintro ⟨rfl | hx, hmem⟩
              · exact Or.inl rfl
              · have hin := (hdrop x).mpr ⟨hmem, (hlt x hx).le⟩
                rcases List.mem_cons.mp hin with rfl | htail
                · exact absurd (hlt x hx) (lt_irrefl x)
                · exact Or.inr ⟨hx, htail⟩
          · rw [ih htail hascending]
            constructor
            · exact fun ⟨hx, hmem⟩ => ⟨List.mem_cons_of_mem _ hx, ((hdrop x).mp hmem).1⟩
            · intro ⟨hx, hmem⟩
              rcases List.mem_cons.mp hx with rfl | hx
              · exfalso
                have hin := (hdrop x).mpr ⟨hmem, le_rfl⟩
                rcases List.mem_cons.mp hin with rfl | hlater
                · exact ho rfl
                · have hbelow := (List.pairwise_cons.mp hascending).1 x hlater
                  have habove := ((hdrop o).mp List.mem_cons_self).2
                  omega
              · exact ⟨hx, (hdrop x).mpr ⟨hmem, (hlt x hx).le⟩⟩

theorem intersectSorted_sublist (acc other : List Nat) : (intersectSorted acc other).Sublist acc := by
  induction acc generalizing other with
  | nil => exact List.Sublist.refl _
  | cons target acc ih =>
      rw [intersectSorted]
      split
      · exact (ih _).cons target
      · split_ifs
        · exact (ih _).cons_cons target
        · exact (ih _).cons target

namespace InvertedIndex

variable {index : InvertedIndex}

theorem intersectGrams_spec (h : index.Indexed) (grams : List (List Char)) {acc : List Nat}
    (hacc : acc.Pairwise (· < ·)) :
    (index.intersectGrams acc grams).Pairwise (· < ·) ∧
      ∀ d, d ∈ index.intersectGrams acc grams ↔
        d ∈ acc ∧ ∀ gram ∈ grams, Posted index.postings gram d := by
  induction grams generalizing acc with
  | nil => exact ⟨by rwa [intersectGrams], fun d => by simp [intersectGrams]⟩
  | cons gram grams ih =>
      cases acc with
      | nil => exact ⟨List.Pairwise.nil, fun d => by simp [intersectGrams]⟩
      | cons first acc =>
          rw [intersectGrams]
          cases hposting : index.postings gram with
          | none =>
              refine ⟨List.Pairwise.nil, fun d => ?_⟩
              dsimp only
              refine ⟨fun hd => (nomatch hd), fun ⟨_, hall⟩ => ?_⟩
              obtain ⟨posting, hsome, -⟩ := hall gram List.mem_cons_self
              rw [hposting] at hsome
              cases hsome
          | some posting =>
              dsimp only
              have hposting' := h.ascending gram posting hposting
              obtain ⟨hsorted, hmem⟩ := ih (hacc.sublist (intersectSorted_sublist (first :: acc) posting))
              refine ⟨hsorted, fun d => ?_⟩
              rw [hmem, mem_intersectSorted hacc hposting', List.forall_mem_cons, and_assoc]
              refine and_congr_right fun _ => and_congr_left fun _ => ?_
              constructor
              · exact fun hd => ⟨posting, hposting, hd⟩
              · rintro ⟨posting', hsome, hd⟩
                rw [hposting] at hsome
                rwa [Option.some.inj hsome]

/-- The candidates of a term that has n-grams are the documents under all of them. -/
theorem candidatesForTerm_spec (h : index.Indexed) {term : List Char} {candidates : List Nat}
    (hsome : index.candidatesForTerm term = some candidates) :
    candidates.Pairwise (· < ·) ∧
      ∀ d, d ∈ candidates ↔ ngrams term ≠ [] ∧ ∀ gram ∈ ngrams term, Posted index.postings gram d := by
  rw [candidatesForTerm] at hsome
  cases hgrams : ngrams term with
  | nil =>
      rw [hgrams] at hsome
      cases hsome
  | cons first grams =>
      rw [hgrams] at hsome
      dsimp only at hsome
      cases hposting : index.postings first with
      | none =>
          rw [hposting] at hsome
          obtain rfl := Option.some.inj hsome
          refine ⟨List.Pairwise.nil, fun d => ⟨fun hd => (nomatch hd), fun ⟨_, hall⟩ => ?_⟩⟩
          obtain ⟨posting, hfirst, -⟩ := hall first List.mem_cons_self
          rw [hposting] at hfirst
          cases hfirst
      | some posting =>
          rw [hposting] at hsome
          obtain rfl := Option.some.inj hsome
          obtain ⟨hsorted, hmem⟩ :=
            intersectGrams_spec h grams (h.ascending first posting hposting)
          refine ⟨hsorted, fun d => ?_⟩
          rw [hmem, List.forall_mem_cons]
          constructor
          · exact fun ⟨hd, hall⟩ => ⟨List.cons_ne_nil _ _, ⟨posting, hposting, hd⟩, hall⟩
          · rintro ⟨-, ⟨posting', hfirst, hd⟩, hall⟩
            rw [hposting] at hfirst
            exact ⟨Option.some.inj hfirst ▸ hd, hall⟩

/-- The candidates of a term, all live documents standing in for a term without n-grams. -/
def candidates (index : InvertedIndex) (term : List Char) : List Nat :=
  (index.candidatesForTerm term).getD index.liveIds

theorem nodup_candidates (h : index.Indexed) (term : List Char) : (index.candidates term).Nodup := by
  rw [candidates]
  cases hsome : index.candidatesForTerm term with
  | none => exact List.nodup_range.filter _
  | some found => exact (candidatesForTerm_spec h hsome).1.imp Nat.ne_of_lt

/-- No document that contains a term is missed. -/
theorem mem_candidates (h : index.Indexed) {term : List Char} {docId : Nat} {doc : DocEntry}
    (hentry : index.entry docId = some doc) (hterm : term <:+: doc.contentNormalized) :
    docId ∈ index.candidates term := by
  rw [candidates]
  cases hsome : index.candidatesForTerm term with
  | none => exact mem_liveIds.mpr ⟨doc, hentry⟩
  | some found =>
      refine ((candidatesForTerm_spec h hsome).2 docId).mpr ⟨?_, fun gram hgram => ?_⟩
      · intro hnil
        rw [candidatesForTerm, hnil] at hsome
        cases hsome
      · exact (h.posted gram docId).mpr ⟨doc, hentry, ngrams_subset hterm hgram⟩

theorem perTerm_eq {terms : List (List Char)}
    (hcap : ∀ term ∈ terms, (index.candidatesForTerm term).all fun candidates =>
      candidates.length ≤ largeCandidateLimit) :
    index.perTerm terms = some (terms.map index.candidates) := by
  induction terms with
  | nil => rfl
  | cons term terms ih =>
      obtain ⟨hterm, hterms⟩ := List.forall_mem_cons.mp hcap
      rw [perTerm, List.map_cons, candidates]
      cases hsome : index.candidatesForTerm term with
      | none =>
          dsimp only
          rw [ih hterms]
          rfl
      | some found =>
          rw [hsome] at hterm
          dsimp only
          rw [if_neg (Nat.not_lt.mpr (of_decide_eq_true hterm)), ih hterms]
          rfl

section Hits

variable {excludeThreadId : Option String} {terms : List (List Char)}

theorem verifies_iff {term : List Char} {docId : Nat} :
    index.verifies excludeThreadId term docId ↔ ∃ doc, index.entry docId = some doc ∧
      excludeThreadId ≠ some doc.threadId ∧ term <:+: doc.contentNormalized := by
  rw [verifies]
  cases index.entry docId with
  | none => simp
  | some doc => simp

theorem countP_verifies (terms : List (List Char)) {docId : Nat} {doc : DocEntry}
    (hentry : index.entry docId = some doc) (hexclude : excludeThreadId ≠ some doc.threadId) :
    (terms.countP fun term => index.verifies excludeThreadId term docId) = matched terms doc := by
  rw [matched]
  refine List.countP_congr fun term _ => ?_
  rw [verifies_iff, decide_eq_true_iff, hentry]
  simp [hexclude]

/-- A document counts once for every term, repeated or not, that it contains. -/
theorem count_verified (h : index.Indexed) (docId : Nat) :
    (index.verified excludeThreadId terms (terms.map index.candidates)).count docId =
      terms.countP fun term => index.verifies excludeThreadId term docId := by
  induction terms with
  | nil => rfl
  | cons term terms ih =>
      have hcons : index.verified excludeThreadId (term :: terms)
          ((term :: terms).map index.candidates) =
            (index.candidates term).filter (index.verifies excludeThreadId term) ++
              index.verified excludeThreadId terms (terms.map index.candidates) := by
        rw [verified, List.map_cons, List.zip_cons_cons, List.flatMap_cons]
        rfl
      rw [hcons, List.count_append, ih, List.countP_cons, Nat.add_comm]
      congr 1
      by_cases hv : index.verifies excludeThreadId term docId
      · obtain ⟨doc, hentry, -, hterm⟩ := verifies_iff.mp hv
        rw [if_pos hv]
        exact List.count_eq_one_of_mem ((nodup_candidates h term).filter _)
          (List.mem_filter.mpr ⟨mem_candidates h hentry hterm, hv⟩)
      · rw [if_neg hv]
        exact List.count_eq_zero.mpr fun hmem => hv (List.mem_filter.mp hmem).2

/-- The rows that get ranked are the found documents with the numbers of their matches. -/
theorem mem_hitCounts (h : index.Indexed) (terms : List (List Char))
    (excludeThreadId : Option String) (row : Nat × Nat) :
    row ∈ hitCounts (index.verified excludeThreadId terms (terms.map index.candidates)) ↔
      ∃ doc, index.entry row.1 = some doc ∧ found terms excludeThreadId doc ∧
        row.2 = matched terms doc := by
  obtain ⟨docId, n⟩ := row
  have hpos : docId ∈ index.verified excludeThreadId terms (terms.map index.candidates) ↔
      0 < terms.countP fun term => index.verifies excludeThreadId term docId := by
    rw [← count_verified h, List.count_pos_iff]
  simp only [hitCounts, List.mem_map, List.mem_dedup, Prod.mk.injEq]
  constructor
  · rintro ⟨other, hmem, rfl, rfl⟩
    obtain ⟨term, -, hv⟩ := List.countP_pos_iff.mp (hpos.mp hmem)
    obtain ⟨doc, hentry, hexclude, -⟩ := verifies_iff.mp hv
    have hcount := countP_verifies terms hentry hexclude
    refine ⟨doc, hentry, ?_, (count_verified h other).trans hcount⟩
    rw [found, Bool.and_eq_true, Bool.not_eq_true', decide_eq_false_iff_not, decide_eq_true_iff]
    exact ⟨hexclude, hcount ▸ hpos.mp hmem⟩
  · rintro ⟨doc, hentry, hfound, rfl⟩
    rw [found, Bool.and_eq_true, Bool.not_eq_true', decide_eq_false_iff_not,
      decide_eq_true_iff] at hfound
    have hcount := countP_verifies terms hentry hfound.1
    exact ⟨docId, hpos.mpr (hcount ▸ hfound.2), rfl, (count_verified h docId).trans hcount⟩

theorem filterMap_take_of_isSome {α β : Type*} {f : α → Option β} {l : List α}
    (h : ∀ a ∈ l, (f a).isSome) (n : Nat) : (l.take n).filterMap f = (l.filterMap f).take n := by
  induction l generalizing n with
  | nil => simp
  | cons a l ih =>
      obtain ⟨b, hb⟩ := Option.isSome_iff_exists.mp (h a List.mem_cons_self)
      cases n with
      | zero => rfl
      | succ n =>
          rw [List.take_succ_cons, List.filterMap_cons_some hb, List.filterMap_cons_some hb,
            List.take_succ_cons, ih fun c hc => h c (List.mem_cons_of_mem _ hc)]

/-- The found documents in the order of their ranks. -/
def ranking (index : InvertedIndex) (order : HashOrder (Nat × Nat)) (terms : List (List Char))
    (excludeThreadId : Option String) : List (Nat × Nat) :=
  (order.list (hitCounts (index.verified excludeThreadId terms
    (terms.map index.candidates)))).insertionSort index.rankedBefore

def rankedDocs (index : InvertedIndex) (order : HashOrder (Nat × Nat)) (terms : List (List Char))
    (excludeThreadId : Option String) : List DocEntry :=
  (index.ranking order terms excludeThreadId).filterMap fun row => index.entry row.1

variable {order : HashOrder (Nat × Nat)}

theorem mem_ranking (h : index.Indexed) (row : Nat × Nat) :
    row ∈ index.ranking order terms excludeThreadId ↔
      ∃ doc, index.entry row.1 = some doc ∧ found terms excludeThreadId doc ∧
        row.2 = matched terms doc := by
  rw [ranking, List.mem_insertionSort, (order.perm _).mem_iff, mem_hitCounts h terms]

theorem mem_rankedDocs (h : index.Indexed) (doc : DocEntry) :
    doc ∈ index.rankedDocs order terms excludeThreadId ↔
      doc ∈ index.live ∧ found terms excludeThreadId doc := by
  rw [rankedDocs, List.mem_filterMap, mem_live]
  constructor
  · rintro ⟨row, hrow, hentry⟩
    obtain ⟨other, hother, hfound, -⟩ := (mem_ranking h row).mp hrow
    rw [hentry] at hother
    obtain rfl := Option.some.inj hother
    exact ⟨⟨row.1, hentry⟩, hfound⟩
  · rintro ⟨⟨docId, hentry⟩, hfound⟩
    exact ⟨(docId, matched terms doc), (mem_ranking h _).mpr ⟨doc, hentry, hfound, rfl⟩, hentry⟩

theorem nodup_rankedDocs (h : index.Indexed) :
    (index.rankedDocs order terms excludeThreadId).Nodup := by
  have hids : ((index.ranking order terms excludeThreadId).map (·.1)).Nodup := by
    have hperm := (List.perm_insertionSort index.rankedBefore _).trans (order.perm (hitCounts
      (index.verified excludeThreadId terms (terms.map index.candidates))))
    refine ((hperm.map (·.1)).nodup_iff).mpr ?_
    rw [hitCounts, List.map_map]
    exact (List.map_id _).symm ▸ List.nodup_dedup _
  have heq : index.rankedDocs order terms excludeThreadId =
      ((index.ranking order terms excludeThreadId).map (·.1)).filterMap index.entry := by
    rw [List.filterMap_map]
    rfl
  rw [heq]
  exact hids.filterMap fun docId other doc hdoc hother =>
    h.unique docId other doc doc hdoc hother rfl

/-- The ranked documents descend in the number of their matches. -/
theorem pairwise_rankedDocs (h : index.Indexed) :
    (index.rankedDocs order terms excludeThreadId).Pairwise (ranksBefore (matched terms)) := by
  rw [rankedDocs, List.pairwise_filterMap]
  refine List.Pairwise.imp_of_mem ?_ (List.pairwise_insertionSort index.rankedBefore _)
  intro a b ha hb hab doc hdoc doc' hdoc'
  obtain ⟨other, hother, -, hcount⟩ := (mem_ranking h a).mp ha
  obtain ⟨other', hother', -, hcount'⟩ := (mem_ranking h b).mp hb
  rw [hdoc] at hother
  rw [hdoc'] at hother'
  obtain rfl := Option.some.inj hother
  obtain rfl := Option.some.inj hother'
  rw [rankedBefore, hcount, hcount', createdAtMsOf, createdAtMsOf, hdoc, hdoc'] at hab
  exact hab

end Hits

section Scan

variable {env : SearchEnv} {query : String} {excludeThreadId : Option String} {limit : Nat}
  {order : HashOrder (Nat × Nat)}

/-- Under the cap, the hits are the ranked documents, cut off at the limit. -/
theorem unscored_search (h : index.Indexed) (hcap : UnderCap env index query) :
    (index.search env order query limit excludeThreadId).map CrossThreadHit.unscored =
      ((index.rankedDocs order (queryTerms env query) excludeThreadId).take limit).map
        fun doc => doc.hit 0 := by
  rw [search]
  dsimp only
  split_ifs with hlimit hterms
  · rw [hlimit, List.take_zero]
    rfl
  · have hempty : index.rankedDocs order (queryTerms env query) excludeThreadId = [] := by
      refine List.eq_nil_iff_forall_not_mem.mpr fun doc hdoc => ?_
      obtain ⟨-, hfound⟩ := (mem_rankedDocs h doc).mp hdoc
      rw [List.isEmpty_iff.mp hterms] at hfound
      simp [found, matched] at hfound
    rw [hempty, List.take_nil]
    rfl
  · rw [perTerm_eq hcap]
    dsimp only
    rw [List.map_filterMap]
    have hsome : ∀ row ∈ index.ranking order (queryTerms env query) excludeThreadId,
        (index.entry row.1).isSome := by
      intro row hrow
      obtain ⟨doc, hentry, -⟩ := (mem_ranking h row).mp hrow
      rw [hentry]
      rfl
    rw [rankedDocs, ← filterMap_take_of_isSome hsome, List.map_filterMap]
    refine List.filterMap_congr fun row _ => ?_
    cases index.entry row.1 <;> rfl

/-- The order in which a row comes first. -/
def firstOrder (row : Nat × Nat) : HashOrder (Nat × Nat) where
  list entries := if row ∈ entries then row :: entries.erase row else entries
  perm entries := by
    split_ifs with h
    · exact (List.perm_cons_erase h).symm
    · exact List.Perm.refl _

theorem sublist_rankedDocs_firstOrder (h : index.Indexed) {terms : List (List Char)}
    {docId other : Nat} {a b : DocEntry} (hne : docId ≠ other) (ha : index.entry docId = some a)
    (hb : index.entry other = some b) (hfoundA : found terms excludeThreadId a)
    (hfoundB : found terms excludeThreadId b) (hab : ranksBefore (matched terms) a b) :
    [a, b].Sublist (index.rankedDocs (firstOrder (docId, matched terms a)) terms excludeThreadId) := by
  have hrowA := (mem_hitCounts h terms excludeThreadId (docId, matched terms a)).mpr
    ⟨a, ha, hfoundA, rfl⟩
  have hrowB := (mem_hitCounts h terms excludeThreadId (other, matched terms b)).mpr
    ⟨b, hb, hfoundB, rfl⟩
  have hbefore : index.rankedBefore (docId, matched terms a) (other, matched terms b) := by
    rw [rankedBefore, createdAtMsOf, createdAtMsOf, ha, hb]
    exact hab
  have hlisted : [(docId, matched terms a), (other, matched terms b)].Sublist
      ((firstOrder (docId, matched terms a)).list (hitCounts (index.verified excludeThreadId terms
        (terms.map index.candidates)))) := by
    dsimp only [firstOrder]
    rw [if_pos hrowA]
    refine List.Sublist.cons_cons _ (List.singleton_sublist.mpr ?_)
    exact (List.mem_erase_of_ne fun heq => hne (congrArg Prod.fst heq).symm).mpr hrowB
  have hranked := List.pair_sublist_insertionSort hbefore hlisted
  have hdocs : [(docId, matched terms a), (other, matched terms b)].filterMap
      (fun row => index.entry row.1) = [a, b] := by
    simp [ha, hb]
  rw [← hdocs]
  exact hranked.filterMap fun row => index.entry row.1

/-- Keys tell the documents of an index apart, so equal hits come from equal documents. -/
theorem pairwise_of_map_hit (h : index.Indexed) {R : DocEntry → DocEntry → Prop}
    {docs docs' : List DocEntry} (hdocs : ∀ doc ∈ docs, doc ∈ index.live)
    (hdocs' : ∀ doc ∈ docs', doc ∈ index.live)
    (hmap : docs.map (fun doc => doc.hit 0) = docs'.map fun doc => doc.hit 0)
    (hpairwise : docs'.Pairwise R) : docs.Pairwise R := by
  suffices docs = docs' by
    rw [this]
    exact hpairwise
  clear hpairwise
  induction docs generalizing docs' with
  | nil => exact (List.map_eq_nil_iff.mp hmap.symm).symm
  | cons doc docs ih =>
      cases docs' with
      | nil => cases hmap
      | cons doc' docs' =>
          rw [List.map_cons, List.map_cons, List.cons.injEq] at hmap
          obtain ⟨id, hentry⟩ := mem_live.mp (hdocs doc List.mem_cons_self)
          obtain ⟨id', hentry'⟩ := mem_live.mp (hdocs' doc' List.mem_cons_self)
          have hkey : doc.key = doc'.key :=
            Prod.ext (congrArg CrossThreadHit.threadId hmap.1) (congrArg CrossThreadHit.messageId hmap.1)
          rw [h.unique id id' doc doc' hentry hentry' hkey, hentry'] at hentry
          rw [← Option.some.inj hentry, ih (fun d hd => hdocs d (List.mem_cons_of_mem _ hd))
            (fun d hd => hdocs' d (List.mem_cons_of_mem _ hd)) hmap.2]

end Scan

section Refinement

variable {env : SearchEnv} {query : String} {excludeThreadId : Option String}

/-- When every order and limit gives a scan, repetitions cannot change a rank: the order that puts a
document first shows the change. -/
theorem Indexed.repetitionsKeepRank (h : index.Indexed) (hcap : UnderCap env index query)
    (hlike : SearchesLikeScan env index index.live query excludeThreadId) :
    RepetitionsKeepRank env index.live query excludeThreadId := by
  intro a ha b hb hfoundA hfoundB hab
  obtain ⟨docId, hentryA⟩ := mem_live.mp ha
  obtain ⟨other, hentryB⟩ := mem_live.mp hb
  by_cases hne : docId = other
  · subst hne
    rw [hentryA] at hentryB
    obtain rfl := Option.some.inj hentryB
    exact Or.inr ⟨rfl, le_rfl⟩
  · let order := firstOrder (docId, matched (queryTerms env query) a)
    let docs := index.rankedDocs order (queryTerms env query) excludeThreadId
    obtain ⟨listing, hperm, heq⟩ := hlike docs.length order
    rw [unscored_search h hcap, List.take_length] at heq
    have hmem : ∀ doc ∈ linearScan env listing query docs.length excludeThreadId,
        doc ∈ index.live := by
      intro doc hdoc
      have hsorted := (List.mem_insertionSort _).mp (List.mem_of_mem_take hdoc)
      exact hperm.mem_iff.mp (List.mem_of_mem_filter hsorted)
    have hdescending := pairwise_of_map_hit h (R := ranksBefore _)
      (fun doc hdoc => ((mem_rankedDocs h doc).mp hdoc).1) hmem heq
      ((List.pairwise_insertionSort _ _).sublist (List.take_sublist _ _))
    have hpair := sublist_rankedDocs_firstOrder h hne hentryA hentryB hfoundA hfoundB hab
    exact List.pairwise_pair.mp (hdescending.sublist hpair)

/-- The listing that the search agrees with starts with the found documents in their ranks. -/
theorem Indexed.searchesLikeScan (h : index.Indexed) (hnodup : index.live.Nodup)
    (hcap : UnderCap env index query)
    (hkeep : RepetitionsKeepRank env index.live query excludeThreadId) :
    SearchesLikeScan env index index.live query excludeThreadId := by
  intro limit order
  generalize hterms : queryTerms env query = terms
  generalize hranked : index.rankedDocs order terms excludeThreadId = docs
  have hmem : ∀ doc, doc ∈ docs ↔ doc ∈ index.live ∧ found terms excludeThreadId doc :=
    fun doc => hranked ▸ mem_rankedDocs h doc
  have hperm : docs.Perm (index.live.filter (found terms excludeThreadId)) := by
    refine (List.perm_ext_iff_of_nodup (hranked ▸ nodup_rankedDocs h) (hnodup.filter _)).mpr ?_
    intro doc
    rw [hmem, List.mem_filter]
  refine ⟨docs ++ index.live.filter fun doc => !found terms excludeThreadId doc, ?_, ?_⟩
  · exact (hperm.append_right _).trans (List.filter_append_perm _ _)
  · have hself : docs.filter (found terms excludeThreadId) = docs :=
      List.filter_eq_self.mpr fun doc hdoc => ((hmem doc).mp hdoc).2
    have hrest : (index.live.filter fun doc => !found terms excludeThreadId doc).filter
        (found terms excludeThreadId) = [] := by
      rw [List.filter_filter]
      simp
    have hdescending : docs.Pairwise (ranksBefore (distinctMatched terms)) := by
      refine List.Pairwise.imp_of_mem ?_ (hranked ▸ pairwise_rankedDocs h)
      intro a b ha hb hab
      obtain ⟨hliveA, hfoundA⟩ := (hmem a).mp ha
      obtain ⟨hliveB, hfoundB⟩ := (hmem b).mp hb
      subst hterms
      exact hkeep a hliveA b hliveB hfoundA hfoundB hab
    rw [unscored_search h hcap, linearScan, hterms, hranked, List.filter_append, hself, hrest,
      List.append_nil, hdescending.insertionSort_eq]

end Refinement

/-- While slot numbers last and no term has too many candidates, the search is the scan exactly when the
repetitions of a query's terms do not change the ranks. -/
theorem searchesLikeScan_iff (env : SearchEnv) (ops : List IndexOp) (query : String)
    (excludeThreadId : Option String) (hroom : (run env ops).docs.length ≤ 2 ^ 32)
    (hcap : UnderCap env (run env ops) query) :
    SearchesLikeScan env (run env ops) ((Live.run ops).documents env) query excludeThreadId ↔
      RepetitionsKeepRank env ((Live.run ops).documents env) query excludeThreadId := by
  obtain ⟨h, hlive⟩ := run_spec env ops hroom
  have hnodup : (run env ops).live.Nodup := by
    rw [hlive]
    refine List.Nodup.of_map DocEntry.key ?_
    rw [Live.documents, List.map_map]
    exact Live.nodup_run ops
  rw [← hlive]
  exact ⟨h.repetitionsKeepRank hcap, h.searchesLikeScan hnodup hcap⟩

/-- Lowercase text and one instant. -/
def plainEnv : SearchEnv where
  toLowercase c := [c]
  parseFromRfc3339 createdAt := if createdAt = "2026-01-05T10:00:00Z" then some 1767607200000 else none

def petMessage (id content : String) : ConversationMessage :=
  ⟨id, content, "text", "null", "user", "2026-01-05T10:00:00Z"⟩

def petOps : List IndexOp :=
  [.insert "t" (petMessage "m0" "a bird"), .removeThread "t", .insert "t" (petMessage "m1" "one cat"),
    .insert "u" (petMessage "m2" "a dog and a bird")]

theorem searchesLikeScan_pets :
    SearchesLikeScan plainEnv (run plainEnv petOps) ((Live.run petOps).documents plainEnv)
      "dog cat bird" none := by
  refine (searchesLikeScan_iff plainEnv petOps "dog cat bird" none ?_ ?_).mpr ?_
  · decide +kernel
  · unfold UnderCap
    decide +kernel
  · unfold RepetitionsKeepRank
    decide +kernel

/-- Three repetitions of one term outrank two terms that each occur once. -/
theorem repeatedTerm_outranks :
    UnderCap plainEnv (run plainEnv petOps) "cat cat cat dog bird" ∧
      ¬SearchesLikeScan plainEnv (run plainEnv petOps) ((Live.run petOps).documents plainEnv)
        "cat cat cat dog bird" none := by
  have hcap : UnderCap plainEnv (run plainEnv petOps) "cat cat cat dog bird" := by
    unfold UnderCap
    decide +kernel
  refine ⟨hcap, fun hlike => ?_⟩
  obtain ⟨h, hlive⟩ := run_spec plainEnv petOps (by decide +kernel)
  rw [← hlive] at hlike
  have hkeep := h.repetitionsKeepRank hcap hlike
  rw [hlive] at hkeep
  revert hkeep
  unfold RepetitionsKeepRank
  decide +kernel

end InvertedIndex
end TinyCortex.Conversations
