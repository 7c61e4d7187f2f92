import TinyCortex.Conversations.WarmIndex

/-! The live messages thread by thread. What an index has of a thread is the first row under each id. -/

namespace TinyCortex.Conversations

/-- The rows of one thread. -/
def part (entries : List (String × ConversationMessage)) (threadId : String) :
    List ConversationMessage :=
  (entries.filter fun entry => entry.1 = threadId).map (·.2)

def insertFirst (messages : List ConversationMessage) (message : ConversationMessage) :
    List ConversationMessage :=
  if messages.any fun row => row.id = message.id then messages else messages ++ [message]

/-- The first row under each id. -/
def firstRows (rows : List ConversationMessage) : List ConversationMessage := rows.foldl insertFirst []

variable {live : Live} {threadId other : String} {message : ConversationMessage}
  {rows : List ConversationMessage}

theorem mem_part {entries : List (String × ConversationMessage)} :
    message ∈ part entries threadId ↔ (threadId, message) ∈ entries := by
  rw [part, List.mem_map]
  constructor
  · intro h
    obtain ⟨⟨t, m⟩, hmem, heq⟩ := h
    obtain ⟨hentry, ht⟩ := List.mem_filter.mp hmem
    rw [← of_decide_eq_true ht, ← heq]
    exact hentry
  · intro h
    exact ⟨_, List.mem_filter.mpr ⟨h, decide_eq_true rfl⟩, rfl⟩

theorem part_cons (entry : String × ConversationMessage)
    (entries : List (String × ConversationMessage)) :
    part (entry :: entries) threadId =
      if entry.1 = threadId then entry.2 :: part entries threadId else part entries threadId := by
  rw [part, List.filter_cons]
  by_cases h : entry.1 = threadId
  · rw [if_pos h, if_pos (decide_eq_true h)]
    rfl
  · rw [if_neg h, if_neg (fun hd => h (of_decide_eq_true hd))]
    rfl

theorem part_concat (entries : List (String × ConversationMessage)) :
    part (entries ++ [(threadId, message)]) other =
      if threadId = other then part entries other ++ [message] else part entries other := by
  have happend : part (entries ++ [(threadId, message)]) other =
      part entries other ++ part [(threadId, message)] other := by
    rw [part, List.filter_append, List.map_append]
    rfl
  rw [happend, part_cons]
  split_ifs
  · rfl
  · exact List.append_nil _

theorem any_part : (part live threadId).any (fun row => row.id = message.id) =
    live.any fun row => (row.1, row.2.id) = (threadId, message.id) := by
  rw [part, List.any_map, List.any_filter]
  congr 1
  funext row
  rw [Function.comp_apply, ← Bool.decide_and]
  exact decide_eq_decide.mpr Prod.mk_inj.symm

theorem part_insert : part (live.insert threadId message) other =
    if threadId = other then insertFirst (part live other) message else part live other := by
  by_cases h : threadId = other
  · subst h
    rw [if_pos rfl, Live.insert, insertFirst, any_part]
    split_ifs
    · rfl
    · rw [part_concat, if_pos rfl]
  · rw [if_neg h, Live.insert]
    split_ifs
    · rfl
    · rw [part_concat, if_neg h]

theorem part_removeThread : part (live.removeThread threadId) other =
    if threadId = other then [] else part live other := by
  rw [part, Live.removeThread, List.filter_filter]
  by_cases h : threadId = other
  · rw [if_pos h, List.map_eq_nil_iff, List.filter_eq_nil_iff]
    intro row _ hboth
    rw [Bool.and_eq_true, decide_eq_true_iff, decide_eq_true_iff] at hboth
    exact hboth.2 (hboth.1.trans h.symm)
  · rw [if_neg h, part]
    congr 1
    apply List.filter_congr
    intro row _
    by_cases hrow : row.1 = other
    · simp only [hrow, ne_eq, Ne.symm h, not_false_eq_true, decide_true, Bool.and_self]
    · simp only [hrow, decide_false, Bool.false_and]

theorem part_insertRows : part (Live.api.insertRows live threadId rows) other =
    if threadId = other then rows.foldl insertFirst (part live other) else part live other := by
  rw [IndexApi.insertRows]
  induction rows generalizing live with
  | nil =>
      rw [List.foldl_nil, List.foldl_nil, ite_self]
  | cons row rows ih =>
      rw [List.foldl_cons, ih, List.foldl_cons]
      change (if threadId = other then rows.foldl insertFirst (part (live.insert threadId row) other)
        else part (live.insert threadId row) other) = _
      rw [part_insert]
      split_ifs <;> rfl

theorem part_insertAll {entries : List (String × ConversationMessage)} :
    part (Live.api.insertAll live entries) threadId =
      (part entries threadId).foldl insertFirst (part live threadId) := by
  rw [IndexApi.insertAll]
  induction entries generalizing live with
  | nil => rfl
  | cons entry entries ih =>
      rw [List.foldl_cons, ih, part_cons]
      change (part entries threadId).foldl insertFirst (part (live.insert entry.1 entry.2) threadId) = _
      rw [part_insert]
      split_ifs
      · rw [List.foldl_cons]
      · rfl

section Rows

theorem firstRows_concat : firstRows (rows ++ [message]) = insertFirst (firstRows rows) message := by
  rw [firstRows, List.foldl_append]
  rfl

/-- An id that has a first row is one of a row. -/
theorem any_firstRows : (firstRows rows).any (fun row => row.id = message.id) =
    rows.any fun row => row.id = message.id := by
  induction rows using List.reverseRecOn with
  | nil => rfl
  | append_singleton rows row ih =>
      rw [firstRows_concat, insertFirst, List.any_append, ← ih]
      split_ifs with hknown
      · rw [List.any_cons, List.any_nil, Bool.or_false]
        by_cases heq : row.id = message.id
        · rw [heq] at hknown
          rw [hknown, Bool.true_or]
        · rw [decide_eq_false heq, Bool.or_false]
      · rw [List.any_append]

/-- A row that is there already adds nothing. -/
theorem insertFirst_of_mem (h : message ∈ rows) : insertFirst (firstRows rows) message = firstRows rows := by
  rw [insertFirst, any_firstRows, if_pos]
  exact List.any_eq_true.mpr ⟨message, h, decide_eq_true rfl⟩

theorem foldl_insertFirst_of_subset {messages : List ConversationMessage} (h : ∀ m ∈ messages, m ∈ rows) :
    messages.foldl insertFirst (firstRows rows) = firstRows rows := by
  induction messages with
  | nil => rfl
  | cons first messages ih =>
      obtain ⟨hfirst, hrest⟩ := List.forall_mem_cons.mp h
      rw [List.foldl_cons, insertFirst_of_mem hfirst]
      exact ih hrest

theorem mem_firstRows : message ∈ firstRows rows ↔
    rows.find? (fun row => row.id = message.id) = some message := by
  induction rows using List.reverseRecOn with
  | nil => exact iff_of_false List.not_mem_nil nofun
  | append_singleton rows row ih =>
      rw [firstRows_concat, insertFirst, any_firstRows, List.find?_append]
      split_ifs with hknown
      · rw [ih]
        cases hfind : rows.find? (fun r => r.id = message.id) with
        | some found => exact Iff.rfl
        | none =>
            refine iff_of_false nofun ?_
            intro hrow
            have heq : row = message := by
              have := List.mem_of_find?_eq_some hrow
              exact (List.mem_singleton.mp this).symm
            obtain ⟨known, hmem, hid⟩ := List.any_eq_true.mp hknown
            rw [heq] at hid
            exact List.find?_eq_none.mp hfind known hmem hid
      · rw [List.mem_append, ih]
        cases hfind : rows.find? (fun r => r.id = message.id) with
        | some found =>
            rw [Option.some_or]
            refine or_iff_left ?_
            intro hrow
            rw [List.mem_singleton] at hrow
            apply hknown
            refine List.any_eq_true.mpr ⟨found, List.mem_of_find?_eq_some hfind, ?_⟩
            have hid := List.find?_some hfind
            rw [hrow] at hid
            exact hid
        | none =>
            rw [Option.none_or, or_iff_right nofun, List.mem_singleton]
            constructor
            · intro h
              rw [h]
              exact List.find?_cons_of_pos (decide_eq_true rfl)
            · intro h
              exact List.mem_singleton.mp (List.mem_of_find?_eq_some h)

end Rows

end TinyCortex.Conversations
