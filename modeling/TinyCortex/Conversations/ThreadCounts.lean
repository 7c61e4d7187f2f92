import TinyCortex.Conversations.Store
import TinyCortex.Lib.Machine

/-! The message counts of the threads. A count that is known is the number of rows as long as no
operation stops between the write to the transcript and the line that counts it; a count that is not
known gets measured by the next listing. -/

namespace TinyCortex.Conversations

section Fold

variable {index : ThreadIndex} {other : String} {entry : ThreadIndexEntry}

theorem ordered_fold (line : ThreadLogEntry) (h : index.Ordered) : (index.fold line).Ordered := by
  cases line with
  | upsert threadId title createdAt updatedAt parentThreadId labels personalityId =>
      rw [ThreadIndex.fold]
      cases index.get threadId <;> exact h.insert
  | delete threadId deletedAt => exact h.erase
  | messageAppended threadId lastMessageAt =>
      rw [ThreadIndex.fold]
      cases index.get threadId
      · exact h
      · exact h.insert
  | stats threadId messageCount lastMessageAt =>
      rw [ThreadIndex.fold]
      cases index.get threadId
      · exact h
      · exact h.insert

theorem get_fold_upsert {threadId title createdAt updatedAt : String} {parentThreadId : Option String}
    {labels : Option (List String)} {personalityId : Option String}
    (h : (index.fold (.upsert threadId title createdAt updatedAt parentThreadId labels
      personalityId)).get other = some entry) :
    (∃ old, index.get other = some old ∧ old.messageCount = entry.messageCount ∧
      old.lastMessageAt = entry.lastMessageAt) ∨ entry.messageCount = none := by
  rw [ThreadIndex.fold] at h
  cases hold : index.get threadId with
  | none =>
      rw [hold] at h
      dsimp only at h
      rw [OrderedMap.get_insert] at h
      split_ifs at h
      · right
        rw [← Option.some.inj h]
      · exact Or.inl ⟨entry, h, rfl, rfl⟩
  | some old =>
      rw [hold] at h
      dsimp only at h
      rw [OrderedMap.get_insert] at h
      split_ifs at h with heq
      · left
        refine ⟨old, heq ▸ hold, ?_⟩
        rw [← Option.some.inj h]
        exact ⟨rfl, rfl⟩
      · exact Or.inl ⟨entry, h, rfl, rfl⟩

theorem get_fold_messageAppended {threadId lastMessageAt : String}
    (h : (index.fold (.messageAppended threadId lastMessageAt)).get other = some entry) :
    threadId ≠ other ∧ index.get other = some entry ∨
      threadId = other ∧ ∃ old, index.get other = some old ∧
        entry.messageCount = old.messageCount.map (· + 1) ∧
          entry.lastMessageAt = some lastMessageAt := by
  rw [ThreadIndex.fold] at h
  cases hold : index.get threadId with
  | none =>
      rw [hold] at h
      refine Or.inl ⟨?_, h⟩
      rintro rfl
      rw [hold] at h
      cases h
  | some old =>
      rw [hold] at h
      dsimp only at h
      rw [OrderedMap.get_insert] at h
      split_ifs at h with heq
      · refine Or.inr ⟨heq, old, heq ▸ hold, ?_⟩
        rw [← Option.some.inj h]
        exact ⟨rfl, rfl⟩
      · exact Or.inl ⟨heq, h⟩

theorem get_fold_stats (threadId : String) (messageCount : Nat) (lastMessageAt other : String) :
    (index.fold (.stats threadId messageCount lastMessageAt)).get other =
      if threadId = other then (index.get other).map fun entry =>
        { entry with messageCount := some messageCount, lastMessageAt := some lastMessageAt }
      else index.get other := by
  rw [ThreadIndex.fold]
  cases hold : index.get threadId with
  | none =>
      dsimp only
      split_ifs with heq
      · rw [← heq, hold]
        rfl
      · rfl
  | some old =>
      dsimp only
      rw [OrderedMap.get_insert]
      split_ifs with heq
      · rw [← heq, hold]
        rfl
      · rfl

end Fold

namespace Disk

variable {disk : Disk} {threadId : String}

@[simp] theorem threadIndex_appendThreads (line : ThreadLogEntry) :
    (disk.apply (.appendThreads line)).threadIndex = disk.threadIndex.fold line := by
  simp [threadIndex, apply, List.foldl_append]

@[simp] theorem rows_appendThreads (line : ThreadLogEntry) (threadId : String) :
    (disk.apply (.appendThreads line)).rows threadId = disk.rows threadId := rfl

theorem rows_appendMessage (message : ConversationMessage) (other : String) :
    (disk.apply (.appendMessage threadId message)).rows other =
      if other = threadId then disk.rows other ++ [message] else disk.rows other := by
  rw [rows, apply]
  dsimp only
  by_cases h : other = threadId
  · subst h
    rw [Function.update_self, if_pos rfl]
    rfl
  · rw [Function.update_of_ne h, if_neg h]
    rfl

theorem rows_rewriteMessages (messages : List ConversationMessage) (other : String) :
    (disk.apply (.rewriteMessages threadId messages)).rows other =
      if other = threadId then messages else disk.rows other := by
  rw [rows, apply]
  dsimp only
  by_cases h : other = threadId
  · subst h
    rw [Function.update_self, if_pos rfl]
    rfl
  · rw [Function.update_of_ne h, if_neg h]
    rfl

theorem rows_removeMessages (other : String) :
    (disk.apply (.removeMessages threadId)).rows other =
      if other = threadId then [] else disk.rows other := by
  rw [rows, apply]
  dsimp only
  by_cases h : other = threadId
  · subst h
    rw [Function.update_self, if_pos rfl]
    rfl
  · rw [Function.update_of_ne h, if_neg h]
    rfl

@[simp] theorem applyAll_nil : disk.applyAll [] = disk := rfl

@[simp] theorem applyAll_cons (write : Write) (writes : List Write) :
    disk.applyAll (write :: writes) = (disk.apply write).applyAll writes := rfl

theorem applyAll_append (writes rest : List Write) :
    disk.applyAll (writes ++ rest) = (disk.applyAll writes).applyAll rest := List.foldl_append

theorem ordered_threadIndex : disk.threadIndex.Ordered := by
  rw [threadIndex]
  induction disk.threads using List.reverseRecOn with
  | nil => exact OrderedMap.ordered_nil
  | append_singleton lines line ih =>
      rw [List.foldl_append]
      exact ordered_fold line ih

/-- Every count that is known is the number of rows, and comes with the time of the last one. -/
def Counted (disk : Disk) : Prop :=
  ∀ threadId entry n, disk.threadIndex.get threadId = some entry → entry.messageCount = some n →
    n = (disk.rows threadId).length ∧
      ∀ last ∈ (disk.rows threadId).getLast?, entry.lastMessageAt = some last.createdAt

/-- The log has a count for the thread. -/
def CountKnown (disk : Disk) (threadId : String) : Prop :=
  ∃ entry n, disk.threadIndex.get threadId = some entry ∧ entry.messageCount = some n

theorem Counted.upsert (h : disk.Counted) (request : CreateConversationThread) (updatedAt : String)
    (labels : Option (List String)) :
    (disk.apply (.appendThreads (.upsert request.id request.title request.createdAt updatedAt
      request.parentThreadId labels request.personalityId))).Counted := by
  intro other entry n hentry hcount
  rw [threadIndex_appendThreads] at hentry
  rw [rows_appendThreads]
  rcases get_fold_upsert hentry with ⟨old, hold, hsame, hlast⟩ | hnone
  · rw [← hlast]
    exact h other old n hold (hsame.trans hcount)
  · rw [hnone] at hcount
    cases hcount

theorem Counted.appendMessage (h : disk.Counted) (hunknown : ¬disk.CountKnown threadId)
    (message : ConversationMessage) : (disk.apply (.appendMessage threadId message)).Counted := by
  intro other entry n hentry hcount
  change disk.threadIndex.get other = some entry at hentry
  rw [rows_appendMessage, if_neg]
  · exact h other entry n hentry hcount
  · rintro rfl
    exact hunknown ⟨entry, n, hentry, hcount⟩

/-- A row and the line that counts it. -/
theorem Counted.append (h : disk.Counted) (message : ConversationMessage) :
    ((disk.apply (.appendMessage threadId message)).apply
      (.appendThreads (.messageAppended threadId message.createdAt))).Counted := by
  intro other entry n hentry hcount
  rw [threadIndex_appendThreads] at hentry
  change (disk.threadIndex.fold _).get other = some entry at hentry
  rw [rows_appendThreads, rows_appendMessage]
  rcases get_fold_messageAppended hentry with ⟨hne, hold⟩ | ⟨rfl, old, hold, hsucc, hlast⟩
  · rw [if_neg (Ne.symm hne)]
    exact h other entry n hold hcount
  · rw [if_pos rfl, List.length_append, List.getLast?_concat]
    rw [hsucc, Option.map_eq_some_iff] at hcount
    obtain ⟨k, hk, rfl⟩ := hcount
    refine ⟨?_, fun last hmem => ?_⟩
    · rw [(h threadId old k hold hk).1]
      rfl
    · rw [hlast, ← Option.some.inj hmem]

theorem Counted.rewriteMessages (h : disk.Counted) (hunknown : ¬disk.CountKnown threadId)
    (messages : List ConversationMessage) :
    (disk.apply (.rewriteMessages threadId messages)).Counted := by
  intro other entry n hentry hcount
  change disk.threadIndex.get other = some entry at hentry
  rw [rows_rewriteMessages, if_neg]
  · exact h other entry n hentry hcount
  · rintro rfl
    exact hunknown ⟨entry, n, hentry, hcount⟩

/-- A shorter transcript and its count. -/
theorem Counted.rewrite (h : disk.Counted) (messages : List ConversationMessage) (lastAt : String)
    (hlast : ∀ last ∈ messages.getLast?, lastAt = last.createdAt) :
    ((disk.apply (.rewriteMessages threadId messages)).apply
      (.appendThreads (.stats threadId messages.length lastAt))).Counted := by
  intro other entry n hentry hcount
  rw [threadIndex_appendThreads] at hentry
  change (disk.threadIndex.fold _).get other = some entry at hentry
  rw [get_fold_stats] at hentry
  rw [rows_appendThreads, rows_rewriteMessages]
  split_ifs at hentry with heq
  · subst heq
    obtain ⟨old, -, rfl⟩ := Option.map_eq_some_iff.mp hentry
    rw [if_pos rfl]
    exact ⟨(Option.some.inj hcount).symm, fun last hmem => congrArg some (hlast last hmem)⟩
  · rw [if_neg (Ne.symm heq)]
    exact h other entry n hentry hcount

theorem Counted.delete (h : disk.Counted) (deletedAt : String) :
    (disk.apply (.appendThreads (.delete threadId deletedAt))).Counted := by
  intro other entry n hentry hcount
  rw [threadIndex_appendThreads, ThreadIndex.fold, OrderedMap.get_erase] at hentry
  rw [rows_appendThreads]
  split_ifs at hentry
  exact h other entry n hentry hcount

theorem Counted.remove (h : disk.Counted) (deletedAt : String) :
    ((disk.apply (.appendThreads (.delete threadId deletedAt))).apply
      (.removeMessages threadId)).Counted := by
  intro other entry n hentry hcount
  change (disk.apply (.appendThreads (.delete threadId deletedAt))).threadIndex.get other =
    some entry at hentry
  rw [threadIndex_appendThreads, ThreadIndex.fold, OrderedMap.get_erase] at hentry
  split_ifs at hentry with heq
  rw [rows_removeMessages, if_neg (Ne.symm heq)]
  exact h other entry n hentry hcount

/-- The counts are right before, between and after the writes. -/
def CountedThroughout : Disk → List Write → Prop
  | disk, [] => disk.Counted
  | disk, write :: writes => disk.Counted ∧ CountedThroughout (disk.apply write) writes

theorem CountedThroughout.append {writes rest : List Write} (h : disk.CountedThroughout writes)
    (hrest : (disk.applyAll writes).CountedThroughout rest) :
    disk.CountedThroughout (writes ++ rest) := by
  induction writes generalizing disk with
  | nil => exact hrest
  | cons write writes ih => exact ⟨h.1, ih h.2 hrest⟩

theorem CountedThroughout.take {writes : List Write} (h : disk.CountedThroughout writes) (k : Nat) :
    (disk.applyAll (writes.take k)).Counted := by
  induction writes generalizing disk k with
  | nil =>
      rw [List.take_nil]
      exact h
  | cons write writes ih =>
      cases k with
      | zero => exact h.1
      | succ k => exact ih h.2 k

theorem CountedThroughout.all {writes : List Write} (h : disk.CountedThroughout writes) :
    (disk.applyAll writes).Counted := by
  have htake := h.take writes.length
  rwa [List.take_length] at htake

/-- What is known of the thread's messages is known in full. -/
def Complete (disk : Disk) (threadId : String) : Prop :=
  ∀ entry, disk.threadIndex.get threadId = some entry →
    entry.messageCount.isSome ∧ entry.lastMessageAt.isSome

theorem mem_uncounted : threadId ∈ disk.uncounted ↔ ¬disk.Complete threadId := by
  have hrow : ∀ entry, (threadId, entry) ∈ disk.threadIndex ↔
      disk.threadIndex.get threadId = some entry := fun entry => ordered_threadIndex.mem_iff
  rw [uncounted, List.mem_map]
  constructor
  · rintro ⟨⟨other, entry⟩, hmem, rfl⟩ hcomplete
    obtain ⟨hmem, hnone⟩ := List.mem_filter.mp hmem
    obtain ⟨hcount, hlast⟩ := hcomplete entry ((hrow entry).mp hmem)
    simp [Option.isNone_iff_eq_none] at hnone
    rcases hnone with hnone | hnone
    · simp [hnone] at hcount
    · simp [hnone] at hlast
  · intro hnot
    by_contra hno
    apply hnot
    intro entry hentry
    by_contra hand
    refine hno ⟨(threadId, entry), List.mem_filter.mpr ⟨(hrow entry).mpr hentry, ?_⟩, rfl⟩
    simp only [Bool.or_eq_true, Option.isNone_iff_eq_none]
    by_contra hboth
    rw [not_or] at hboth
    exact hand ⟨Option.isSome_iff_ne_none.mpr hboth.1, Option.isSome_iff_ne_none.mpr hboth.2⟩

/-- Counting a thread is nothing, or one line for a thread that is not complete. -/
theorem reconcile_cases (disk : Disk) (threadId : String) :
    disk.Complete threadId ∧ disk.reconcile threadId = [] ∨
      ∃ lastAt, (∀ last ∈ (disk.rows threadId).getLast?, lastAt = last.createdAt) ∧
        disk.reconcile threadId =
          [.appendThreads (.stats threadId (disk.rows threadId).length lastAt)] := by
  rw [reconcile]
  cases hentry : disk.threadIndex.get threadId with
  | none => exact Or.inl ⟨fun entry h => by simp [hentry] at h, rfl⟩
  | some entry =>
      dsimp only
      split_ifs with hcomplete
      · left
        refine ⟨fun other hother => ?_, rfl⟩
        rw [← Option.some.inj (hentry.symm.trans hother)]
        exact hcomplete
      · right
        refine ⟨(disk.measure threadId).2.getD entry.createdAt, fun last hlast => ?_, rfl⟩
        rw [measure]
        dsimp only
        rw [Option.mem_def.mp hlast]
        rfl

theorem complete_reconcile {other : String} (h : threadId = other ∨ disk.Complete other) :
    (disk.applyAll (disk.reconcile threadId)).Complete other := by
  rcases reconcile_cases disk threadId with ⟨hcomplete, hnil⟩ | ⟨lastAt, -, hline⟩
  · rw [hnil]
    rcases h with rfl | h
    · exact hcomplete
    · exact h
  · rw [hline]
    intro entry hentry
    rw [applyAll_cons, applyAll_nil, threadIndex_appendThreads, get_fold_stats] at hentry
    split_ifs at hentry with heq
    · obtain ⟨old, -, rfl⟩ := Option.map_eq_some_iff.mp hentry
      exact ⟨rfl, rfl⟩
    · exact h.resolve_left heq entry hentry

theorem Counted.reconcile (h : disk.Counted) :
    disk.CountedThroughout (disk.reconcile threadId) := by
  rcases reconcile_cases disk threadId with ⟨-, hnil⟩ | ⟨lastAt, hlast, hline⟩
  · rw [hnil]
    exact h
  · rw [hline]
    refine ⟨h, ?_⟩
    intro other entry n hentry hcount
    rw [threadIndex_appendThreads, get_fold_stats] at hentry
    rw [rows_appendThreads]
    split_ifs at hentry with heq
    · subst heq
      obtain ⟨old, -, rfl⟩ := Option.map_eq_some_iff.mp hentry
      exact ⟨(Option.some.inj hcount).symm, fun last hmem => congrArg some (hlast last hmem)⟩
    · exact h other entry n hentry hcount

theorem Counted.reconcileAll (h : disk.Counted) (threadIds : List String) :
    disk.CountedThroughout (disk.reconcileAll threadIds) := by
  induction threadIds generalizing disk with
  | nil => exact h
  | cons threadId threadIds ih =>
      have hfirst : disk.CountedThroughout (disk.reconcile threadId) := h.reconcile
      exact hfirst.append (ih hfirst.all)

theorem complete_reconcileAll (threadIds : List String) {other : String}
    (h : other ∈ threadIds ∨ disk.Complete other) :
    (disk.applyAll (disk.reconcileAll threadIds)).Complete other := by
  induction threadIds generalizing disk with
  | nil => exact h.resolve_left List.not_mem_nil
  | cons threadId threadIds ih =>
      rw [Disk.reconcileAll, applyAll_append]
      apply ih
      rw [List.mem_cons] at h
      rcases h with (heq | hmem) | hcomplete
      · exact Or.inr (complete_reconcile (Or.inl heq.symm))
      · exact Or.inl hmem
      · exact Or.inr (complete_reconcile (Or.inr hcomplete))

/-- One pass of the listing leaves nothing to count. -/
theorem uncounted_reconcileAll :
    (disk.applyAll (disk.reconcileAll disk.uncounted)).uncounted = [] := by
  rw [List.eq_nil_iff_forall_not_mem]
  intro threadId hmem
  refine mem_uncounted.mp hmem (complete_reconcileAll disk.uncounted ?_)
  rw [mem_uncounted]
  exact (em _).symm

section List

variable {env : SearchEnv}

theorem listLoop_isSome (env : SearchEnv) (fuel : Nat) (disk : Disk) :
    (disk.listLoop env (fuel + 2)).isSome := by
  rw [listLoop]
  split_ifs
  · rfl
  · dsimp only
    rw [Option.isSome_map, listLoop, if_pos (by rw [uncounted_reconcileAll]; rfl)]
    rfl

/-- The listing ends with everything counted, and reports what it then finds. -/
theorem listLoop_spec {fuel : Nat} {writes : List Write} {threads : List ConversationThread}
    (h : listLoop env fuel disk = some (writes, threads)) :
    (disk.applyAll writes).uncounted = [] ∧
      threads = threadsFromIndex env (disk.applyAll writes).threadIndex ∧
        (disk.Counted → disk.CountedThroughout writes) := by
  induction fuel generalizing disk writes with
  | zero => cases h
  | succ fuel ih =>
      rw [listLoop] at h
      split_ifs at h with hempty
      · obtain ⟨rfl, rfl⟩ := Prod.mk.inj (Option.some.inj h)
        exact ⟨List.isEmpty_iff.mp hempty, rfl, id⟩
      · obtain ⟨⟨rest, listed⟩, hrest, heq⟩ := Option.map_eq_some_iff.mp h
        obtain ⟨rfl, rfl⟩ := Prod.mk.inj heq
        obtain ⟨hnone, hlisted, hkept⟩ := ih hrest
        rw [applyAll_append]
        refine ⟨hnone, hlisted, fun hcounted => ?_⟩
        have hpass := hcounted.reconcileAll disk.uncounted
        exact hpass.append (hkept hpass.all)

/-- A listing that comes to its end has counted everything, and reports that. -/
theorem listThreads_spec (env : SearchEnv) (disk : Disk) :
    (disk.applyAll (disk.listThreads env).1).uncounted = [] ∧
      (disk.listThreads env).2 =
        threadsFromIndex env (disk.applyAll (disk.listThreads env).1).threadIndex := by
  obtain ⟨listed, hlisted⟩ := Option.isSome_iff_exists.mp (listLoop_isSome env 0 disk)
  obtain ⟨hnone, hthreads, -⟩ := listLoop_spec hlisted
  rw [listThreads, hlisted]
  exact ⟨hnone, hthreads⟩

theorem mem_threadsFromIndex {thread : ConversationThread} :
    thread ∈ threadsFromIndex env disk.threadIndex ↔
      ∃ threadId entry, disk.threadIndex.get threadId = some entry ∧
        thread = Disk.thread threadId entry (entry.messageCount.getD 0)
          (entry.lastMessageAt.getD entry.createdAt) := by
  rw [threadsFromIndex, List.mem_insertionSort, List.mem_map]
  constructor
  · rintro ⟨⟨threadId, entry⟩, hmem, rfl⟩
    exact ⟨threadId, entry, ordered_threadIndex.mem_iff.mp hmem, rfl⟩
  · rintro ⟨threadId, entry, hentry, rfl⟩
    exact ⟨(threadId, entry), ordered_threadIndex.mem_iff.mpr hentry, rfl⟩

theorem Counted.listThreads (h : disk.Counted) :
    disk.CountedThroughout (disk.listThreads env).1 := by
  rw [Disk.listThreads]
  cases hlist : disk.listLoop env 2 with
  | none => exact h
  | some listed => exact (listLoop_spec hlist).2.2 h

end List

/-- An append writes nothing, or the row and the line that counts it. -/
theorem appendMessage_writes (disk : Disk) (threadId : String) (message : ConversationMessage) :
    (disk.appendMessage threadId message).1 = [] ∨
      (disk.appendMessage threadId message).1 = [.appendMessage threadId message,
        .appendThreads (.messageAppended threadId message.createdAt)] := by
  rw [appendMessage]
  by_cases hlive : (disk.threadIndex.get threadId).isNone
  · rw [if_pos hlive]
    exact Or.inl rfl
  · rw [if_neg hlive]
    split
    · exact Or.inl rfl
    · exact Or.inr rfl

end Disk
end TinyCortex.Conversations
