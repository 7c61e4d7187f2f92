import TinyCortex.Conversations.ThreadCounts

/-! Which threads are live, and what each operation of the store does to them and to the rows. -/

namespace TinyCortex.Conversations.Disk

variable {disk : Disk} {threadId other : String}

/-- The log has the thread and no later tombstone. -/
def Live (disk : Disk) (threadId : String) : Prop := (disk.threadIndex.get threadId).isSome

instance (disk : Disk) (threadId : String) : Decidable (disk.Live threadId) :=
  inferInstanceAs (Decidable (_ = true))

theorem live_upsert (title createdAt updatedAt : String) (parentThreadId : Option String)
    (labels : Option (List String)) (personalityId : Option String) :
    (disk.apply (.appendThreads (.upsert threadId title createdAt updatedAt parentThreadId labels
      personalityId))).Live other ↔ threadId = other ∨ disk.Live other := by
  rw [Live, threadIndex_appendThreads, ThreadIndex.fold]
  cases disk.threadIndex.get threadId <;>
  · dsimp only
    rw [OrderedMap.get_insert]
    split_ifs with heq
    · exact iff_of_true rfl (Or.inl heq)
    · exact (or_iff_right heq).symm

theorem live_messageAppended (disk : Disk) (lastMessageAt : String) :
    (disk.apply (.appendThreads (.messageAppended threadId lastMessageAt))).Live other ↔
      disk.Live other := by
  rw [Live, threadIndex_appendThreads, ThreadIndex.fold]
  cases hold : disk.threadIndex.get threadId with
  | none => exact Iff.rfl
  | some entry =>
      dsimp only
      rw [OrderedMap.get_insert]
      split_ifs with heq
      · subst heq
        exact iff_of_true rfl (Option.isSome_of_mem hold)
      · exact Iff.rfl

theorem live_stats (messageCount : Nat) (lastMessageAt : String) :
    (disk.apply (.appendThreads (.stats threadId messageCount lastMessageAt))).Live other ↔
      disk.Live other := by
  rw [Live, threadIndex_appendThreads, get_fold_stats]
  split_ifs
  · rw [Option.isSome_map]
    exact Iff.rfl
  · exact Iff.rfl

section List

variable {env : SearchEnv}

/-- All that a listing writes are counts. -/
theorem stats_of_mem_reconcileAll {threadIds : List String} {write : Write}
    (h : write ∈ disk.reconcileAll threadIds) :
    ∃ threadId n lastAt, write = .appendThreads (.stats threadId n lastAt) := by
  induction threadIds generalizing disk with
  | nil => cases h
  | cons threadId threadIds ih =>
      rw [reconcileAll, List.mem_append] at h
      rcases h with hfirst | hrest
      · rcases reconcile_cases disk threadId with ⟨-, hnil⟩ | ⟨lastAt, -, hline⟩
        · rw [hnil] at hfirst
          cases hfirst
        · rw [hline] at hfirst
          exact ⟨_, _, _, List.mem_singleton.mp hfirst⟩
      · exact ih hrest

theorem stats_of_mem_listLoop {fuel : Nat} {writes : List Write} {threads : List ConversationThread}
    (h : disk.listLoop env fuel = some (writes, threads)) {write : Write} (hwrite : write ∈ writes) :
    ∃ threadId n lastAt, write = .appendThreads (.stats threadId n lastAt) := by
  induction fuel generalizing disk writes with
  | zero => cases h
  | succ fuel ih =>
      rw [listLoop] at h
      split_ifs at h
      · obtain ⟨rfl, rfl⟩ := Prod.mk.inj (Option.some.inj h)
        cases hwrite
      · obtain ⟨⟨rest, listed⟩, hrest, heq⟩ := Option.map_eq_some_iff.mp h
        obtain ⟨rfl, rfl⟩ := Prod.mk.inj heq
        rcases List.mem_append.mp hwrite with hfirst | hlater
        · exact stats_of_mem_reconcileAll hfirst
        · exact ih hrest hlater

/-- Counts change neither the rows nor which threads are live. -/
theorem applyAll_stats (disk : Disk) {writes : List Write}
    (h : ∀ write ∈ writes, ∃ threadId n lastAt, write = .appendThreads (.stats threadId n lastAt)) :
    (disk.applyAll writes).messages = disk.messages ∧
      ∀ other, (disk.applyAll writes).Live other ↔ disk.Live other := by
  induction writes generalizing disk with
  | nil => exact ⟨rfl, fun _ => Iff.rfl⟩
  | cons write writes ih =>
      obtain ⟨hwrite, hwrites⟩ := List.forall_mem_cons.mp h
      obtain ⟨threadId, n, lastAt, rfl⟩ := hwrite
      obtain ⟨hmessages, hlive⟩ := ih (disk.apply (.appendThreads (.stats threadId n lastAt))) hwrites
      exact ⟨hmessages, fun other => (hlive other).trans (live_stats n lastAt)⟩

theorem listThreads_frame (env : SearchEnv) (disk : Disk) :
    (disk.applyAll (disk.listThreads env).1).messages = disk.messages ∧
      ∀ other, (disk.applyAll (disk.listThreads env).1).Live other ↔ disk.Live other := by
  refine disk.applyAll_stats fun write hwrite => ?_
  obtain ⟨⟨writes, threads⟩, hlisted⟩ :=
    Option.isSome_iff_exists.mp (listLoop_isSome env 0 disk)
  rw [listThreads, hlisted] at hwrite
  exact stats_of_mem_listLoop hlisted hwrite

/-- A listing shows the live threads. -/
theorem mem_listThreads (env : SearchEnv) :
    (∃ thread ∈ (disk.listThreads env).2, thread.id = threadId) ↔ disk.Live threadId := by
  rw [← (listThreads_frame env disk).2 threadId, (listThreads_spec env disk).2, Live,
    Option.isSome_iff_exists]
  constructor
  · rintro ⟨thread, hmem, rfl⟩
    obtain ⟨found, entry, hentry, rfl⟩ := mem_threadsFromIndex.mp hmem
    exact ⟨entry, hentry⟩
  · rintro ⟨entry, hentry⟩
    exact ⟨_, mem_threadsFromIndex.mpr ⟨threadId, entry, hentry, rfl⟩, rfl⟩

end List

theorem live_ensureThread (request : CreateConversationThread) :
    (disk.applyAll (disk.ensureThread request).1).Live other ↔
      request.id = other ∨ disk.Live other := live_upsert _ _ _ _ _ _

/-- Ensuring a thread succeeds. -/
theorem ensureThread_isOk (disk : Disk) (request : CreateConversationThread) :
    ∃ thread, (disk.ensureThread request).2 = .ok thread := by
  have hlive : (disk.applyAll (disk.ensureThread request).1).Live request.id :=
    (live_ensureThread request).mpr (Or.inl rfl)
  have hsome : ((disk.applyAll (disk.ensureThread request).1).threadSummary request.id).isSome := by
    rw [threadSummary, Option.isSome_map]
    exact hlive
  obtain ⟨summary, hsummary⟩ := Option.isSome_iff_exists.mp hsome
  refine ⟨summary, ?_⟩
  rw [ensureThread] at hsummary ⊢
  dsimp only at hsummary ⊢
  rw [hsummary]

theorem live_appendMessage (threadId : String) (message : ConversationMessage) :
    (disk.applyAll (disk.appendMessage threadId message).1).Live other ↔ disk.Live other := by
  rcases disk.appendMessage_writes threadId message with hwrites | hwrites
  · rw [hwrites]
    exact Iff.rfl
  · rw [hwrites]
    exact live_messageAppended (disk.apply (.appendMessage threadId message)) _

end TinyCortex.Conversations.Disk
