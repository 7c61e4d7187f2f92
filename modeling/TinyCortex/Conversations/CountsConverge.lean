import TinyCortex.Conversations.ThreadCounts

/-! Runs of store operations any of which may stop between two of its writes. The count that a listing
reports is wrong only after an append or a truncation that stopped behind its transcript write while
the log already had a count: nothing measures that thread again. -/

namespace TinyCortex.Conversations

inductive StoreOp
  | ensureThread (request : CreateConversationThread)
  | appendMessage (threadId : String) (message : ConversationMessage)
  | deleteMessagesFrom (threadId messageId : String)
  | deleteThread (threadId deletedAt : String)
  | listThreads

/-- The writes of an operation that happen: all of them, or the first few. -/
def written (stop : Option Nat) (writes : List Write) : List Write :=
  stop.elim writes writes.take

namespace Disk

variable (env : SearchEnv) (disk : Disk)

def writes : StoreOp → List Write
  | .ensureThread request => (disk.ensureThread request).1
  | .appendMessage threadId message => (disk.appendMessage threadId message).1
  | .deleteMessagesFrom threadId messageId => (disk.deleteMessagesFrom threadId messageId).1
  | .deleteThread threadId deletedAt => (disk.deleteThread threadId deletedAt).1
  | .listThreads => (disk.listThreads env).1

end Disk

/-- The files, and what the last operation listed, if it was a listing that came to its end. -/
structure CountWorld where
  disk : Disk
  reported : Option (List ConversationThread)

/-- An operation, and after how many writes it stops if it does. -/
structure CountLabel where
  op : StoreOp
  stop : Option Nat

namespace CountWorld

variable (env : SearchEnv)

def reports (disk : Disk) (label : CountLabel) : Option (List ConversationThread) :=
  match label.op, label.stop with
  | .listThreads, none => some (disk.listThreads env).2
  | _, _ => none

def machine : Machine CountWorld CountLabel where
  start := ⟨Disk.empty, none⟩
  step world label :=
    { disk := world.disk.applyAll (written label.stop (world.disk.writes env label.op))
      reported := reports env world.disk label }

/-- A listing reports the live threads, each with the number of its rows and the time of the last. -/
def CountsRight (world : CountWorld) : Prop :=
  ∀ threads ∈ world.reported,
    (∀ threadId, threadId ∈ threads.map (·.id) ↔ (world.disk.threadIndex.get threadId).isSome) ∧
      ∀ thread ∈ threads, thread.messageCount = (world.disk.rows thread.id).length ∧
        ∀ last ∈ (world.disk.rows thread.id).getLast?, thread.lastMessageAt = last.createdAt

/-- The thread whose transcript an operation writes and then counts. -/
def countedThread : StoreOp → Option String
  | .appendMessage threadId _ => some threadId
  | .deleteMessagesFrom threadId _ => some threadId
  | _ => none

/-- No operation stops behind its transcript write while the thread has a count. -/
def Careful (world : CountWorld) (label : CountLabel) : Prop :=
  label.stop = some 1 → world.disk.writes env label.op ≠ [] →
    ∀ threadId ∈ countedThread label.op, ¬world.disk.CountKnown threadId

end CountWorld

namespace Disk

variable {env : SearchEnv} {disk : Disk} {stop : Option Nat}

theorem CountedThroughout.written {writes : List Write} (h : disk.CountedThroughout writes)
    (stop : Option Nat) : (disk.applyAll (Conversations.written stop writes)).Counted := by
  cases stop with
  | none => exact h.all
  | some k => exact h.take k

/-- Of two writes only the state between them is at risk. -/
theorem counted_two {first second : Write} (h : disk.Counted)
    (hfirst : stop = some 1 → (disk.apply first).Counted)
    (hboth : ((disk.apply first).apply second).Counted) :
    (disk.applyAll (Conversations.written stop [first, second])).Counted := by
  match stop, hfirst with
  | none, _ => exact hboth
  | some 0, _ => exact h
  | some 1, hfirst => exact hfirst rfl
  | some (k + 2), _ =>
      rw [written, Option.elim_some, List.take_of_length_le (by simp)]
      exact hboth

theorem Counted.ensureThread (h : disk.Counted) (request : CreateConversationThread) :
    disk.CountedThroughout (disk.ensureThread request).1 :=
  ⟨h, h.upsert request _ _⟩

theorem Counted.deleteThread (h : disk.Counted) (threadId deletedAt : String) :
    disk.CountedThroughout (disk.deleteThread threadId deletedAt).1 := by
  rw [Disk.deleteThread]
  split_ifs
  · exact h
  · exact ⟨h, h.delete deletedAt, h.remove deletedAt⟩

/-- A truncation writes nothing, or the rows it keeps and their count. -/
theorem deleteMessagesFrom_writes (disk : Disk) (threadId messageId : String) :
    (disk.deleteMessagesFrom threadId messageId).1 = [] ∨
      ∃ kept lastAt, (∀ last ∈ kept.getLast?, lastAt = last.createdAt) ∧
        (disk.deleteMessagesFrom threadId messageId).1 = [.rewriteMessages threadId kept,
          .appendThreads (.stats threadId kept.length lastAt)] := by
  rw [deleteMessagesFrom]
  cases (disk.rows threadId).findIdx? fun row => row.id = messageId with
  | none => exact Or.inl rfl
  | some cutAt =>
      refine Or.inr ⟨_, _, fun last hlast => ?_, rfl⟩
      rw [Option.mem_def.mp hlast]

/-- A careful operation, stopped or not, keeps the counts right. -/
theorem Counted.written (h : disk.Counted) {label : CountLabel} {reported}
    (hcareful : CountWorld.Careful env ⟨disk, reported⟩ label) :
    (disk.applyAll (Conversations.written label.stop (disk.writes env label.op))).Counted := by
  obtain ⟨op, stop⟩ := label
  have hnil : disk.CountedThroughout [] := h
  cases op with
  | ensureThread request => exact (h.ensureThread request).written stop
  | deleteThread threadId deletedAt => exact (h.deleteThread threadId deletedAt).written stop
  | listThreads => exact h.listThreads.written stop
  | appendMessage threadId message =>
      change (disk.applyAll (Conversations.written stop (disk.appendMessage threadId message).1)).Counted
      rcases disk.appendMessage_writes threadId message with hwrites | hwrites
      · rw [hwrites]
        exact hnil.written stop
      · rw [hwrites]
        refine counted_two h (fun hstop => ?_) (h.append message)
        have hsome : (disk.appendMessage threadId message).1 ≠ [] := by simp [hwrites]
        exact h.appendMessage (hcareful hstop hsome threadId rfl) message
  | deleteMessagesFrom threadId messageId =>
      change (disk.applyAll
        (Conversations.written stop (disk.deleteMessagesFrom threadId messageId).1)).Counted
      rcases disk.deleteMessagesFrom_writes threadId messageId with
        hwrites | ⟨kept, lastAt, hlast, hwrites⟩
      · rw [hwrites]
        exact hnil.written stop
      · rw [hwrites]
        refine counted_two h (fun hstop => ?_) (h.rewrite kept lastAt hlast)
        have hsome : (disk.deleteMessagesFrom threadId messageId).1 ≠ [] := by simp [hwrites]
        exact h.rewriteMessages (hcareful hstop hsome threadId rfl) kept

/-- Right counts, once there are no unknown ones, are what the threads report. -/
theorem Counted.countsRight (h : disk.Counted) (hall : disk.uncounted = []) :
    CountWorld.CountsRight ⟨disk, some (threadsFromIndex env disk.threadIndex)⟩ := by
  intro threads hthreads
  rw [← Option.some.inj hthreads]
  refine ⟨fun threadId => ?_, fun thread hthread => ?_⟩
  · rw [List.mem_map]
    constructor
    · rintro ⟨thread, hthread, rfl⟩
      obtain ⟨threadId, entry, hentry, rfl⟩ := mem_threadsFromIndex.mp hthread
      exact Option.isSome_of_mem hentry
    · intro hsome
      obtain ⟨entry, hentry⟩ := Option.isSome_iff_exists.mp hsome
      exact ⟨_, mem_threadsFromIndex.mpr ⟨threadId, entry, hentry, rfl⟩, rfl⟩
  · obtain ⟨threadId, entry, hentry, rfl⟩ := mem_threadsFromIndex.mp hthread
    have hcomplete : disk.Complete threadId := by
      by_contra hnot
      have hmem := mem_uncounted.mpr hnot
      rw [hall] at hmem
      exact List.not_mem_nil hmem
    obtain ⟨n, hn⟩ := Option.isSome_iff_exists.mp (hcomplete entry hentry).1
    obtain ⟨hrows, hlast⟩ := h threadId entry n hentry hn
    dsimp only [Disk.thread]
    refine ⟨?_, fun last hmem => ?_⟩
    · rw [hn]
      exact hrows
    · rw [hlast last hmem]
      rfl

end Disk

namespace CountWorld

variable (env : SearchEnv)

/-- Known counts are right, and so is what the last listing reported. -/
structure Sound (world : CountWorld) : Prop where
  counted : world.disk.Counted
  reported : CountsRight world

/-- In every run of careful operations every listing reports the rows. -/
theorem countsRight_of_careful {labels : List CountLabel}
    (hcareful : (machine env).AllSteps (Careful env) labels) :
    (machine env).Throughout CountsRight labels := by
  have hstart : Sound (machine env).start :=
    ⟨nofun, nofun⟩
  refine (machine env).throughout_of_steps hstart ?_ (fun world h => h.reported) hcareful
  intro world label h hlabel
  have hcounted := h.counted.written hlabel
  refine ⟨hcounted, ?_⟩
  obtain ⟨op, stop⟩ := label
  by_cases hlist : op = .listThreads ∧ stop = none
  · obtain ⟨rfl, rfl⟩ := hlist
    obtain ⟨hall, hreported⟩ := Disk.listThreads_spec env world.disk
    change CountsRight ⟨world.disk.applyAll (world.disk.listThreads env).1,
      some (world.disk.listThreads env).2⟩
    rw [hreported]
    exact hcounted.countsRight hall
  · have hnone : reports env world.disk ⟨op, stop⟩ = none := by
      rw [reports]
      split
      next hop hstop => exact absurd ⟨hop, hstop⟩ hlist
      next => rfl
    intro threads hthreads
    change threads ∈ reports env world.disk ⟨op, stop⟩ at hthreads
    rw [hnone] at hthreads
    cases hthreads

section Sample

/-- Letters stay as they are and no time parses. -/
def plainEnv : SearchEnv := ⟨fun c => [c], fun _ => none⟩

def sampleRequest : CreateConversationThread := ⟨"t", "Pets", "day 1", none, none, none⟩

def sampleRow (id createdAt : String) : ConversationMessage :=
  ⟨id, "hello", "text", "null", "user", createdAt⟩

/-- The first append, before any count, may stop behind its row. -/
theorem countsRight_uncounted_append :
    (machine plainEnv).Throughout CountsRight
      [⟨.ensureThread sampleRequest, none⟩, ⟨.appendMessage "t" (sampleRow "a" "day 2"), some 1⟩,
        ⟨.listThreads, none⟩, ⟨.appendMessage "t" (sampleRow "b" "day 3"), none⟩,
        ⟨.listThreads, none⟩] := by
  refine countsRight_of_careful plainEnv ((machine plainEnv).allSteps_iff_stepsFrom.mpr ?_)
  refine ⟨nofun, fun _ _ threadId hthread hknown => ?_, nofun, nofun, nofun, trivial⟩
  obtain rfl := Option.some.inj hthread
  obtain ⟨entry, n, hentry, hcount⟩ := hknown
  have hunknown : ((Disk.empty.applyAll (Disk.empty.ensureThread sampleRequest).1).threadIndex.get
      "t").bind (·.messageCount) = none := by decide +kernel
  have hsome := congrArg (Option.bind · (·.messageCount)) hentry
  rw [Option.bind_some, hcount] at hsome
  cases hunknown.symm.trans hsome

/-- The second append stops behind its row. -/
def stoppedRun : List CountLabel :=
  [⟨.ensureThread sampleRequest, none⟩, ⟨.appendMessage "t" (sampleRow "a" "day 2"), none⟩,
    ⟨.listThreads, none⟩, ⟨.appendMessage "t" (sampleRow "b" "day 3"), some 1⟩,
    ⟨.listThreads, none⟩]

/-- An append that stops behind its row after a listing is not counted by the next one. -/
theorem stopped_append_uncounted : ¬(machine plainEnv).Throughout CountsRight stoppedRun := by
  intro h
  have hright := h _ List.prefix_rfl
  have hreported : ((machine plainEnv).run stoppedRun).reported = some
      [⟨"t", "Pets", true, 1, "day 2", "day 1", none, ["general"], none⟩] := by
    decide +kernel
  have hcount := ((hright _ hreported).2 _ (List.mem_singleton.mpr rfl)).1
  have hrows : (((machine plainEnv).run stoppedRun).disk.rows "t").length = 2 := by decide +kernel
  cases hcount.trans hrows

end Sample

end CountWorld
end TinyCortex.Conversations
