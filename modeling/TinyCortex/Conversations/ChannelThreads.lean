import TinyCortex.Conversations.Bus

/-! Runs of channel turns from an empty workspace. A conversation is mixed into another one's thread
exactly if an earlier turn's collision-safe id is the collision-safe or the legacy id of a later turn of
another conversation. -/

namespace TinyCortex.Conversations

namespace ChannelTurnDescriptor

variable {env : BusEnv} {turn : ChannelTurnDescriptor} {disk : Disk}

/-- Channel, sender, reply target and the time that splits a thread, if one does. -/
def conversation (turn : ChannelTurnDescriptor) : String × String × String × Option String :=
  (turn.channel, turn.sender, turn.replyTarget,
    if turn.channel = "telegram" then none else turn.threadTs.bind nonEmptyTrimmed)

theorem channelThreadId_congr {a b : ChannelTurnDescriptor} (h : a.conversation = b.conversation)
    (key : String) : a.channelThreadId key = b.channelThreadId key := by
  simp only [conversation, Prod.mk.injEq] at h
  obtain ⟨hchannel, -, -, hthread⟩ := h
  rw [channelThreadId, channelThreadId, ← hchannel]
  rw [← hchannel] at hthread
  by_cases htelegram : a.channel = "telegram"
  · rw [if_pos htelegram, if_pos htelegram]
  · rw [if_neg htelegram, if_neg htelegram] at hthread ⊢
    rw [hthread]

/-- One conversation has one collision-safe id. -/
theorem persistedChannelThreadId_congr {a b : ChannelTurnDescriptor}
    (h : a.conversation = b.conversation) :
    a.persistedChannelThreadId env = b.persistedChannelThreadId env := by
  have hparts := h
  simp only [conversation, Prod.mk.injEq] at hparts
  obtain ⟨hchannel, hsender, htarget, -⟩ := hparts
  have hcomponents : a.components = b.components := by
    rw [components, components, hchannel, hsender, htarget]
  have hbase : a.baseKey = b.baseKey := by rw [baseKey, baseKey, hchannel, hsender, htarget]
  have hsuffix : a.suffix env = b.suffix env := by
    rw [suffix, suffix, hashed, hashed, hcomponents]
  rw [persistedChannelThreadId, persistedChannelThreadId, hcomponents, hbase, hsuffix]
  exact channelThreadId_congr h _

/-- A turn goes to its legacy thread if there is one. -/
theorem chooseThread_thread :
    (turn.chooseThread env disk).2 =
      if turn.legacyChannelThreadId ≠ turn.persistedChannelThreadId env ∧
          disk.Live turn.legacyChannelThreadId
        then turn.legacyChannelThreadId else turn.persistedChannelThreadId env := by
  rw [chooseThread]
  by_cases hne : turn.legacyChannelThreadId ≠ turn.persistedChannelThreadId env
  · rw [if_pos hne]
    dsimp only
    refine if_congr ?_ rfl rfl
    rw [List.any_eq_true, and_iff_right hne, ← Disk.mem_listThreads env.toSearchEnv]
    simp only [decide_eq_true_iff]
  · rw [if_neg hne, if_neg fun h => hne h.1]

theorem chooseThread_frame (env : BusEnv) (turn : ChannelTurnDescriptor) (disk : Disk) :
    (disk.applyAll (turn.chooseThread env disk).1).messages = disk.messages ∧
      ∀ other, (disk.applyAll (turn.chooseThread env disk).1).Live other ↔ disk.Live other := by
  rw [chooseThread]
  by_cases hne : turn.legacyChannelThreadId ≠ turn.persistedChannelThreadId env
  · rw [if_pos hne]
    exact Disk.listThreads_frame env.toSearchEnv disk
  · rw [if_neg hne]
    exact ⟨rfl, fun _ => Iff.rfl⟩

/-- Nothing fails before the duplicate check. -/
theorem persistChannelTurn_eq (createdAt : String) :
    turn.persistChannelTurn env disk createdAt =
      turn.appendOnce env
        ((disk.applyAll (turn.chooseThread env disk).1).applyAll
          ((disk.applyAll (turn.chooseThread env disk).1).ensureThread
            (turn.request (turn.chooseThread env disk).2 createdAt)).1)
        (turn.chooseThread env disk).2 createdAt := by
  obtain ⟨thread, hok⟩ := Disk.ensureThread_isOk
    (disk.applyAll (turn.chooseThread env disk).1) (turn.request (turn.chooseThread env disk).2 createdAt)
  unfold persistChannelTurn
  dsimp only
  rw [hok]

theorem live_appendOnce (threadId createdAt other : String) :
    (turn.appendOnce env disk threadId createdAt).1.Live other ↔ disk.Live other := by
  rw [appendOnce]
  split_ifs
  · exact Iff.rfl
  · exact Disk.live_appendMessage threadId _

theorem rows_appendOnce {threadId other : String} (createdAt : String) (hother : other ≠ threadId) :
    (turn.appendOnce env disk threadId createdAt).1.rows other = disk.rows other := by
  rw [appendOnce]
  split_ifs
  · rfl
  · dsimp only
    rcases disk.appendMessage_writes threadId (turn.message env createdAt) with hwrites | hwrites
    · rw [hwrites]
      rfl
    · rw [hwrites, Disk.applyAll_cons, Disk.applyAll_cons, Disk.applyAll_nil,
        Disk.rows_appendThreads, Disk.rows_appendMessage, if_neg hother]

/-- The thread of the turn is live afterwards, and the others are as they were. -/
theorem live_persistChannelTurn (createdAt other : String) :
    (turn.persistChannelTurn env disk createdAt).1.Live other ↔
      (turn.chooseThread env disk).2 = other ∨ disk.Live other := by
  rw [persistChannelTurn_eq, live_appendOnce, Disk.live_ensureThread,
    (chooseThread_frame env turn disk).2 other]
  exact Iff.rfl

/-- The other threads keep their rows. -/
theorem rows_persistChannelTurn (createdAt : String) {other : String}
    (hother : other ≠ (turn.chooseThread env disk).2) :
    (turn.persistChannelTurn env disk createdAt).1.rows other = disk.rows other := by
  rw [persistChannelTurn_eq, rows_appendOnce createdAt hother]
  change (disk.applyAll (turn.chooseThread env disk).1).rows other = disk.rows other
  rw [Disk.rows, (chooseThread_frame env turn disk).1]
  rfl

end ChannelTurnDescriptor

/-- A call of `persist_channel_turn` at a time. -/
structure ChannelCall where
  turn : ChannelTurnDescriptor
  createdAt : String

/-- The store, and every turn so far as its conversation and the thread it was written to. -/
structure ChannelWorld where
  disk : Disk
  written : List ((String × String × String × Option String) × String)

namespace ChannelWorld

variable (env : BusEnv)

def machine : Machine ChannelWorld ChannelCall where
  start := ⟨Disk.empty, []⟩
  step world call :=
    { disk := (call.turn.persistChannelTurn env world.disk call.createdAt).1
      written := world.written ++
        [(call.turn.conversation, (call.turn.chooseThread env world.disk).2)] }

/-- Turns of different conversations are in different threads. -/
def NeverMixed (world : ChannelWorld) : Prop :=
  world.written.Pairwise fun a b => a.1 ≠ b.1 → a.2 ≠ b.2

variable {env}

/-- The live threads are those that turns were written to. -/
theorem live_iff_written (calls : List ChannelCall) (threadId : String) :
    ((machine env).run calls).disk.Live threadId ↔
      threadId ∈ ((machine env).run calls).written.map (·.2) := by
  induction calls using List.reverseRecOn with
  | nil =>
      refine iff_of_false ?_ List.not_mem_nil
      intro h
      cases h
  | append_singleton calls call ih =>
      rw [Machine.run_concat]
      change ((call.turn.persistChannelTurn env _ call.createdAt).1).Live threadId ↔
        threadId ∈ (_ ++ [_]).map _
      rw [ChannelTurnDescriptor.live_persistChannelTurn, ih, List.map_append, List.mem_append,
        or_comm, List.map_singleton, List.mem_singleton, eq_comm]

/-- No earlier turn of another conversation has an id that the later turn may use. -/
def Apart (env : BusEnv) (a b : ChannelCall) : Prop :=
  a.turn.conversation ≠ b.turn.conversation →
    a.turn.persistedChannelThreadId env ≠ b.turn.persistedChannelThreadId env ∧
      a.turn.persistedChannelThreadId env ≠ b.turn.legacyChannelThreadId

/-- Every turn under its collision-safe id. -/
def safelyWritten (env : BusEnv) (call : ChannelCall) :
    (String × String × String × Option String) × String :=
  (call.turn.conversation, call.turn.persistedChannelThreadId env)

/-- Behind turns under their collision-safe ids, a turn goes to its own exactly if its legacy thread
is not one of theirs. -/
theorem chooseThread_of_safely {calls : List ChannelCall} (call : ChannelCall)
    (h : ((machine env).run calls).written = calls.map (safelyWritten env)) :
    (call.turn.chooseThread env ((machine env).run calls).disk).2 =
      if call.turn.legacyChannelThreadId ≠ call.turn.persistedChannelThreadId env ∧
          ∃ earlier ∈ calls,
            earlier.turn.persistedChannelThreadId env = call.turn.legacyChannelThreadId
        then call.turn.legacyChannelThreadId else call.turn.persistedChannelThreadId env := by
  rw [ChannelTurnDescriptor.chooseThread_thread]
  refine if_congr (and_congr_right fun _ => ?_) rfl rfl
  rw [live_iff_written, h, List.map_map, List.mem_map]
  exact Iff.rfl

/-- A turn behind turns under their collision-safe ids mixes with none of them exactly if it is apart
from all of them, and then it goes under its own. -/
theorem mixes_iff {calls : List ChannelCall} (call : ChannelCall)
    (h : ((machine env).run calls).written = calls.map (safelyWritten env)) :
    ((∀ earlier ∈ calls, earlier.turn.conversation ≠ call.turn.conversation →
        earlier.turn.persistedChannelThreadId env ≠
          (call.turn.chooseThread env ((machine env).run calls).disk).2) ↔
      ∀ earlier ∈ calls, Apart env earlier call) ∧
    ((∀ earlier ∈ calls, Apart env earlier call) →
      (call.turn.chooseThread env ((machine env).run calls).disk).2 =
        call.turn.persistedChannelThreadId env) := by
  have hsafe : (∀ earlier ∈ calls, Apart env earlier call) →
      (call.turn.chooseThread env ((machine env).run calls).disk).2 =
        call.turn.persistedChannelThreadId env := by
    intro hapart
    rw [chooseThread_of_safely call h, if_neg]
    rintro ⟨hne, earlier, hmem, heq⟩
    by_cases hsame : earlier.turn.conversation = call.turn.conversation
    · exact hne (heq.symm.trans (ChannelTurnDescriptor.persistedChannelThreadId_congr hsame))
    · exact (hapart earlier hmem hsame).2 heq
  refine ⟨⟨fun hnot earlier hmem hdiffer => ?_, fun hapart earlier hmem hdiffer => ?_⟩, hsafe⟩
  · rw [chooseThread_of_safely call h] at hnot
    by_cases hlegacy : call.turn.legacyChannelThreadId ≠ call.turn.persistedChannelThreadId env ∧
        ∃ earlier ∈ calls,
          earlier.turn.persistedChannelThreadId env = call.turn.legacyChannelThreadId
    · rw [if_pos hlegacy] at hnot
      obtain ⟨hne, other, hother, heq⟩ := hlegacy
      have hsame : other.turn.conversation = call.turn.conversation := by
        by_contra hdiffer
        exact hnot other hother hdiffer heq
      exact absurd (heq.symm.trans
        (ChannelTurnDescriptor.persistedChannelThreadId_congr hsame)) hne
    · rw [if_neg hlegacy] at hnot
      have hids := hnot earlier hmem hdiffer
      refine ⟨hids, fun heq => hlegacy ⟨fun hsame => ?_, earlier, hmem, heq⟩⟩
      exact hids (heq.trans hsame)
  · rw [hsafe hapart]
    exact (hapart earlier hmem hdiffer).1

/-- Turns of different conversations stay in different threads exactly if they are apart. -/
theorem neverMixed_iff (env : BusEnv) (calls : List ChannelCall) :
    ((machine env).run calls).NeverMixed ↔ calls.Pairwise (Apart env) := by
  have hboth : (((machine env).run calls).NeverMixed ↔ calls.Pairwise (Apart env)) ∧
      (calls.Pairwise (Apart env) →
        ((machine env).run calls).written = calls.map (safelyWritten env)) := by
    induction calls using List.reverseRecOn with
    | nil => exact ⟨iff_of_true List.Pairwise.nil List.Pairwise.nil, fun _ => rfl⟩
    | append_singleton calls call ih =>
        obtain ⟨hiff, hwritten⟩ := ih
        rw [NeverMixed, Machine.run_concat]
        change (List.Pairwise _ (((machine env).run calls).written ++ [_]) ↔ _) ∧
          (_ → ((machine env).run calls).written ++ [_] = _)
        rw [List.pairwise_append, List.pairwise_append, List.map_append]
        simp only [List.mem_singleton, forall_eq, List.pairwise_singleton, true_and]
        refine ⟨?_, fun h => ?_⟩
        · rw [← NeverMixed, hiff]
          refine and_congr_right fun happart => ?_
          rw [hwritten happart, ← (mixes_iff call (hwritten happart)).1]
          simp only [List.mem_map, forall_exists_index, and_imp, forall_apply_eq_imp_iff₂,
            safelyWritten]
        · rw [hwritten h.1, (mixes_iff call (hwritten h.1)).2 h.2]
          rfl
  exact hboth.1

section Sample

/-- A message in a Slack thread. -/
def threadedCall : ChannelCall where
  createdAt := "2026-01-05T10:00:00+00:00"
  turn :=
    { channel := "slack", messageId := "m1", sender := "alice", replyTarget := "C1"
      threadTs := some "5", content := "in the thread", role := "user", success := none
      elapsedMs := none, source := "channel_received" }

/-- A message to a reply target whose name reads like the thread. -/
def lookalikeCall : ChannelCall where
  createdAt := "2026-01-05T10:00:00+00:00"
  turn :=
    { channel := "slack", messageId := "m2", sender := "alice", replyTarget := "C1_thread:5"
      threadTs := none, content := "elsewhere", role := "user", success := none
      elapsedMs := none, source := "channel_received" }

def plainText : MetadataValue → String
  | .null => "null"
  | .bool value => if value then "true" else "false"
  | .num value => toString value
  | .str value => "\"" ++ value ++ "\""

/-- The digest is that of the one text that gets hashed; no text in the objects needs escapes. -/
def sampleEnv : BusEnv where
  toLowercase c := [c.toLower]
  parseFromRfc3339 text :=
    if text = "2026-01-05T10:00:00+00:00" then some 1767607200000 else none
  sha256 bytes :=
    if bytes = lookalikeCall.turn.hashed then
      [124, 10, 66, 78, 5, 173, 172, 56, 105, 250, 31, 73, 183, 201, 193, 48, 224, 95, 218, 93, 200,
        164, 163, 213, 40, 33, 69, 168, 235, 74, 149, 80]
    else []
  json fields := "\x7b" ++
    ",".intercalate (fields.map fun field => "\"" ++ field.1 ++ "\":" ++ plainText field.2) ++ "\x7d"

/-- The second turn's legacy id is the first one's thread. -/
theorem lookalike_mixed : ¬((machine sampleEnv).run [threadedCall, lookalikeCall]).NeverMixed := by
  have hwritten : ((machine sampleEnv).run [threadedCall, lookalikeCall]).written =
      [(("slack", "alice", "C1", some "5"), "channel:slack_alice_C1_thread:5"),
        (("slack", "alice", "C1_thread:5", none), "channel:slack_alice_C1_thread:5")] := by
    decide +kernel
  intro hnever
  rw [NeverMixed, hwritten] at hnever
  have hpair := List.pairwise_cons.mp hnever
  exact hpair.1 _ List.mem_cons_self (by decide) rfl

end Sample

end ChannelWorld
end TinyCortex.Conversations
