import TinyCortex.Conversations.InvertedIndex
import TinyCortex.Lib.OrderedMap

/-! The thread and message store (`conversations/store.rs`, `store_ops.rs`, `store_index.rs`): the log of
threads, its fold into the current threads, and the public operations as the file writes they do one
after the other. A transcript is the rows that a reader gets out of its file. -/

namespace TinyCortex.Conversations

/-- A persisted thread. -/
structure ConversationThread where
  id : String
  title : String
  isActive : Bool
  messageCount : Nat
  lastMessageAt : String
  createdAt : String
  parentThreadId : Option String
  labels : List String
  personalityId : Option String
  deriving DecidableEq

structure CreateConversationThread where
  id : String
  title : String
  createdAt : String
  parentThreadId : Option String
  labels : Option (List String)
  personalityId : Option String
  deriving DecidableEq

/-- One line of `threads.jsonl`. -/
inductive ThreadLogEntry
  | upsert (threadId title createdAt updatedAt : String) (parentThreadId : Option String)
      (labels : Option (List String)) (personalityId : Option String)
  | delete (threadId deletedAt : String)
  | messageAppended (threadId lastMessageAt : String)
  | stats (threadId : String) (messageCount : Nat) (lastMessageAt : String)
  deriving DecidableEq

structure ThreadIndexEntry where
  title : String
  createdAt : String
  parentThreadId : Option String
  labels : List String
  messageCount : Option Nat
  lastMessageAt : Option String
  personalityId : Option String
  deriving DecidableEq

def inferLabels (threadId : String) : List String :=
  if threadId = "proactive:morning_briefing" then ["briefing"]
  else if "proactive:".toList.isPrefixOf threadId.toList then ["notification"]
  else ["general"]

def normalizeLabel (label : String) : String :=
  if label = "work" then "general"
  else if label = "from_reflection" ∨ label = "subconscious_tick" then "subconscious"
  else if label = "agent-task" ∨ label = "worker" then "tasks"
  else label

def normalizeLabels (labels : List String) : List String :=
  labels.foldl (fun normalized label =>
    if normalizeLabel label ∈ normalized then normalized
    else normalized ++ [normalizeLabel label]) []

abbrev ThreadIndex := OrderedMap String ThreadIndexEntry

/-- One line folded into the threads. An upsert keeps what is known of the messages. -/
def ThreadIndex.fold (index : ThreadIndex) : ThreadLogEntry → ThreadIndex
  | .upsert threadId title createdAt _ parentThreadId labels personalityId =>
      match index.get threadId with
      | some existing =>
          index.insert threadId
            { existing with
              title := title
              parentThreadId := parentThreadId.or existing.parentThreadId
              labels := (labels.map normalizeLabels).getD existing.labels
              personalityId := personalityId.or existing.personalityId }
      | none =>
          index.insert threadId
            { title := title
              createdAt := createdAt
              parentThreadId := parentThreadId
              labels := (labels.map normalizeLabels).getD (inferLabels threadId)
              messageCount := none
              lastMessageAt := none
              personalityId := personalityId }
  | .delete threadId _ => index.erase threadId
  | .messageAppended threadId lastMessageAt =>
      match index.get threadId with
      | some entry =>
          index.insert threadId
            { entry with
              messageCount := entry.messageCount.map (· + 1)
              lastMessageAt := some lastMessageAt }
      | none => index
  | .stats threadId messageCount lastMessageAt =>
      match index.get threadId with
      | some entry =>
          index.insert threadId
            { entry with messageCount := some messageCount, lastMessageAt := some lastMessageAt }
      | none => index

/-- The conversation root: the log of threads and the transcripts that have a file. -/
structure Disk where
  threads : List ThreadLogEntry
  messages : String → Option (List ConversationMessage)

/-- One write to one file. -/
inductive Write
  | appendThreads (entry : ThreadLogEntry)
  | appendMessage (threadId : String) (message : ConversationMessage)
  | rewriteMessages (threadId : String) (messages : List ConversationMessage)
  | removeMessages (threadId : String)
  deriving DecidableEq

namespace Disk

def empty : Disk := ⟨[], fun _ => none⟩

variable (disk : Disk)

def threadIndex : ThreadIndex := disk.threads.foldl ThreadIndex.fold []

/-- The rows of a transcript. -/
def rows (threadId : String) : List ConversationMessage := (disk.messages threadId).getD []

def apply : Write → Disk
  | .appendThreads entry => { disk with threads := disk.threads ++ [entry] }
  | .appendMessage threadId message =>
      { disk with
        messages := Function.update disk.messages threadId (some (disk.rows threadId ++ [message])) }
  | .rewriteMessages threadId messages =>
      { disk with messages := Function.update disk.messages threadId (some messages) }
  | .removeMessages threadId =>
      { disk with messages := Function.update disk.messages threadId none }

def applyAll (writes : List Write) : Disk := writes.foldl apply disk

/-- The count and the last time of a transcript, read from its file. -/
def measure (threadId : String) : Nat × Option String :=
  ((disk.rows threadId).length, (disk.rows threadId).getLast?.map (·.createdAt))

def thread (threadId : String) (entry : ThreadIndexEntry) (messageCount : Nat)
    (lastMessageAt : String) : ConversationThread where
  id := threadId
  title := entry.title
  isActive := true
  messageCount := messageCount
  lastMessageAt := lastMessageAt
  createdAt := entry.createdAt
  parentThreadId := entry.parentThreadId
  labels := normalizeLabels entry.labels
  personalityId := entry.personalityId

def threadSummary (threadId : String) : Option ConversationThread :=
  (disk.threadIndex.get threadId).map fun entry =>
    match entry.messageCount, entry.lastMessageAt with
    | some count, some last => thread threadId entry count last
    | _, _ =>
        thread threadId entry (disk.measure threadId).1
          ((disk.measure threadId).2.getD entry.createdAt)

section Operations

variable (env : SearchEnv)

/-- The newest conversation first, then the newest thread. -/
def listedBefore (a b : ConversationThread) : Prop :=
  createdAtMs env b.lastMessageAt < createdAtMs env a.lastMessageAt ∨
    createdAtMs env b.lastMessageAt = createdAtMs env a.lastMessageAt ∧
      createdAtMs env b.createdAt ≤ createdAtMs env a.createdAt

instance : DecidableRel (listedBefore env) := fun _ _ => inferInstanceAs (Decidable (_ ∨ _ ∧ _))

def threadsFromIndex (index : ThreadIndex) : List ConversationThread :=
  (index.map fun row => thread row.1 row.2 (row.2.messageCount.getD 0)
    (row.2.lastMessageAt.getD row.2.createdAt)).insertionSort (listedBefore env)

def ensureThread (request : CreateConversationThread) :
    List Write × Except String ConversationThread :=
  let writes := [Write.appendThreads (.upsert request.id request.title request.createdAt
    request.createdAt request.parentThreadId (request.labels.map normalizeLabels)
    request.personalityId)]
  (writes, match (disk.applyAll writes).threadSummary request.id with
    | some summary => .ok summary
    | none => .error ("thread " ++ request.id ++ " missing after ensure"))

def getMessages (threadId : String) : List ConversationMessage :=
  if (disk.threadIndex.get threadId).isSome then disk.rows threadId else []

/-- First the row, then the line that counts it. -/
def appendMessage (threadId : String) (message : ConversationMessage) :
    List Write × Except String ConversationMessage :=
  if (disk.threadIndex.get threadId).isNone then
    ([], .error ("thread " ++ threadId ++ " not found"))
  else
    match if isDeterministicMessageId message.id then
        (disk.rows threadId).find? fun row => row.id = message.id else none with
    | some existing => ([], .ok existing)
    | none =>
        ([.appendMessage threadId message,
          .appendThreads (.messageAppended threadId message.createdAt)], .ok message)

/-- First the shorter transcript, then its count. -/
def deleteMessagesFrom (threadId messageId : String) : List Write × Except String (Option Nat) :=
  match (disk.rows threadId).findIdx? fun row => row.id = messageId with
  | none => ([], .ok none)
  | some cutAt =>
      let kept := (disk.rows threadId).take cutAt
      let resolvedLast := match kept.getLast? with
        | some last => last.createdAt
        | none => ((disk.threadSummary threadId).map (·.createdAt)).getD ""
      ([.rewriteMessages threadId kept,
        .appendThreads (.stats threadId kept.length resolvedLast)],
        .ok (some ((disk.rows threadId).length - cutAt)))

/-- First the tombstone, then the file. -/
def deleteThread (threadId deletedAt : String) : List Write × Except String Bool :=
  if (disk.threadIndex.get threadId).isNone then ([], .ok false)
  else ([.appendThreads (.delete threadId deletedAt), .removeMessages threadId], .ok true)

/-- The threads without a complete count. -/
def uncounted : List String :=
  (disk.threadIndex.filter fun row =>
    row.2.messageCount.isNone || row.2.lastMessageAt.isNone).map (·.1)

/-- Counting one thread anew, unless that has become superfluous. -/
def reconcile (threadId : String) : List Write :=
  match disk.threadIndex.get threadId with
  | none => []
  | some entry =>
      if entry.messageCount.isSome ∧ entry.lastMessageAt.isSome then []
      else [.appendThreads (.stats threadId (disk.measure threadId).1
        ((disk.measure threadId).2.getD entry.createdAt))]

def reconcileAll (disk : Disk) : List String → List Write
  | [] => []
  | threadId :: threadIds =>
      disk.reconcile threadId ++ reconcileAll (disk.applyAll (disk.reconcile threadId)) threadIds

/-- The loop of `list_threads_coordinated`, one pass a unit of fuel. -/
def listLoop : Nat → Disk → Option (List Write × List ConversationThread)
  | 0, _ => none
  | fuel + 1, disk =>
      if disk.uncounted.isEmpty then some ([], threadsFromIndex env disk.threadIndex)
      else
        let writes := disk.reconcileAll disk.uncounted
        (listLoop fuel (disk.applyAll writes)).map fun rest => (writes ++ rest.1, rest.2)

/-- A pass leaves nothing to count, so that a second one ends the loop. -/
def listThreads : List Write × List ConversationThread :=
  (disk.listLoop env 2).getD ([], [])

end Operations

end Disk
end TinyCortex.Conversations
