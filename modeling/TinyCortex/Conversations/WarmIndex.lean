import TinyCortex.Conversations.LinearScan
import TinyCortex.Conversations.LiveThreads
import TinyCortex.Lib.Interleaving
import TinyCortex.Lib.Machine

/-! The search index beside the transcripts (`conversations/store_ops.rs`, `store_index.rs`,
`store_locks.rs`): clients that ensure, append, truncate, delete, purge and search, one access to shared
state at a time. The locks a client holds follow from where it is. -/

namespace TinyCortex.Conversations

/-- What the store asks of a search index. -/
structure IndexApi (σ : Type) where
  new : σ
  insert : σ → String → ConversationMessage → σ
  removeThread : σ → String → σ

namespace IndexApi

variable {σ : Type} (api : IndexApi σ)

/-- All rows of a thread into an index. -/
def insertRows (idx : σ) (threadId : String) (rows : List ConversationMessage) : σ :=
  rows.foldl (fun idx message => api.insert idx threadId message) idx

def insertAll (idx : σ) (entries : List (String × ConversationMessage)) : σ :=
  entries.foldl (fun idx entry => api.insert idx entry.1 entry.2) idx

end IndexApi

/-- The index of the code. -/
def InvertedIndex.api (env : SearchEnv) : IndexApi InvertedIndex where
  new := .new
  insert idx threadId message := idx.insert env threadId message
  removeThread idx threadId := idx.removeThread threadId

/-- The index as its live messages. -/
def Live.api : IndexApi Live where
  new := []
  insert live threadId message := live.insert threadId message
  removeThread live threadId := live.removeThread threadId

inductive Lock
  | thread (threadId : String)
  | indexBuild
  | metadata
  deriving DecidableEq

inductive EnsurePc
  | waiting
  | entered
  | locked

/-- Behind `locked`: the thread was found, the row is in the transcript, in the journal of a running
build, in a warm index. -/
inductive AppendPc
  | waiting
  | entered
  | locked
  | found
  | written
  | journaled
  | cached

inductive TruncatePc
  | waiting
  | entered
  | building
  | locked
  | rewritten (kept : List ConversationMessage)
  | cached (kept : List ConversationMessage)

/-- From `started` to the last `scanning` a search collects a journal. -/
inductive SearchPc (σ : Type)
  | waiting
  | entered
  | cold
  | building
  | started
  | scanning (threadIds : List String) (idx : σ)
  | drained (idx : σ)
  | primed

/-- What a client is doing. A deletion and a purge are alone with the store. -/
inductive Client (σ : Type)
  | idle
  | ensureThread (pc : EnsurePc) (request : CreateConversationThread)
  | appendMessage (pc : AppendPc) (threadId : String) (message : ConversationMessage)
  | deleteMessagesFrom (pc : TruncatePc) (threadId messageId : String)
  | deleteThread (threadId deletedAt : String)
  | purge
  | search (pc : SearchPc σ)

namespace Client

variable {σ : Type}

/-- The client has the lifecycle read lock. -/
def inside : Client σ → Bool
  | .idle => false
  | .ensureThread .waiting _ => false
  | .appendMessage .waiting _ _ => false
  | .deleteMessagesFrom .waiting _ _ => false
  | .deleteThread _ _ => false
  | .purge => false
  | .search .waiting => false
  | _ => true

/-- What the client keeps from one step to the next. -/
def locks : Client σ → List Lock
  | .ensureThread .locked request => [.thread request.id]
  | .appendMessage .locked threadId _ => [.thread threadId]
  | .appendMessage .found threadId _ => [.thread threadId]
  | .appendMessage .written threadId _ => [.thread threadId]
  | .appendMessage .journaled threadId _ => [.thread threadId, .metadata]
  | .appendMessage .cached threadId _ => [.thread threadId, .metadata]
  | .deleteMessagesFrom .building _ _ => [.indexBuild]
  | .deleteMessagesFrom .locked threadId _ => [.indexBuild, .thread threadId]
  | .deleteMessagesFrom (.rewritten _) threadId _ => [.indexBuild, .thread threadId]
  | .deleteMessagesFrom (.cached _) threadId _ => [.indexBuild, .thread threadId]
  | .search .building => [.indexBuild]
  | .search .started => [.indexBuild]
  | .search (.scanning _ _) => [.indexBuild]
  | .search (.drained _) => [.indexBuild, .metadata]
  | _ => []

def isIdle : Client σ → Bool
  | .idle => true
  | _ => false

end Client

/-- A call of the store. -/
inductive StoreCall
  | ensureThread (request : CreateConversationThread)
  | appendMessage (threadId : String) (message : ConversationMessage)
  | deleteMessagesFrom (threadId messageId : String)
  | deleteThread (threadId deletedAt : String)
  | purgeThreads
  | searchCrossThreadMessages
  deriving DecidableEq

def StoreCall.client {σ : Type} : StoreCall → Client σ
  | .ensureThread request => .ensureThread .waiting request
  | .appendMessage threadId message => .appendMessage .waiting threadId message
  | .deleteMessagesFrom threadId messageId => .deleteMessagesFrom .waiting threadId messageId
  | .deleteThread threadId deletedAt => .deleteThread threadId deletedAt
  | .purgeThreads => .purge
  | .searchCrossThreadMessages => .search .waiting

/-- The files, the cached index, the journal of a running build, and the clients. -/
structure IndexWorld (n : Nat) (σ : Type) where
  disk : Disk
  cache : Option σ
  journal : Option (List (String × ConversationMessage))
  clients : Fin n → Client σ

inductive IndexLabel (n : Nat)
  | start (i : Fin n) (call : StoreCall)
  | advance (i : Fin n)
  | restart

namespace IndexWorld

variable {n : Nat} {σ : Type} (api : IndexApi σ) (world : IndexWorld n σ)

def goto (i : Fin n) (client : Client σ) : IndexWorld n σ :=
  { world with clients := Function.update world.clients i client }

def free (lock : Lock) : Prop := Locks.Free Client.locks world.clients lock

/-- The lifecycle write lock can be had. -/
def nobodyInside : Prop := ∀ j, (world.clients j).inside = false

instance (lock : Lock) : Decidable (world.free lock) := inferInstanceAs (Decidable (∀ _, _ ∉ _))

instance : Decidable world.nobodyInside := inferInstanceAs (Decidable (∀ _, _ = _))

def ensureStep (i : Fin n) (request : CreateConversationThread) : EnsurePc → IndexWorld n σ
  | .waiting => world.goto i (.ensureThread .entered request)
  | .entered =>
      if world.free (.thread request.id) then world.goto i (.ensureThread .locked request) else world
  | .locked =>
      if world.free .metadata then
        { world with disk := world.disk.applyAll (world.disk.ensureThread request).1 }.goto i .idle
      else world

def appendStep (i : Fin n) (threadId : String) (message : ConversationMessage) :
    AppendPc → IndexWorld n σ
  | .waiting => world.goto i (.appendMessage .entered threadId message)
  | .entered =>
      if world.free (.thread threadId) then world.goto i (.appendMessage .locked threadId message)
      else world
  | .locked =>
      if world.free .metadata then
        if (world.disk.threadIndex.get threadId).isNone then world.goto i .idle
        else world.goto i (.appendMessage .found threadId message)
      else world
  | .found =>
      match if isDeterministicMessageId message.id then
          (world.disk.rows threadId).find? fun row => row.id = message.id else none with
      | some _ => world.goto i .idle
      | none =>
          { world with disk := world.disk.apply (.appendMessage threadId message) }.goto i
            (.appendMessage .written threadId message)
  | .written =>
      if world.free .metadata then
        { world with journal := world.journal.map (· ++ [(threadId, message)]) }.goto i
          (.appendMessage .journaled threadId message)
      else world
  | .journaled =>
      { world with cache := world.cache.map fun idx => api.insert idx threadId message }.goto i
        (.appendMessage .cached threadId message)
  | .cached =>
      { world with
        disk := world.disk.apply
          (.appendThreads (.messageAppended threadId message.createdAt)) }.goto i .idle

def truncateStep (i : Fin n) (threadId messageId : String) : TruncatePc → IndexWorld n σ
  | .waiting => world.goto i (.deleteMessagesFrom .entered threadId messageId)
  | .entered =>
      if world.free .indexBuild then
        world.goto i (.deleteMessagesFrom .building threadId messageId)
      else world
  | .building =>
      if world.free (.thread threadId) then
        world.goto i (.deleteMessagesFrom .locked threadId messageId)
      else world
  | .locked =>
      match (world.disk.rows threadId).findIdx? fun row => row.id = messageId with
      | none => world.goto i .idle
      | some cutAt =>
          let kept := (world.disk.rows threadId).take cutAt
          { world with disk := world.disk.apply (.rewriteMessages threadId kept) }.goto i
            (.deleteMessagesFrom (.rewritten kept) threadId messageId)
  | .rewritten kept =>
      { world with
        cache := world.cache.map fun idx =>
          api.insertRows (api.removeThread idx threadId) threadId kept }.goto i
            (.deleteMessagesFrom (.cached kept) threadId messageId)
  | .cached kept =>
      if world.free .metadata then
        let resolvedLast := match kept.getLast? with
          | some last => last.createdAt
          | none => ((world.disk.threadSummary threadId).map (·.createdAt)).getD ""
        { world with
          disk := world.disk.apply
            (.appendThreads (.stats threadId kept.length resolvedLast)) }.goto i .idle
      else world

/-- The search, with the build of a cold index in front of it. -/
def searchStep (i : Fin n) : SearchPc σ → IndexWorld n σ
  | .waiting => world.goto i (.search .entered)
  | .entered => world.goto i (.search (if world.cache.isSome then .primed else .cold))
  | .cold => if world.free .indexBuild then world.goto i (.search .building) else world
  | .building =>
      if world.cache.isSome then world.goto i (.search .primed)
      else { world with journal := some [] }.goto i (.search .started)
  | .started =>
      if world.free .metadata then
        world.goto i (.search (.scanning (world.disk.threadIndex.map (·.1)) api.new))
      else world
  | .scanning (threadId :: threadIds) idx =>
      if world.free (.thread threadId) then
        world.goto i (.search (.scanning threadIds
          (api.insertRows idx threadId (world.disk.rows threadId))))
      else world
  | .scanning [] idx =>
      if world.free .metadata then
        { world with journal := none }.goto i
          (.search (.drained (api.insertAll idx (world.journal.getD []))))
      else world
  | .drained idx => { world with cache := some idx }.goto i (.search .primed)
  | .primed => world.goto i .idle

def advance (i : Fin n) : IndexWorld n σ :=
  match world.clients i with
  | .idle => world
  | .ensureThread pc request => world.ensureStep i request pc
  | .appendMessage pc threadId message => world.appendStep api i threadId message pc
  | .deleteMessagesFrom pc threadId messageId => world.truncateStep api i threadId messageId pc
  | .deleteThread threadId deletedAt =>
      if world.nobodyInside then
        if (world.disk.threadIndex.get threadId).isNone then world.goto i .idle
        else
          { world with
            disk := world.disk.applyAll (world.disk.deleteThread threadId deletedAt).1
            cache := world.cache.map fun idx => api.removeThread idx threadId }.goto i .idle
      else world
  | .purge =>
      if world.nobodyInside then { world with disk := Disk.empty, cache := none }.goto i .idle
      else world
  | .search pc => world.searchStep api i pc

/-- A restart of the process, while nothing is going on, leaves a cold index. -/
def step : IndexLabel n → IndexWorld n σ
  | .start i call => if (world.clients i).isIdle then world.goto i call.client else world
  | .advance i => world.advance api i
  | .restart => if world.nobodyInside then { world with cache := none } else world

def machine (n : Nat) : Machine (IndexWorld n σ) (IndexLabel n) where
  start := ⟨Disk.empty, none, none, fun _ => .idle⟩
  step := step api

end IndexWorld

/-- A warm index, while nothing is going on, has of every live thread the first message under each id,
and nothing else. -/
def WarmMatches {n : Nat} (world : IndexWorld n Live) : Prop :=
  world.nobodyInside → ∀ idx ∈ world.cache, ∀ threadId message,
    (threadId, message) ∈ idx ↔ world.disk.Live threadId ∧
      (world.disk.rows threadId).find? (fun row => row.id = message.id) = some message

/-- The same of the documents in the index of the code, while slot numbers last. -/
def WarmDocsMatch (env : SearchEnv) {n : Nat} (world : IndexWorld n InvertedIndex) : Prop :=
  world.nobodyInside → ∀ idx ∈ world.cache, idx.docs.length ≤ 2 ^ 32 → ∀ doc,
    doc ∈ idx.live ↔ ∃ threadId message, doc = docEntry env threadId message ∧
      world.disk.Live threadId ∧
        (world.disk.rows threadId).find? (fun row => row.id = message.id) = some message

end TinyCortex.Conversations
