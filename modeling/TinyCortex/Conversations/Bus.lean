import TinyCortex.Conversations.LiveThreads
import TinyCortex.Lib.Lines
import TinyCortex.Lib.Text

/-! Channel turns written to conversation threads (`conversations/bus.rs`): the thread a turn goes to,
and the turn as one operation on the store. -/

namespace TinyCortex.Conversations

/-- A value of the metadata object. -/
inductive MetadataValue
  | null
  | bool (value : Bool)
  | num (value : Nat)
  | str (value : String)
  deriving DecidableEq

/-- What the subscriber takes from libraries besides the store's parsers: the digest, and the JSON
text of an object. -/
structure BusEnv extends SearchEnv where
  sha256 : List UInt8 → List UInt8
  json : List (String × MetadataValue) → String

inductive ChannelEvent
  | received (channel messageId sender replyTarget content : String) (threadTs : Option String)
      (workspaceDir : String)
  | processed (channel messageId sender replyTarget : String) (threadTs : Option String)
      (response : String) (elapsedMs : Nat) (success : Bool) (workspaceDir : String)
  deriving DecidableEq

structure ChannelTurnDescriptor where
  channel : String
  messageId : String
  sender : String
  replyTarget : String
  threadTs : Option String
  content : String
  role : String
  success : Option Bool
  elapsedMs : Option Nat
  source : String
  deriving DecidableEq

/-- The turn of an event, unless it is meant for another workspace. -/
def ChannelEvent.descriptor (myWorkspace : String) : ChannelEvent → Option ChannelTurnDescriptor
  | .received channel messageId sender replyTarget content threadTs workspaceDir =>
      if workspaceDir ≠ myWorkspace then none
      else some
        { channel, messageId, sender, replyTarget, threadTs, content
          role := "user"
          success := none
          elapsedMs := none
          source := "channel_received" }
  | .processed channel messageId sender replyTarget threadTs response elapsedMs success
      workspaceDir =>
      if workspaceDir ≠ myWorkspace then none
      else some
        { channel, messageId, sender, replyTarget, threadTs
          content := response
          role := "assistant"
          success := some success
          elapsedMs := some elapsedMs
          source := "channel_processed" }

def nonEmptyTrimmed (value : String) : Option String :=
  if Text.trim value = "" then none else some (Text.trim value)

/-- `usize::to_be_bytes`. -/
def toBeBytes (n : Nat) : List UInt8 :=
  (List.range 8).map fun i => UInt8.ofNat (n / 256 ^ (7 - i))

/-- The byte as two lowercase digits. -/
def hexByte (byte : UInt8) : List Char :=
  [Nat.digitChar (byte.toNat / 16), Nat.digitChar (byte.toNat % 16)]

namespace ChannelTurnDescriptor

variable (env : BusEnv) (turn : ChannelTurnDescriptor)

def components : List String := [turn.channel, turn.sender, turn.replyTarget]

def baseKey : String := turn.channel ++ "_" ++ turn.sender ++ "_" ++ turn.replyTarget

/-- Each component behind its length. -/
def hashed : List UInt8 :=
  turn.components.flatMap fun component =>
    toBeBytes (Lines.encode component).length ++ Lines.encode component

def suffix : String :=
  String.ofList (((env.sha256 turn.hashed).take 6).flatMap hexByte)

/-- The thread id behind the base key. -/
def channelThreadId (baseKey : String) : String :=
  "channel:" ++
    if turn.channel = "telegram" then baseKey
    else match turn.threadTs.bind nonEmptyTrimmed with
      | some threadTs => baseKey ++ "_thread:" ++ threadTs
      | none => baseKey

def persistedChannelThreadId : String :=
  turn.channelThreadId
    (if turn.components.any fun component => component.toList.contains '_' then
      turn.baseKey ++ "__" ++ turn.suffix env
    else turn.baseKey)

def legacyChannelThreadId : String := turn.channelThreadId turn.baseKey

def channelThreadTitle : String :=
  match turn.threadTs.bind nonEmptyTrimmed with
  | some threadTs =>
      if turn.channel ≠ "telegram" then
        turn.channel ++ " · " ++ turn.sender ++ " · " ++ turn.replyTarget ++ " · thread " ++ threadTs
      else turn.channel ++ " · " ++ turn.sender ++ " · " ++ turn.replyTarget
  | none => turn.channel ++ " · " ++ turn.sender ++ " · " ++ turn.replyTarget

/-- The listing that the choice of the thread makes, and the thread. -/
def chooseThread (disk : Disk) : List Write × String :=
  let collisionSafeId := turn.persistedChannelThreadId env
  let legacyId := turn.legacyChannelThreadId
  if legacyId ≠ collisionSafeId then
    let listed := disk.listThreads env.toSearchEnv
    (listed.1,
      if listed.2.any fun thread => thread.id = legacyId then legacyId else collisionSafeId)
  else ([], collisionSafeId)

def request (threadId createdAt : String) : CreateConversationThread where
  id := threadId
  title := turn.channelThreadTitle
  createdAt := createdAt
  parentThreadId := none
  labels := none
  personalityId := none

def persistedMessageId : String := turn.role ++ ":" ++ turn.messageId

def metadata : List (String × MetadataValue) :=
  [("scope", .str "channel"), ("channel", .str turn.channel), ("channelSender", .str turn.sender),
    ("replyTarget", .str turn.replyTarget), ("threadTs", turn.threadTs.elim .null .str),
    ("sourceEvent", .str turn.source), ("success", turn.success.elim .null .bool),
    ("elapsedMs", turn.elapsedMs.elim .null .num), ("sourceMessageId", .str turn.messageId)]

def message (createdAt : String) : ConversationMessage where
  id := turn.persistedMessageId
  content := turn.content
  messageType := "text"
  extraMetadata := env.json turn.metadata
  sender := turn.role
  createdAt := createdAt

/-- The thread has the turn's message already. -/
def isPersisted (disk : Disk) (threadId : String) : Bool :=
  (disk.getMessages threadId).any fun message => message.id = turn.persistedMessageId

/-- The duplicate check and the append. -/
def appendOnce (disk : Disk) (threadId createdAt : String) : Disk × Except String Unit :=
  if turn.isPersisted disk threadId then (disk, .ok ())
  else
    let appended := disk.appendMessage threadId (turn.message env createdAt)
    (disk.applyAll appended.1, appended.2.map fun _ => ())

/-- One turn, alone with the store: what it leaves, and what it returns. -/
def persistChannelTurn (disk : Disk) (createdAt : String) : Disk × Except String Unit :=
  let choice := turn.chooseThread env disk
  let listed := disk.applyAll choice.1
  let ensured := listed.ensureThread (turn.request choice.2 createdAt)
  match ensured.2 with
  | .error error => (listed.applyAll ensured.1, .error error)
  | .ok _ => turn.appendOnce env (listed.applyAll ensured.1) choice.2 createdAt

end ChannelTurnDescriptor
end TinyCortex.Conversations
