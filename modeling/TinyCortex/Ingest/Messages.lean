import TinyCortex.Chunks.Produce
import TinyCortex.Ingest.Canonicalize

/-! Chat batches and email threads as markdown (`ingest/canonicalize/chat.rs`, `email.rs`), and the chunks cut
from it. Texts are their characters. What chrono makes of a timestamp and what is cleaned from a body come
from outside. -/

namespace TinyCortex.Ingest.Messages

open Chunks Chunks.Produce

structure ChatMessage where
  author : List Char
  timestamp : Int
  text : List Char
  sourceRef : Option String

structure EmailMessage where
  fromAddr : List Char
  toAddrs : List (List Char)
  cc : List (List Char)
  subject : List Char
  sentAt : Int
  body : List Char
  sourceRef : Option String
  listUnsubscribe : Option (List Char)

/-- The metadata of a canonical source, with what is only carried along. -/
structure SourceMetadata extends Ingest.Metadata where
  tags : List String
  sourceRef : Option String

structure CanonicalisedSource where
  markdown : List Char
  metadata : SourceMetadata

def trim (text : List Char) : List Char := trimEnd (text.dropWhile Text.isWhitespace)

def stripReturn (line : List Char) : List Char :=
  if line.getLast? = some '\r' then line.dropLast else line

/-- `str::lines`: an unterminated last line keeps its carriage return. -/
def lines (text : List Char) : List (List Char) :=
  let pieces := Lines.split '\n' text
  pieces.1.map stripReturn ++ if pieces.2 = [] then [] else [pieces.2]

/-- The lines of a body, with a backslash before each that could be taken for a boundary. -/
def escapeLines (forges : List Char → Bool) (body : List Char) : List Char :=
  List.intercalate ['\n'] ((lines body).map fun line => if forges line then '\\' :: line else line)

def mdEscape (s : List Char) : List Char :=
  s.flatMap fun ch =>
    if "\\`*_|".toList.contains ch then ['\\', ch] else if ch = '\n' ∨ ch = '\r' then [' '] else [ch]

def normalizeSourceRef (sourceRef : Option String) : Option String :=
  sourceRef.bind fun value => if Text.trim value = "" then none else some (Text.trim value)

section Render

variable (toRfc3339 : Int → List Char) (cleanBody : List Char → List Char)

def chatHeader (msg : ChatMessage) : List Char :=
  "## ".toList ++ toRfc3339 msg.timestamp ++ " — ".toList ++
    msg.author.map fun c => if c = '\n' ∨ c = '\r' then ' ' else c

def chatBody (msg : ChatMessage) : List Char :=
  escapeLines (fun line => "## ".toList.isPrefixOf line) (trim msg.text)

def renderChat (msg : ChatMessage) : List Char :=
  chatHeader toRfc3339 msg ++ "\n".toList ++ chatBody msg ++ "\n\n".toList

/-- The lines of the header block, without the blank line behind them. -/
def emailHeaders (msg : EmailMessage) : List (List Char) :=
  ["---".toList, "From: ".toList ++ mdEscape msg.fromAddr] ++
    (if msg.toAddrs = [] then []
      else ["To: ".toList ++ mdEscape (List.intercalate ", ".toList msg.toAddrs)]) ++
    (if msg.cc = [] then [] else ["Cc: ".toList ++ mdEscape (List.intercalate ", ".toList msg.cc)]) ++
    ["Subject: ".toList ++ mdEscape msg.subject, "Date: ".toList ++ toRfc3339 msg.sentAt] ++
    (msg.listUnsubscribe.map fun unsub => "List-Unsubscribe: ".toList ++ mdEscape unsub).toList

def emailBody (msg : EmailMessage) : List Char :=
  let cleaned := cleanBody (trim msg.body)
  if cleaned = [] then "\n".toList
  else escapeLines (fun line => trimEnd line == "---".toList) cleaned

def renderEmail (msg : EmailMessage) : List Char :=
  Lines.joined '\n' (emailHeaders toRfc3339 msg) ++ "\n".toList ++ emailBody cleanBody msg ++ "\n\n".toList

end Render

section Canonicalise

variable {M : Type*} (sourceKind : SourceKind) (sentAt : M → Int) (render : M → List Char)
  (sourceRef : M → Option String)

/-- The messages by time, those of one time in their order. -/
def inOrder (messages : List M) : List M := messages.insertionSort fun a b => sentAt a ≤ sentAt b

/-- Canonicalise a batch of messages; an empty one is skipped. -/
def canonicaliseBatch (sourceId owner : String) (tags : List String) (batch : List M) :
    Option CanonicalisedSource :=
  let messages := inOrder sentAt batch
  match messages.head?, messages.getLast? with
  | some first, some last =>
      some {
        markdown := messages.flatMap render
        metadata := {
          sourceKind := sourceKind, sourceId := sourceId, owner := owner, pathScope := none
          timestampMs := sentAt first, timeRangeStartMs := sentAt first, timeRangeEndMs := sentAt last
          tags := tags, sourceRef := normalizeSourceRef (sourceRef first) } }
  | _, _ => none

end Canonicalise

section Chunks

variable (contract : Contract) (now : Int) (toRfc3339 : Int → List Char) (cleanBody : List Char → List Char)
  (sourceId owner : String) (tags : List String) (maxTokens : Nat)

def canonicaliseChat (batch : List ChatMessage) : Option CanonicalisedSource :=
  canonicaliseBatch .chat ChatMessage.timestamp (renderChat toRfc3339) ChatMessage.sourceRef
    sourceId owner tags batch

def canonicaliseEmail (thread : List EmailMessage) : Option CanonicalisedSource :=
  canonicaliseBatch .email EmailMessage.sentAt (renderEmail toRfc3339 cleanBody) EmailMessage.sourceRef
    sourceId owner tags thread

/-- The chunks of a canonical source, by id and content; of none there are none. -/
def sourceChunks (canonical : Option CanonicalisedSource) : List (String × List Char) :=
  match canonical with
  | none => []
  | some source =>
      (chunkMarkdown contract now ⟨source.metadata.sourceKind, sourceId, source.markdown, source.metadata⟩
        maxTokens).map Chunk.named

def chatChunks (batch : List ChatMessage) : List (String × List Char) :=
  sourceChunks contract now sourceId maxTokens (canonicaliseChat toRfc3339 sourceId owner tags batch)

def emailChunks (thread : List EmailMessage) : List (String × List Char) :=
  sourceChunks contract now sourceId maxTokens
    (canonicaliseEmail toRfc3339 cleanBody sourceId owner tags thread)

end Chunks

section Trim

theorem trimEnd_concat (text : List Char) : trimEnd (text ++ ['\n']) = trimEnd text :=
  List.rdropWhile_concat_pos _ _ _ (by decide)

theorem trimEnd_ne_nil {c : Char} {text : List Char} (hmem : c ∈ text) (h : Text.isWhitespace c = false) :
    trimEnd text ≠ [] := by
  intro hnil
  have hall := List.rdropWhile_eq_nil_iff.mp hnil c hmem
  rw [h] at hall
  cases hall

/-- Only a line that starts with a dash is a separator. -/
theorem trimEnd_ne_separator {line : List Char} (h : line.head? ≠ some '-') : trimEnd line ≠ "---".toList := by
  intro heq
  have hprefixed : trimEnd line <+: line := List.rdropWhile_prefix _ line
  rw [heq] at hprefixed
  obtain ⟨rest, hrest⟩ := hprefixed
  rw [← hrest] at h
  exact h rfl

end Trim

section Lines

theorem newline_not_mem_lines {text : List Char} : ∀ line ∈ lines text, '\n' ∉ line := by
  intro line hline
  rcases List.mem_append.mp hline with hmap | htail
  · obtain ⟨piece, hpiece, rfl⟩ := List.mem_map.mp hmap
    have hnone := Lines.not_mem_line hpiece
    rw [stripReturn]
    split_ifs
    · exact fun hmem => hnone ((List.dropLast_sublist piece).subset hmem)
    · exact hnone
  · split_ifs at htail
    · exact absurd htail List.not_mem_nil
    · rw [List.mem_singleton.mp htail]
      exact Lines.not_mem_tail text

/-- No line of an escaped body can be taken for a boundary. -/
theorem forall_mem_splitOn_escapeLines {forges : List Char → Bool} (hempty : ¬forges [])
    (hescaped : ∀ line, ¬forges ('\\' :: line)) (body : List Char) :
    ∀ line ∈ (escapeLines forges body).splitOn '\n', '\n' ∉ line ∧ ¬forges line := by
  have hlines : ∀ line ∈ (lines body).map fun line => if forges line then '\\' :: line else line,
      '\n' ∉ line ∧ ¬forges line := by
    intro line hline
    obtain ⟨original, horiginal, rfl⟩ := List.mem_map.mp hline
    have hnone := newline_not_mem_lines original horiginal
    by_cases hforges : forges original
    · rw [if_pos hforges]
      refine ⟨fun hmem => ?_, hescaped original⟩
      rcases List.mem_cons.mp hmem with heq | hmem
      · exact absurd heq (by decide)
      · exact hnone hmem
    · rw [if_neg hforges]
      exact ⟨hnone, hforges⟩
  exact Lines.forall_mem_splitOn_intercalate ⟨List.not_mem_nil, hempty⟩
    (fun line hline => (hlines line hline).1) hlines

theorem newline_not_mem_mdEscape (s : List Char) : '\n' ∉ mdEscape s := by
  intro hmem
  obtain ⟨ch, -, hch⟩ := List.mem_flatMap.mp hmem
  split_ifs at hch with hspecial hbreak
  · rcases List.mem_pair.mp hch with heq | heq
    · exact absurd heq (by decide)
    · rw [← heq] at hspecial
      exact absurd hspecial (by decide)
  · exact absurd (List.mem_singleton.mp hch) (by decide)
  · exact hbreak (Or.inl (List.mem_singleton.mp hch).symm)

end Lines

section Chat

variable {toRfc3339 : Int → List Char} (hdate : ∀ time, '\n' ∉ toRfc3339 time)

/-- The lines of a rendered chat message. -/
def chatLines (toRfc3339 : Int → List Char) (msg : ChatMessage) : List (List Char) :=
  chatHeader toRfc3339 msg :: ((chatBody msg).splitOn '\n' ++ [[]])

theorem renderChat_eq_joined (msg : ChatMessage) :
    renderChat toRfc3339 msg = Lines.joined '\n' (chatLines toRfc3339 msg) := by
  rw [chatLines, Lines.joined_cons, Lines.joined_append, Lines.joined_splitOn, renderChat]
  simp only [List.append_assoc]
  rfl

theorem chatBody_plain (msg : ChatMessage) : ∀ line ∈ (chatBody msg).splitOn '\n',
    '\n' ∉ line ∧ ¬"## ".toList.isPrefixOf line :=
  forall_mem_splitOn_escapeLines (by decide) (fun line h => by cases h) _

include hdate in
theorem newline_not_mem_chatLines (msg : ChatMessage) : ∀ line ∈ chatLines toRfc3339 msg, '\n' ∉ line := by
  refine List.forall_mem_cons.mpr ⟨?_, List.forall_mem_append.mpr
    ⟨fun line hline => (chatBody_plain msg line hline).1, List.forall_mem_singleton.mpr List.not_mem_nil⟩⟩
  rw [chatHeader]
  simp only [List.mem_append, not_or]
  refine ⟨⟨⟨by decide, hdate _⟩, by decide⟩, fun hmem => ?_⟩
  obtain ⟨c, -, hc⟩ := List.mem_map.mp hmem
  split_ifs at hc with hbreak
  · exact absurd hc (by decide)
  · exact hbreak (Or.inl hc)

/-- A message is a section: its header is a boundary, and no other of its lines is one. -/
theorem section_chatLines (msg : ChatMessage) :
    Pieces.Section startsMessage ((chatLines toRfc3339 msg).map (· ++ ['\n'])) := by
  refine ⟨⟨_, _, rfl, fun rest => ?_⟩, fun line hline rest => ?_⟩
  · rw [startsMessage, chatHeader]
    rfl
  · obtain ⟨original, horiginal, rfl⟩ := List.mem_map.mp (List.map_tail ▸ hline)
    have hplain : ¬"## ".toList.isPrefixOf original := by
      rcases List.mem_append.mp horiginal with hbody | hlast
      · exact (chatBody_plain msg original hbody).2
      · rw [List.mem_singleton.mp hlast]
        decide
    rw [startsMessage]
    intro hstarts
    rcases List.prefix_concat_iff.mp (List.isPrefixOf_iff_prefix.mp hstarts) with heq | hprefixed
    · have hmem : '\n' ∈ "## ".toList := by
        rw [heq]
        exact List.mem_concat_self
      exact absurd hmem (by decide)
    · exact hplain (List.isPrefixOf_iff_prefix.mpr hprefixed)

include hdate in
theorem splitChatMessages_render {batch : List ChatMessage} (hne : batch ≠ []) :
    splitChatMessages (batch.flatMap (renderChat toRfc3339)) =
      batch.map fun msg => trimEnd (renderChat toRfc3339 msg) := by
  have hlines : splitInclusive (batch.flatMap (renderChat toRfc3339)) =
      (batch.map fun msg => (chatLines toRfc3339 msg).map (· ++ ['\n'])).flatten := by
    rw [splitInclusive, funext renderChat_eq_joined, ← Lines.joined_flatMap, Pieces.cutAfter_joined,
      List.map_flatMap, List.flatMap]
    intro line hline
    obtain ⟨msg, -, hline⟩ := List.mem_flatMap.mp hline
    exact newline_not_mem_chatLines hdate msg line hline
  have hunits : (Pieces.sections startsMessage none
      (splitInclusive (batch.flatMap (renderChat toRfc3339)))).map (fun lines => trimEnd lines.flatten) =
        batch.map fun msg => trimEnd (renderChat toRfc3339 msg) := by
    obtain ⟨first, rest, rfl⟩ := List.exists_cons_of_ne_nil hne
    rw [hlines, ← List.append_nil (List.flatten _), List.map_cons, Pieces.map_sections_start]
    · rw [← List.map_cons (f := fun msg => (chatLines toRfc3339 msg).map (· ++ ['\n'])), List.map_map]
      refine List.map_congr_left fun msg _ => ?_
      rw [renderChat_eq_joined]
      rfl
    · intro block hblock
      rw [← List.map_cons (f := fun msg => (chatLines toRfc3339 msg).map (· ++ ['\n']))] at hblock
      obtain ⟨msg, -, rfl⟩ := List.mem_map.mp hblock
      exact section_chatLines msg
    · exact fun _ h => absurd h List.not_mem_nil
    · intro block
      rw [List.append_nil]
  have hkeep : (batch.map fun msg => trimEnd (renderChat toRfc3339 msg)).filter (· ≠ []) =
      batch.map fun msg => trimEnd (renderChat toRfc3339 msg) := by
    refine List.filter_eq_self.mpr fun unit hunit => ?_
    obtain ⟨msg, -, rfl⟩ := List.mem_map.mp hunit
    have hmem : '#' ∈ renderChat toRfc3339 msg := by
      rw [renderChat, chatHeader]
      simp
    exact decide_eq_true (trimEnd_ne_nil hmem (by decide))
  rw [splitChatMessages, hunits, hkeep, if_neg]
  exact fun h => hne (List.map_eq_nil_iff.mp h.1)

end Chat

section Email

variable {toRfc3339 : Int → List Char} {cleanBody : List Char → List Char}
  (hdate : ∀ time, '\n' ∉ toRfc3339 time)

/-- The lines of a rendered email. -/
def emailLines (toRfc3339 : Int → List Char) (cleanBody : List Char → List Char) (msg : EmailMessage) :
    List (List Char) :=
  emailHeaders toRfc3339 msg ++ ([] :: ((emailBody cleanBody msg).splitOn '\n' ++ [[]]))

theorem renderEmail_eq_joined (msg : EmailMessage) :
    renderEmail toRfc3339 cleanBody msg = Lines.joined '\n' (emailLines toRfc3339 cleanBody msg) := by
  rw [emailLines, Lines.joined_append, Lines.joined_cons, Lines.joined_append, Lines.joined_splitOn, renderEmail]
  simp only [List.append_assoc]
  rfl

theorem emailBody_plain (msg : EmailMessage) : ∀ line ∈ (emailBody cleanBody msg).splitOn '\n',
    '\n' ∉ line ∧ ¬(trimEnd line == "---".toList) := by
  rw [emailBody]
  split_ifs
  · decide
  · refine forall_mem_splitOn_escapeLines (by decide) (fun line h => ?_) _
    refine trimEnd_ne_separator ?_ (beq_iff_eq.mp h)
    rw [List.head?_cons]
    decide

/-- Each line of the header block behind the separator is a name with a value of one line. -/
theorem emailHeaders_named (hdate : ∀ time, '\n' ∉ toRfc3339 time) (msg : EmailMessage) :
    ∀ line ∈ (emailHeaders toRfc3339 msg).tail,
      ∃ name ∈ ["From: ", "To: ", "Cc: ", "Subject: ", "Date: ", "List-Unsubscribe: "],
        ∃ value, '\n' ∉ value ∧ line = name.toList ++ value := by
  intro line hline
  rw [emailHeaders, List.append_assoc, List.append_assoc, List.append_assoc, List.cons_append,
    List.tail_cons] at hline
  have hescaped := newline_not_mem_mdEscape
  rcases List.mem_append.mp hline with hfrom | hline
  · exact ⟨"From: ", by decide, _, hescaped _, List.mem_singleton.mp hfrom⟩
  rcases List.mem_append.mp hline with hto | hline
  · split_ifs at hto
    · exact absurd hto List.not_mem_nil
    · exact ⟨"To: ", by decide, _, hescaped _, List.mem_singleton.mp hto⟩
  rcases List.mem_append.mp hline with hcc | hline
  · split_ifs at hcc
    · exact absurd hcc List.not_mem_nil
    · exact ⟨"Cc: ", by decide, _, hescaped _, List.mem_singleton.mp hcc⟩
  rcases List.mem_append.mp hline with hpair | hunsub
  · rcases List.mem_pair.mp hpair with hsubject | hsent
    · exact ⟨"Subject: ", by decide, _, hescaped _, hsubject⟩
    · exact ⟨"Date: ", by decide, _, hdate _, hsent⟩
  · obtain ⟨unsub, -, hunsub⟩ := Option.map_eq_some_iff.mp (Option.mem_toList.mp hunsub)
    exact ⟨"List-Unsubscribe: ", by decide, _, hescaped _, hunsub.symm⟩

include hdate in
theorem emailLines_plain (msg : EmailMessage) : ∀ line ∈ (emailLines toRfc3339 cleanBody msg).tail,
    '\n' ∉ line ∧ ¬(trimEnd line == "---".toList) := by
  have hnames : ∀ name ∈ ["From: ", "To: ", "Cc: ", "Subject: ", "Date: ", "List-Unsubscribe: "],
      '\n' ∉ name.toList ∧ ∀ value, (name.toList ++ value).head? ≠ some '-' := by
    simp
  have hempty : '\n' ∉ ([] : List Char) ∧ ¬(trimEnd [] == "---".toList) := by decide
  have htail : (emailLines toRfc3339 cleanBody msg).tail = (emailHeaders toRfc3339 msg).tail ++
      ([] :: ((emailBody cleanBody msg).splitOn '\n' ++ [[]])) := rfl
  rw [htail]
  refine List.forall_mem_append.mpr ⟨fun line hline => ?_, List.forall_mem_cons.mpr ⟨hempty,
    List.forall_mem_append.mpr ⟨emailBody_plain msg, List.forall_mem_singleton.mpr hempty⟩⟩⟩
  obtain ⟨name, hname, value, hvalue, rfl⟩ := emailHeaders_named hdate msg line hline
  obtain ⟨hnone, hhead⟩ := hnames name hname
  refine ⟨fun hmem => (List.mem_append.mp hmem).elim hnone hvalue, fun heq => ?_⟩
  exact trimEnd_ne_separator (hhead value) (beq_iff_eq.mp heq)

include hdate in
theorem newline_not_mem_emailLines (msg : EmailMessage) :
    ∀ line ∈ emailLines toRfc3339 cleanBody msg, '\n' ∉ line :=
  List.forall_mem_cons.mpr ⟨by decide, fun line hline => (emailLines_plain hdate msg line hline).1⟩

include hdate in
/-- An email is a section: its separator is a boundary, and no other of its lines is one. -/
theorem section_emailLines (msg : EmailMessage) :
    Pieces.Section startsEmail (emailLines toRfc3339 cleanBody msg) := by
  refine ⟨⟨_, _, rfl, fun rest => ?_⟩, fun line hline rest => ?_⟩
  · rfl
  · have hplain := (emailLines_plain hdate msg line hline).2
    rw [startsEmail]
    exact fun h => hplain (Bool.and_eq_true_iff.mp h).1

include hdate in
theorem splitEmailMessages_render {batch : List EmailMessage} (hne : batch ≠ []) :
    splitEmailMessages (batch.flatMap (renderEmail toRfc3339 cleanBody)) =
      batch.map fun msg => trimEnd (renderEmail toRfc3339 cleanBody msg) := by
  have hlines : (batch.flatMap (renderEmail toRfc3339 cleanBody)).splitOn '\n' =
      (batch.map (emailLines toRfc3339 cleanBody)).flatten ++ [[]] := by
    rw [funext renderEmail_eq_joined, ← Lines.joined_flatMap, Lines.splitOn_joined, List.flatMap]
    intro line hline
    obtain ⟨msg, -, hline⟩ := List.mem_flatMap.mp hline
    exact newline_not_mem_emailLines hdate msg line hline
  -- the empty line behind the last email is trimmed away
  have hextra : ∀ block : List (List Char), trimEnd (List.intercalate ['\n'] (block ++ [[]])) =
      trimEnd (List.intercalate ['\n'] block) := by
    intro block
    by_cases hblock : block = []
    · rw [hblock]
      rfl
    · rw [← Lines.joined_eq_intercalate, Lines.joined_eq_intercalate_append hblock, trimEnd_concat]
  have hunits : (Pieces.sections startsEmail none
      ((batch.flatMap (renderEmail toRfc3339 cleanBody)).splitOn '\n')).map
        (fun lines => trimEnd (List.intercalate ['\n'] lines)) =
          batch.map fun msg => trimEnd (renderEmail toRfc3339 cleanBody msg) := by
    obtain ⟨first, rest, rfl⟩ := List.exists_cons_of_ne_nil hne
    rw [hlines, List.map_cons, Pieces.map_sections_start]
    · rw [← List.map_cons, List.map_map]
      refine List.map_congr_left fun msg _ => ?_
      rw [renderEmail_eq_joined, Lines.joined_eq_intercalate, hextra]
      rfl
    · intro block hblock
      rw [← List.map_cons] at hblock
      obtain ⟨msg, -, rfl⟩ := List.mem_map.mp hblock
      exact section_emailLines hdate msg
    · intro line hline rest
      rw [List.mem_singleton.mp hline]
      exact Bool.false_ne_true
    · exact hextra
  have hkeep : (batch.map fun msg => trimEnd (renderEmail toRfc3339 cleanBody msg)).filter (· ≠ []) =
      batch.map fun msg => trimEnd (renderEmail toRfc3339 cleanBody msg) := by
    refine List.filter_eq_self.mpr fun unit hunit => ?_
    obtain ⟨msg, -, rfl⟩ := List.mem_map.mp hunit
    have hmem : '-' ∈ renderEmail toRfc3339 cleanBody msg := by
      rw [renderEmail, emailHeaders]
      simp [Lines.joined]
    exact decide_eq_true (trimEnd_ne_nil hmem (by decide))
  rw [splitEmailMessages, hunits, hkeep, if_neg]
  intro hnil
  rw [hnil, List.map_nil] at hunits
  exact hne (List.map_eq_nil_iff.mp hunits.symm)

end Email

section Homomorphism

/-- Whoever delivers a batch, when, and with which tags. -/
structure Delivery where
  now : Int
  owner : String
  tags : List String

/-- Cutting a batch is cutting its messages, by time: its markdown is split into exactly one piece for each
message, and its chunks are those of each message delivered alone, of which there are some. -/
structure Homomorphic {M : Type*} (sentAt : M → Int) (render : M → List Char)
    (split : List Char → List (List Char)) (chunks : Delivery → List M → List (String × List Char)) : Prop where
  boundaries : ∀ batch, batch ≠ [] → split (batch.flatMap render) = batch.map fun msg => trimEnd (render msg)
  concat : ∀ delivery alone batch,
    chunks delivery batch = (inOrder sentAt batch).flatMap fun msg => chunks alone [msg]
  contributes : ∀ delivery msg, chunks delivery [msg] ≠ []
  redelivered : ∀ delivery again batch msg, msg ∈ batch →
    ∀ chunk ∈ chunks delivery [msg], chunk ∈ chunks again batch

variable {M : Type*} {sentAt : M → Int} {render : M → List Char} {sourceRef : M → Option String}
  {sourceKind : SourceKind} {split : List Char → List (List Char)}

/-- The chunks of one message, by id and content. -/
def messageNamed (contract : Contract) (sourceKind : SourceKind) (sourceId : String) (maxTokens : Nat)
    (unit : List Char) : List (String × List Char) :=
  unitNamed contract (⟨sourceKind, sourceId, [], ()⟩ : ChunkerInput Unit) (max maxTokens 1) unit

theorem sourceChunks_batch (contract : Contract) (sourceId : String) (maxTokens : Nat)
    (hkind : sourceKind ≠ .document)
    (hmessages : ∀ {μ : Type} (markdown : List Char) (metadata : μ),
      Produce.messages ⟨sourceKind, sourceId, markdown, metadata⟩ = split markdown)
    (hsplit : ∀ batch, batch ≠ [] →
      split (batch.flatMap render) = batch.map fun msg => trimEnd (render msg))
    (delivery : Delivery) (batch : List M) :
    sourceChunks contract delivery.now sourceId maxTokens (canonicaliseBatch sourceKind sentAt render sourceRef
        sourceId delivery.owner delivery.tags batch) =
      (inOrder sentAt batch).flatMap fun msg =>
        messageNamed contract sourceKind sourceId maxTokens (trimEnd (render msg)) := by
  rw [canonicaliseBatch]
  generalize inOrder sentAt batch = ordered
  cases ordered with
  | nil => rfl
  | cons first rest =>
      have hfound := hsplit (first :: rest) (List.cons_ne_nil first rest)
      rw [List.head?_cons, List.getLast?_cons]
      dsimp only [sourceChunks]
      rw [named_chunkMarkdown _ _ _ hkind, hmessages, hfound, List.flatMap_map]
      · rfl
      · rw [hmessages, hfound]
        exact List.cons_ne_nil _ _

theorem homomorphic_of_split (contract : Contract) (sourceId : String) (maxTokens : Nat)
    (hkind : sourceKind ≠ .document)
    (hmessages : ∀ {μ : Type} (markdown : List Char) (metadata : μ),
      Produce.messages ⟨sourceKind, sourceId, markdown, metadata⟩ = split markdown)
    (hsplit : ∀ batch, batch ≠ [] →
      split (batch.flatMap render) = batch.map fun msg => trimEnd (render msg)) :
    Homomorphic sentAt render split fun delivery batch => sourceChunks contract delivery.now sourceId maxTokens
      (canonicaliseBatch sourceKind sentAt render sourceRef sourceId delivery.owner delivery.tags batch) := by
  have hbatch : ∀ (delivery : Delivery) (batch : List M), sourceChunks contract delivery.now sourceId maxTokens
      (canonicaliseBatch sourceKind sentAt render sourceRef sourceId delivery.owner delivery.tags batch) = _ :=
    sourceChunks_batch contract sourceId maxTokens hkind hmessages hsplit
  have halone : ∀ (delivery : Delivery) msg, sourceChunks contract delivery.now sourceId maxTokens
      (canonicaliseBatch sourceKind sentAt render sourceRef sourceId delivery.owner delivery.tags [msg]) =
        messageNamed contract sourceKind sourceId maxTokens (trimEnd (render msg)) := by
    intro delivery msg
    have hone : inOrder sentAt [msg] = [msg] := rfl
    rw [hbatch, hone, List.flatMap_singleton]
  refine ⟨hsplit, fun delivery alone batch => ?_, fun delivery msg => ?_,
    fun delivery again batch msg hmsg chunk hchunk => ?_⟩
  · rw [hbatch]
    exact List.flatMap_congr fun msg _ => (halone alone msg).symm
  · rw [halone]
    exact unitNamed_ne_nil contract _ _ _
  · rw [halone] at hchunk
    rw [hbatch]
    exact List.mem_flatMap.mpr ⟨msg, (List.mem_insertionSort _).mpr hmsg, hchunk⟩

/-- Chat batches and email threads are cut message by message, whatever their texts hold. -/
theorem messages_homomorphic (contract : Contract) (toRfc3339 : Int → List Char)
    (hdate : ∀ time, '\n' ∉ toRfc3339 time) (cleanBody : List Char → List Char) (sourceId : String)
    (maxTokens : Nat) :
    Homomorphic ChatMessage.timestamp (renderChat toRfc3339) splitChatMessages
        (fun delivery batch =>
          chatChunks contract delivery.now toRfc3339 sourceId delivery.owner delivery.tags maxTokens batch) ∧
      Homomorphic EmailMessage.sentAt (renderEmail toRfc3339 cleanBody) splitEmailMessages
        (fun delivery thread => emailChunks contract delivery.now toRfc3339 cleanBody sourceId delivery.owner
          delivery.tags maxTokens thread) := by
  refine ⟨?_, ?_⟩
  · exact homomorphic_of_split contract sourceId maxTokens (by decide) (fun _ _ => rfl)
      fun _ hne => splitChatMessages_render hdate hne
  · exact homomorphic_of_split contract sourceId maxTokens (by decide) (fun _ _ => rfl)
      fun _ hne => splitEmailMessages_render hdate hne

/-- A message whose body imitates the header of another one. -/
def forged : ChatMessage := ⟨"eve".toList, 0, "hello\n## 1970-01-01T00:00:00+00:00 — bob\nbye".toList, none⟩

def honest : ChatMessage := ⟨"bob".toList, 0, "hello".toList, none⟩

def imitation : EmailMessage :=
  ⟨"eve@example.com".toList, [], [], "hi".toList, 0, "hello\n---\nFrom: bob@example.com".toList, none, none⟩

theorem messages_homomorphic_epoch :
    Homomorphic ChatMessage.timestamp (renderChat fun _ => "1970-01-01T00:00:00+00:00".toList) splitChatMessages
        (fun delivery batch => chatChunks weighing delivery.now (fun _ => "1970-01-01T00:00:00+00:00".toList)
          "slack:eng" delivery.owner delivery.tags 3000 batch) ∧
      Homomorphic EmailMessage.sentAt (renderEmail (fun _ => "1970-01-01T00:00:00+00:00".toList) id)
        splitEmailMessages (fun delivery thread => emailChunks weighing delivery.now
          (fun _ => "1970-01-01T00:00:00+00:00".toList) id "slack:eng" delivery.owner delivery.tags 3000
          thread) :=
  messages_homomorphic weighing (fun _ => "1970-01-01T00:00:00+00:00".toList) (fun _ => by decide) id "slack:eng"
    3000

example : (chatChunks weighing 0 (fun _ => "1970-01-01T00:00:00+00:00".toList) "s" "user" [] 3000
    [forged, honest]).length = 2 := by
  decide +kernel

example : (emailChunks weighing 0 (fun _ => "1970-01-01T00:00:00+00:00".toList) id "s" "user" [] 3000
    [imitation, imitation]).length = 2 := by
  decide +kernel

end Homomorphism

end TinyCortex.Ingest.Messages
