import TinyCortex.Tree.Workspace

/-! The texts under the rows of a workspace (`tree/hydrate.rs`, `store/content/read.rs`). The row of a staged
chunk or summary has a preview of its body, the whole body is in a content file; the hydration of a seal
reads the row of a chunk and the file of a summary. The front matter of the files is left out, and so are
the files of chunks, which no hydration reads. -/

namespace TinyCortex.SummaryTree

open Table Chunks Ingest

/-- A text and the tokens that were counted for it. -/
structure Body where
  text : String
  tokenCount : Nat
  deriving DecidableEq, Repr

/-- `content.chars().take(500)`. -/
def preview (text : String) : String := String.ofList (text.toList.take 500)

/-- What a hydration hands to the summariser for one id. -/
structure TextInput where
  id : String
  body : Body
  deriving DecidableEq, Repr

/-- The inputs of a seal in flight, and the bodies that the ids had when they were read. -/
structure Draft where
  inputs : List TextInput
  bodyOf : String → Body

/-- A workspace with the text columns of its rows and the content files of its summaries. The body that was
last written for each id is kept beside them, and so are the bodies that document seals passed on. -/
structure Texts where
  work : Workspace
  chunkContent : String → String
  summaryContent : String → String
  summaryFiles : String → Option String
  drafts : List Draft
  chunkBody : String → Body
  summaryBody : String → Body
  passed : List (String × Body)

/-- The single small input that a batch passes on in place of a summary. -/
def Flight.passes (config : TreeConfig) (draft : Draft) : Flight → Option TextInput
  | .bucket _ _ => none
  | .batch _ _ _ _ =>
      match draft.inputs with
      | [input] => if input.body.tokenCount ≤ config.outputTokenBudget then some input else none
      | _ => none

namespace Texts

def db (s : Texts) : Db := s.work.db

def empty : Texts where
  work := .empty
  chunkContent := fun _ => ""
  summaryContent := fun _ => ""
  summaryFiles := fun _ => none
  drafts := []
  chunkBody := fun _ => ⟨"", 0⟩
  summaryBody := fun _ => ⟨"", 0⟩
  passed := []

/-- `read_summary_body`: the file that the row points to. -/
def readSummaryBody (s : Texts) (summaryId : String) : Option String :=
  (s.work.store.summaryPath summaryId).bind s.summaryFiles

/-- The text that a hydration takes for an id: the row of a chunk, or the file of a summary and else its
row. -/
def contentOf (s : Texts) (level : Nat) (id : String) : String :=
  if level = 0 then s.chunkContent id else (s.readSummaryBody id).getD (s.summaryContent id)

/-- The body that was last written for an id. -/
def bodyOf (s : Texts) (level : Nat) (id : String) : Body :=
  if level = 0 then s.chunkBody id else s.summaryBody id

/-- `hydrate_inputs`, with the texts. -/
def hydrate (s : Texts) (level : Nat) (itemIds : List String) : List TextInput :=
  (hydrateInputs s.db level itemIds).map fun input =>
    ⟨input.id, s.contentOf level input.id, input.tokenCount⟩

def draft (s : Texts) (level : Nat) (itemIds : List String) : Draft :=
  ⟨s.hydrate level itemIds, s.bodyOf level⟩

/-- A chunk as `upsert_chunks` gets it. -/
structure PlainChunk where
  chunk : Chunk
  owner : String
  text : String
  deriving DecidableEq, Repr

inductive Label
  | ingest (sourceId owner : String) (payload : Payload) (pieces : List (Piece × String))
  | upsertChunks (chunks : List PlainChunk)
  | commit (flight : Nat) (minted : Minted) (text path : String) (enqueueFollowUps : Bool)
  | ingestSummary (input : SummaryIngest) (summaryId : String) (nowMs : Int) (text path : String)
  | plain (label : Workspace.Label)
  deriving DecidableEq, Repr

def pieceId (piece : Piece × String) : String := piece.1.id

def PlainChunk.id (chunk : PlainChunk) : String := chunk.chunk.id

/-- The columns of a row that was upserted whole: it points to no content file. -/
def plainColumns (store : Store) (chunk : PlainChunk) : ChunkColumns where
  owner := chunk.owner
  contentPath := none
  rawRefs := if chunk.id ∈ store.db.chunks.map Chunk.id then (store.columns chunk.id).rawRefs else .empty

/-- `upsert_chunks`: the whole text goes into the row, which is admitted, and the content file that the
row had is removed. -/
def upsertChunks (chunks : List PlainChunk) (s : Texts) : Texts :=
  { s with
    work := { s.work with
      store := { s.work.store with
        db := { s.db with
          chunks := (chunks.map fun chunk => chunk.chunk.withStatus .admitted).foldl
            (fun rows row => upsert Chunk.id row rows) s.db.chunks }
        columns := overwrite PlainChunk.id (plainColumns s.work.store) chunks s.work.store.columns
        files := removeChunkContentFiles
          (chunkPaths s.work.store.columns
            (s.db.chunks.filter fun row => row.id ∈ chunks.map PlainChunk.id)) s.work.store.files } }
    chunkContent := overwrite PlainChunk.id PlainChunk.text chunks s.chunkContent
    chunkBody := overwrite PlainChunk.id (fun chunk => ⟨chunk.text, chunk.chunk.tokenCount⟩) chunks
      s.chunkBody }

/-- `stage_summary`: the file is written before the transaction. -/
def stageSummary (path text : String) (s : Texts) : Texts :=
  { s with
    work := { s.work with
      store := { s.work.store with files := s.work.store.files ++ [fileAt path] } }
    summaryFiles := Function.update s.summaryFiles path (some text) }

/-- The columns of a summary row that was inserted with its file. -/
def insertText (summaryId path : String) (body : Body) (s : Texts) : Texts :=
  { s with
    work := { s.work with
      store := { s.work.store with
        summaryPath := Function.update s.work.store.summaryPath summaryId (some path) } }
    summaryContent := Function.update s.summaryContent summaryId (preview body.text)
    summaryBody := Function.update s.summaryBody summaryId body }

/-- What the seal writes: the input that it passes on, or what the summariser returned. -/
def sealedBody (config : TreeConfig) (flight : Flight) (draft : Draft) (minted : Minted)
    (text : String) : Body :=
  ((flight.passes config draft).map TextInput.body).getD ⟨text, minted.tokenCount⟩

/-- The drafts after a step that is no commit: a hydration adds one. -/
def pushDraft (s : Texts) : Workspace.Label × Except TreeError Unit → List Draft
  | (.snapshot treeId level, .ok _) => s.drafts ++ [s.draft level (s.db.buffered treeId level)]
  | (.hydrate _ level childIds, .ok _) => s.drafts ++ [s.draft level childIds]
  | _ => s.drafts

def step (config : TreeConfig) (s : Texts) : Label → Texts
  | .ingest sourceId owner payload pieces =>
      match canonicalise sourceId owner payload with
      | none => s
      | some metadata =>
          { s with
            work := { s.work with store := stage metadata (pieces.map Prod.fst) none s.work.store }
            chunkContent := overwrite pieceId (fun piece => preview piece.2) pieces s.chunkContent
            chunkBody := overwrite pieceId (fun piece => ⟨piece.2, piece.1.tokenCount⟩) pieces
              s.chunkBody }
  | .upsertChunks chunks => upsertChunks chunks s
  | .commit i minted text path enqueueFollowUps =>
      match s.work.flights[i]?, s.drafts[i]? with
      | some flight, some draft =>
          let body := sealedBody config flight draft minted text
          let staged := stageSummary path body.text
            { s with
              work := (s.work.step config (.commit i minted enqueueFollowUps)).1
              drafts := s.drafts.eraseIdx i }
          match flight.commit config minted enqueueFollowUps s.db with
          | .error _ => staged
          | .ok _ =>
              { insertText minted.id path body staged with
                passed := s.passed ++ (flight.passes config draft).toList.map fun input =>
                  (minted.id, draft.bodyOf input.id) }
      | _, _ => s
  | .ingestSummary input summaryId nowMs text path =>
      let staged := stageSummary path text
        { s with work := (s.work.step config (.ingestSummary input summaryId nowMs)).1 }
      match ingestSummary input summaryId nowMs s.db with
      | .error _ => staged
      | .ok _ => insertText summaryId path ⟨text, input.tokenCount⟩ staged
  | .plain label =>
      { s with
        work := (s.work.step config label).1
        drafts := pushDraft s (label, (s.work.step config label).2) }

def machine (config : TreeConfig) : Machine Texts Label := ⟨empty, step config⟩

/-- Every input that a hydration hands out has the whole body of its id, and a node that passed a single
input on has the body that the input had. -/
structure Whole (s : Texts) : Prop where
  inputs : ∀ level itemIds, ∀ input ∈ s.hydrate level itemIds, input.body = s.bodyOf level input.id
  passed : ∀ node ∈ s.passed, s.summaryBody node.1 = node.2

/-- No summary has its file at the path, which carries the id of the summary. -/
def Unused (s : Texts) (path : String) : Prop :=
  ∀ node ∈ s.db.nodes, s.work.store.summaryPath node.id ≠ some path

/-- Sealed nodes get ids and files of their own, and the texts come with the steps that write them. -/
def Writes (s : Texts) : Label → Prop
  | .commit _ minted _ path _ => minted.id ∉ s.db.nodeIds ∧ s.Unused path
  | .ingestSummary _ summaryId _ _ path => summaryId ∉ s.db.nodeIds ∧ s.Unused path
  | .plain (.ingest _ _ _ _ _) | .plain (.commit _ _ _) | .plain (.ingestSummary _ _ _)
  | .plain (.delete _) => False
  | _ => True

/-- Every chunk that an ingest stages fits into the preview. -/
def FitsPreview : Label → Prop
  | .ingest sourceId owner payload pieces => (canonicalise sourceId owner payload).isSome →
      ∀ id piece, lookup pieceId id pieces.reverse = some piece → piece.2.length ≤ 500
  | _ => True

theorem preview_eq_iff {text : String} : preview text = text ↔ text.length ≤ 500 := by
  rw [preview, ← String.length_toList]
  constructor
  · intro h
    have hlength : (String.ofList (text.toList.take 500)).toList.length = text.toList.length :=
      congrArg (fun text => text.toList.length) h
    rw [String.toList_ofList, List.length_take] at hlength
    omega
  · intro h
    rw [List.take_of_length_le h, String.ofList_toList]

variable {config : TreeConfig} {s : Texts} {label : Label}

/-- What a hydration reads for an id: the row of a chunk, or the row of a summary. -/
theorem mem_hydrateInputs {db : Db} {level : Nat} {itemIds : List String} {input : SummaryInput}
    (h : input ∈ hydrateInputs db level itemIds) :
    (level = 0 ∧ ∃ chunk, db.getChunk input.id = some chunk ∧ input = chunkInput chunk) ∨
    (level ≠ 0 ∧ ∃ row ∈ db.summaries, input = summaryInput row) := by
  unfold hydrateInputs at h
  split_ifs at h with hlevel
  · obtain ⟨id, -, hget⟩ := List.mem_filterMap.mp h
    obtain ⟨chunk, hchunk, rfl⟩ := Option.map_eq_some_iff.mp hget
    obtain ⟨-, rfl⟩ := lookup_mem hchunk
    exact Or.inl ⟨hlevel, chunk, hchunk, rfl⟩
  · obtain ⟨id, -, hget⟩ := List.mem_filterMap.mp h
    obtain ⟨row, hrow, rfl⟩ := Option.map_eq_some_iff.mp hget
    exact Or.inr ⟨hlevel, row, (lookup_mem hrow).1, rfl⟩

/-- The draft of a seal in flight: its inputs have the tokens that were hydrated, and the bodies that the
ids had. -/
structure Drafted (flight : Flight) (draft : Draft) : Prop where
  tokens : draft.inputs.map (fun input => input.body.tokenCount) =
    flight.inputs.map SummaryInput.tokenCount
  bodies : ∀ input ∈ draft.inputs, input.body = draft.bodyOf input.id

/-- The row of every chunk and the file of every summary has the body that was last written. -/
structure Kept (s : Texts) : Prop where
  chunks : ∀ id chunk, s.db.getChunk id = some chunk →
    s.chunkBody id = ⟨s.chunkContent id, chunk.tokenCount⟩
  summaries : ∀ node ∈ s.db.nodes, (s.summaryBody node.id).tokenCount = node.tokenCount ∧
    ∃ path, s.work.store.summaryPath node.id = some path ∧
      s.summaryFiles path = some (s.summaryBody node.id).text
  drafts : List.Forall₂ Drafted s.work.flights s.drafts
  passed : ∀ node ∈ s.passed, node.1 ∈ s.db.nodeIds ∧ s.summaryBody node.1 = node.2

theorem kept_empty : Kept empty where
  chunks := fun _ _ h => by cases h
  summaries := fun _ h => absurd h List.not_mem_nil
  drafts := .nil
  passed := fun _ h => absurd h List.not_mem_nil

theorem Kept.hydrate (h : Kept s) {level : Nat} {itemIds : List String} {input : TextInput}
    (hinput : input ∈ s.hydrate level itemIds) : input.body = s.bodyOf level input.id := by
  obtain ⟨row, hrow, rfl⟩ := List.mem_map.mp hinput
  rcases mem_hydrateInputs hrow with ⟨rfl, chunk, hchunk, rfl⟩ | ⟨hlevel, node, hnode, rfl⟩
  · exact (h.chunks _ chunk hchunk).symm
  · obtain ⟨htokens, path, hpath, hfile⟩ := h.summaries node.bare (List.mem_map_of_mem hnode)
    rw [SummaryNode.bare_id] at htokens hpath hfile
    have hread : s.readSummaryBody node.id = some (s.summaryBody node.id).text := by
      rw [readSummaryBody, hpath]
      exact hfile
    rw [bodyOf, if_neg hlevel, contentOf, if_neg hlevel]
    dsimp only [summaryInput]
    rw [hread, Option.getD_some]
    exact congrArg (Body.mk (s.summaryBody node.id).text) htokens.symm

theorem Kept.whole (h : Kept s) : Whole s where
  inputs := fun _ _ _ hinput => h.hydrate hinput
  passed := fun node hnode => (h.passed node hnode).2

theorem Kept.drafted (h : Kept s) (flight : Flight) {level : Nat} {itemIds : List String}
    (hinputs : flight.inputs = hydrateInputs s.db level itemIds) :
    Drafted flight (s.draft level itemIds) where
  tokens := by
    rw [hinputs, draft, Texts.hydrate, List.map_map]
    rfl
  bodies := fun _ hinput => h.hydrate hinput

/-- The texts stand while the rows keep their ids and tokens. -/
theorem Kept.withWork (h : Kept s) (work : Workspace) {drafts : List Draft}
    (hnodes : work.db.nodes = s.db.nodes)
    (hchunks : ∀ id chunk, work.db.getChunk id = some chunk →
      ∃ old, s.db.getChunk id = some old ∧ old.tokenCount = chunk.tokenCount)
    (hpaths : work.store.summaryPath = s.work.store.summaryPath)
    (hdrafts : List.Forall₂ Drafted work.flights drafts) :
    Kept { s with work := work, drafts := drafts } where
  chunks := by
    intro id chunk hchunk
    obtain ⟨old, hold, htokens⟩ := hchunks id chunk hchunk
    rw [← htokens]
    exact h.chunks id old hold
  summaries := by
    intro node hnode
    have hold : node ∈ s.db.nodes := hnodes ▸ hnode
    dsimp only
    rw [hpaths]
    exact h.summaries node hold
  drafts := hdrafts
  passed := by
    intro node hnode
    have hids : work.db.nodeIds = s.db.nodeIds := congrArg (List.map SummaryNode.id) hnodes
    have hmem := h.passed node hnode
    exact ⟨hids ▸ hmem.1, hmem.2⟩

theorem same_chunks {work : Workspace} (hchunks : work.db.chunks = s.db.chunks) (id : String)
    (chunk : Chunk) (h : work.db.getChunk id = some chunk) :
    ∃ old, s.db.getChunk id = some old ∧ old.tokenCount = chunk.tokenCount := by
  rw [Db.getChunk, hchunks] at h
  exact ⟨chunk, h, rfl⟩

theorem Kept.stageSummary (h : Kept s) {path text : String} (hunused : s.Unused path) :
    Kept (stageSummary path text s) where
  chunks := h.chunks
  summaries := by
    intro node hnode
    obtain ⟨htokens, own, hown, hfile⟩ := h.summaries node hnode
    have hne : own ≠ path := fun heq => hunused node hnode (heq ▸ hown)
    refine ⟨htokens, own, hown, ?_⟩
    change Function.update s.summaryFiles path (some text) own = _
    rw [Function.update_of_ne hne]
    exact hfile
  drafts := h.drafts
  passed := h.passed

/-- A new summary with its file. -/
theorem Kept.insert (h : Kept s) (work : Workspace) (node : SummaryNode) (body : Body)
    (more : List (String × Body)) {drafts : List Draft} {nodeId path : String} (hid : node.id = nodeId)
    (hfresh : nodeId ∉ s.db.nodeIds) (hunused : s.Unused path)
    (hnodes : work.db.nodes = s.db.nodes ++ [node.bare]) (hchunks : work.db.chunks = s.db.chunks)
    (hpaths : work.store.summaryPath = s.work.store.summaryPath)
    (hdrafts : List.Forall₂ Drafted work.flights drafts) (htokens : body.tokenCount = node.tokenCount)
    (hmore : ∀ entry ∈ more, entry = (nodeId, body)) :
    Kept { insertText nodeId path body
      (Texts.stageSummary path body.text { s with work := work, drafts := drafts }) with
      passed := s.passed ++ more } := by
  subst hid
  refine ⟨fun id chunk hchunk => ?_, fun other hother => ?_, hdrafts, fun entry hentry => ?_⟩
  · have hold : s.db.getChunk id = some chunk := by
      rw [Db.getChunk, ← hchunks]
      exact hchunk
    exact h.chunks id chunk hold
  · have hmem : other ∈ s.db.nodes ++ [node.bare] := hnodes ▸ hother
    dsimp only [insertText, Texts.stageSummary]
    rw [hpaths]
    rcases List.mem_append.mp hmem with hold | hnew
    · obtain ⟨htok, own, hown, hfile⟩ := h.summaries other hold
      have hne : other.id ≠ node.id := fun heq => hfresh (heq ▸ List.mem_map_of_mem hold)
      have hpath : own ≠ path := fun heq => hunused other hold (heq ▸ hown)
      rw [Function.update_of_ne hne, Function.update_of_ne hne]
      refine ⟨htok, own, hown, ?_⟩
      rw [Function.update_of_ne hpath]
      exact hfile
    · rw [List.mem_singleton.mp hnew, SummaryNode.bare_id, Function.update_self, Function.update_self]
      exact ⟨htokens, path, rfl, Function.update_self _ _ _⟩
  · have hids : work.db.nodeIds = s.db.nodeIds ++ [node.id] := by
      rw [Db.nodeIds, hnodes, List.map_append]
      rfl
    change entry.1 ∈ work.db.nodeIds ∧ Function.update s.summaryBody node.id body entry.1 = entry.2
    rw [hids]
    rcases List.mem_append.mp hentry with hold | hnew
    · obtain ⟨hmem, hbody⟩ := h.passed entry hold
      have hne : entry.1 ≠ node.id := fun heq => hfresh (heq ▸ hmem)
      rw [Function.update_of_ne hne]
      exact ⟨List.mem_append_left _ hmem, hbody⟩
    · rw [hmore entry hnew, Function.update_self]
      exact ⟨List.mem_append_right _ List.mem_cons_self, rfl⟩

/-! ### Steps -/

theorem lookup_staged (metadata : Metadata) (pieces : List (Piece × String)) (id : String) :
    lookup Chunk.id id ((pieces.map Prod.fst).map metadata.chunk).reverse =
      (lookup pieceId id pieces.reverse).map fun piece => metadata.chunk piece.1 := by
  rw [List.map_map, ← List.map_reverse, lookup_map (fun _ => rfl)]
  rfl

/-- The row of a staged id after an ingest. -/
theorem getChunk_stage (metadata : Metadata) (store : Store) {pieces : List (Piece × String)}
    {id : String} {piece : Piece × String} (h : lookup pieceId id pieces.reverse = some piece) :
    ∃ found, (stage metadata (pieces.map Prod.fst) none store).db.getChunk id = some found ∧
      found.tokenCount = piece.1.tokenCount := by
  have hrow := lookup_staged metadata pieces id
  rw [h, Option.map_some] at hrow
  obtain ⟨found, hfound, status, rfl⟩ := lookup_upsertStagedChunks store.db.chunks hrow
  exact ⟨_, hfound, rfl⟩

theorem Kept.ingest (h : Kept s) {metadata : Metadata} {pieces : List (Piece × String)}
    (hfits : ∀ id piece, lookup pieceId id pieces.reverse = some piece → piece.2.length ≤ 500) :
    Kept { s with
      work := { s.work with store := stage metadata (pieces.map Prod.fst) none s.work.store }
      chunkContent := overwrite pieceId (fun piece => preview piece.2) pieces s.chunkContent
      chunkBody := overwrite pieceId (fun piece => ⟨piece.2, piece.1.tokenCount⟩) pieces s.chunkBody } where
  chunks := by
    intro id chunk hchunk
    dsimp only
    cases hlast : lookup pieceId id pieces.reverse with
    | none =>
        have hnone := lookup_staged metadata pieces id
        rw [hlast, Option.map_none] at hnone
        rw [overwrite_of_none hlast, overwrite_of_none hlast]
        exact h.chunks id chunk ((lookup_upsertStagedChunks_of_not hnone).symm.trans hchunk)
    | some piece =>
        obtain ⟨found, hfound, htokens⟩ := getChunk_stage metadata s.work.store hlast
        obtain rfl := Option.some.inj (hfound.symm.trans hchunk)
        rw [overwrite_of_some hlast, overwrite_of_some hlast, preview_eq_iff.mpr (hfits id piece hlast),
          htokens]
  summaries := h.summaries
  drafts := h.drafts
  passed := h.passed

theorem Kept.upsertChunks (h : Kept s) (chunks : List PlainChunk) : Kept (upsertChunks chunks s) where
  chunks := by
    intro id chunk hchunk
    have hrow : lookup Chunk.id id (chunks.map fun chunk => chunk.chunk.withStatus .admitted).reverse =
        (lookup PlainChunk.id id chunks.reverse).map fun chunk => chunk.chunk.withStatus .admitted := by
      rw [← List.map_reverse, lookup_map (fun _ => rfl)]
      rfl
    have hget : (lookup Chunk.id id
        (chunks.map fun chunk => chunk.chunk.withStatus .admitted).reverse).or (s.db.getChunk id) =
          some chunk := (lookup_foldl_upsert id _ s.db.chunks).symm.trans hchunk
    rw [hrow] at hget
    dsimp only [Texts.upsertChunks]
    cases hlast : lookup PlainChunk.id id chunks.reverse with
    | none =>
        rw [hlast, Option.map_none, Option.none_or] at hget
        rw [overwrite_of_none hlast, overwrite_of_none hlast]
        exact h.chunks id chunk hget
    | some row =>
        rw [hlast, Option.map_some, Option.some_or] at hget
        obtain rfl := Option.some.inj hget
        rw [overwrite_of_some hlast, overwrite_of_some hlast]
        rfl
  summaries := h.summaries
  drafts := h.drafts
  passed := h.passed

theorem Kept.eraseDraft (h : Kept s) (i : Nat) :
    List.Forall₂ Drafted (s.work.flights.eraseIdx i) (s.drafts.eraseIdx i) := by
  rw [List.eraseIdx_eq_take_drop_succ, List.eraseIdx_eq_take_drop_succ]
  exact List.rel_append (List.forall₂_take i h.drafts) (List.forall₂_drop (i + 1) h.drafts)

/-- The row and the file of a sealed node have the same tokens. -/
theorem sealedBody_tokens {flight : Flight} {draft : Draft} {minted : Minted} {text : String}
    (h : Drafted flight draft) :
    (sealedBody config flight draft minted text).tokenCount = (flight.node config minted).tokenCount := by
  cases flight with
  | bucket snapshot inputs => rfl
  | batch doc level childIds inputs =>
      have htokens : draft.inputs.map (fun input => input.body.tokenCount) =
          inputs.map SummaryInput.tokenCount := h.tokens
      rw [sealedBody, Flight.passes]
      change _ = (explicitNode config doc level childIds inputs minted).tokenCount
      cases hdraft : draft.inputs with
      | nil =>
          rw [hdraft] at htokens
          obtain rfl := List.map_eq_nil_iff.mp htokens.symm
          rfl
      | cons input rest =>
          cases inputs with
          | nil => simp [hdraft] at htokens
          | cons row rows =>
              rw [hdraft, List.map_cons, List.map_cons] at htokens
              obtain ⟨hhead, htail⟩ := List.cons.inj htokens
              cases rest with
              | nil =>
                  obtain rfl := List.map_eq_nil_iff.mp htail.symm
                  dsimp only [explicitNode]
                  rw [← hhead]
                  split_ifs
                  · rfl
                  · rfl
              | cons next rest =>
                  cases rows with
                  | nil => simp at htail
                  | cons => rfl

/-- An input that is passed on is one of the draft. -/
theorem passes_mem {flight : Flight} {draft : Draft} {input : TextInput}
    (h : flight.passes config draft = some input) : input ∈ draft.inputs := by
  cases flight with
  | bucket => cases h
  | batch doc level childIds inputs =>
      change (match draft.inputs with
        | [input] => if input.body.tokenCount ≤ config.outputTokenBudget then some input else none
        | _ => none) = some input at h
      split at h
      · rename_i only hinputs
        split_ifs at h
        obtain rfl := Option.some.inj h
        rw [hinputs]
        exact List.mem_cons_self
      · cases h

theorem Kept.commit (h : Kept s) {i : Nat} {minted : Minted} {text path : String}
    {enqueueFollowUps : Bool} (hfresh : minted.id ∉ s.db.nodeIds) (hunused : s.Unused path) :
    Kept (step config s (.commit i minted text path enqueueFollowUps)) := by
  simp only [step]
  split
  · rename_i flight draft hflight hdraft
    have hdrafted : Drafted flight draft := by
      obtain ⟨hi, rfl⟩ := List.getElem?_eq_some_iff.mp hflight
      obtain ⟨hi', rfl⟩ := List.getElem?_eq_some_iff.mp hdraft
      exact h.drafts.get hi hi'
    have herase := h.eraseDraft i
    cases hcommit : flight.commit config minted enqueueFollowUps s.db with
    | error error =>
        have hcommit' : flight.commit config minted enqueueFollowUps s.work.db = .error error := hcommit
        simp only [Workspace.step, hflight, hcommit']
        have hwork := h.withWork { s.work with flights := s.work.flights.eraseIdx i } rfl
          (same_chunks rfl) rfl herase
        exact hwork.stageSummary hunused
    | ok db =>
        have hcommit' : flight.commit config minted enqueueFollowUps s.work.db = .ok db := hcommit
        obtain ⟨hchunks, hnodes, -⟩ := flight.commit_adds hfresh hcommit
        simp only [Workspace.step, hflight, hcommit']
        refine h.insert _ (flight.node config minted) _ _ Flight.node_id hfresh hunused hnodes hchunks rfl herase
          (sealedBody_tokens hdrafted) ?_
        intro entry hentry
        obtain ⟨input, hinput, rfl⟩ := List.mem_map.mp hentry
        have hpasses := Option.mem_toList.mp hinput
        rw [sealedBody, hpasses, Option.map_some, Option.getD_some,
          hdrafted.bodies input (passes_mem hpasses)]
  · exact h

theorem Kept.ingestSummary (h : Kept s) {input : SummaryIngest} {summaryId : String} {nowMs : Int}
    {text path : String} (hfresh : summaryId ∉ s.db.nodeIds) (hunused : s.Unused path) :
    Kept (step config s (.ingestSummary input summaryId nowMs text path)) := by
  simp only [step]
  cases hingest : SummaryTree.ingestSummary input summaryId nowMs s.db with
  | error error =>
      have hingest' : SummaryTree.ingestSummary input summaryId nowMs s.work.db = .error error := hingest
      simp only [Workspace.step, hingest', Workspace.transact]
      exact h.stageSummary hunused
  | ok db =>
      have hingest' : SummaryTree.ingestSummary input summaryId nowMs s.work.db = .ok db := hingest
      obtain ⟨hnodes, hchunks⟩ := ingestSummary_nodes hfresh hingest
      simp only [Workspace.step, hingest', Workspace.transact]
      have hinsert := h.insert (s.work.withDb db) (ingestedNode input summaryId nowMs)
        ⟨text, input.tokenCount⟩ [] rfl hfresh hunused hnodes hchunks rfl h.drafts rfl
        (fun entry hentry => absurd hentry List.not_mem_nil)
      rw [List.append_nil] at hinsert
      exact hinsert

/-- The steps that write no text: rows keep their ids and tokens, and a hydration drafts what it reads. -/
theorem Kept.plain (h : Kept s) {label : Workspace.Label} (hwrites : Writes s (.plain label)) :
    Kept (step config s (.plain label)) := by
  have hsame : Kept { s with work := s.work, drafts := s.drafts } := h
  cases label with
  | ingest | commit | ingestSummary | delete => exact absurd hwrites id
  | setLifecycle chunkId status =>
      simp only [step, Workspace.step]
      split
      · rename_i chunks hset
        refine h.withWork _ rfl (fun id chunk hchunk => ?_) rfl h.drafts
        unfold setChunkLifecycleStatus at hset
        split_ifs at hset
        obtain rfl := Except.ok.inj hset
        have hrow : (s.db.getChunk id).map (fun row =>
            if row.id == chunkId then row.withStatus status else row) = some chunk :=
          (lookup_update (Chunk.withStatus_id status)).symm.trans hchunk
        obtain ⟨old, hold, rfl⟩ := Option.map_eq_some_iff.mp hrow
        refine ⟨old, hold, ?_⟩
        split_ifs
        · rfl
        · rfl
      · exact hsame
  | createTree treeId kind scope =>
      simp only [step, Workspace.step, Workspace.createTree]
      split_ifs
      · exact h.withWork _ rfl (same_chunks rfl) rfl h.drafts
      · exact h.withWork _ rfl (same_chunks rfl) rfl h.drafts
  | archive treeId => exact h.withWork _ rfl (same_chunks rfl) rfl h.drafts
  | append treeId level itemId tokenDelta itemTs =>
      simp only [step, Workspace.step]
      cases happend : appendToBuffer treeId level itemId tokenDelta itemTs s.work.db with
      | error error => exact hsame
      | ok db =>
          obtain ⟨-, hchunks, hsummaries⟩ := appendToBuffer_frame happend
          refine h.withWork _ ?_ (same_chunks hchunks) rfl h.drafts
          exact congrArg (List.map SummaryNode.bare) hsummaries
  | snapshot treeId level =>
      simp only [step, Workspace.step]
      split
      · rename_i inputs hinputs
        unfold sealInputs at hinputs
        dsimp only at hinputs
        rw [Db.getBuffer_level, ← Db.buffered] at hinputs
        split_ifs at hinputs
        obtain rfl := Except.ok.inj hinputs
        refine h.withWork _ rfl (same_chunks rfl) rfl (List.rel_append h.drafts ?_)
        exact .cons (h.drafted _ rfl) .nil
      · exact hsame
  | hydrate doc level childIds =>
      simp only [step, Workspace.step]
      split_ifs
      · exact hsame
      · refine h.withWork _ rfl (same_chunks rfl) rfl (List.rel_append h.drafts ?_)
        exact .cons (h.drafted _ rfl) .nil
  | moveHeader treeId root nowMs =>
      simp only [step, Workspace.step]
      cases htree : s.work.db.requireActive treeId with
      | error error => exact hsame
      | ok tree =>
          obtain ⟨hsummaries, hchunks, -⟩ := moveHeader_frame tree root nowMs s.work.db
          refine h.withWork _ ?_ (same_chunks hchunks) rfl h.drafts
          exact congrArg (List.map SummaryNode.bare) hsummaries

theorem Kept.step (h : Kept s) (hwrites : Writes s label) (hfits : FitsPreview label) :
    Kept (step config s label) := by
  cases label with
  | ingest sourceId owner payload pieces =>
      simp only [Texts.step]
      cases hmetadata : canonicalise sourceId owner payload with
      | none => exact h
      | some metadata =>
          have hsome : (canonicalise sourceId owner payload).isSome := by rw [hmetadata, Option.isSome_some]
          exact h.ingest (hfits hsome)
  | upsertChunks chunks => exact h.upsertChunks chunks
  | commit i minted text path enqueueFollowUps => exact h.commit hwrites.1 hwrites.2
  | ingestSummary input summaryId nowMs text path => exact h.ingestSummary hwrites.1 hwrites.2
  | plain label => exact h.plain hwrites

/-- A staged chunk whose body is longer than the preview is read cut off. -/
theorem not_whole_of_long (hlong : ¬FitsPreview label) : ¬Whole (step config s label) := by
  cases label with
  | ingest sourceId owner payload pieces =>
      unfold FitsPreview at hlong
      push Not at hlong
      obtain ⟨hsome, id, piece, hlast, hlength⟩ := hlong
      obtain ⟨metadata, hmetadata⟩ := Option.isSome_iff_exists.mp hsome
      simp only [step, hmetadata]
      intro h
      obtain ⟨found, hfound, htokens⟩ := getChunk_stage metadata s.work.store hlast
      have hfid := (lookup_mem hfound).2
      have hread := h.inputs 0 [id] ⟨found.id, preview piece.2, found.tokenCount⟩ ?_
      · rw [bodyOf, if_pos rfl, hfid] at hread
        dsimp only at hread
        rw [overwrite_of_some hlast] at hread
        have htext : preview piece.2 = piece.2 := congrArg Body.text hread
        exact absurd (preview_eq_iff.mp htext) hlength.not_ge
      · refine List.mem_map.mpr ⟨chunkInput found, ?_, ?_⟩
        · rw [hydrateInputs, if_pos rfl]
          exact List.mem_filterMap.mpr ⟨id, List.mem_cons_self, Option.map_eq_some_iff.mpr
            ⟨found, hfound, rfl⟩⟩
        · dsimp only [chunkInput]
          rw [contentOf, if_pos rfl, hfid]
          dsimp only
          rw [overwrite_of_some hlast]
  | _ => exact absurd trivial hlong

/-- Along a run that writes its texts under fresh ids, every hydration hands out whole bodies exactly when
every chunk that an ingest stages fits into the preview. -/
theorem whole_iff (config : TreeConfig) (labels : List Label)
    (hwrites : (machine config).AllSteps Writes labels) :
    (machine config).Throughout Whole labels ↔
      (machine config).AllSteps (fun _ label => FitsPreview label) labels := by
  have hstart : Whole (machine config).start := kept_empty.whole
  rw [Machine.throughout_iff_allSteps, and_iff_right hstart]
  refine (machine config).allSteps_iff_of_guard Kept kept_empty ?_ ?_ hwrites
  · intro s label h hwrites hfits
    have hnext : Kept (step config s label) := h.step hwrites hfits
    exact ⟨hnext, hnext.whole⟩
  · intro s label _ _ hlong
    exact not_whole_of_long hlong

/-- A text that is one character longer than the preview. -/
def longText : String := String.ofList (List.replicate 501 'a')

theorem longText_length : longText.length = 501 :=
  String.length_ofList.trans List.length_replicate

/-- The seal of a document that is a single chunk. -/
def oneChunk : List Label :=
  [.plain (.hydrate ⟨"t", "doc", none, ["c"]⟩ 0 ["c"]), .commit 0 ⟨"s", 1, 200⟩ "" "s.md" false]

/-- The chunk comes from an ingest. -/
def stagedDocument : List Label :=
  [.plain (.createTree "t" .source "doc"),
    .ingest "doc" "me" (.document 100 none) [(⟨"c", 125, 0, "c.md"⟩, longText)]] ++ oneChunk

/-- The root of the document has the first 500 characters of its one chunk. -/
theorem stagedDocument_cut :
    ¬(machine ⟨1000, 500, 2⟩).Throughout Whole stagedDocument := by
  intro h
  have hlast := h stagedDocument List.prefix_rfl
  have hbody : Body.mk (preview longText) 125 = ⟨longText, 125⟩ :=
    hlast.passed ("s", ⟨longText, 125⟩) List.mem_cons_self
  have hlength := preview_eq_iff.mp (congrArg Body.text hbody)
  rw [longText_length] at hlength
  exact absurd hlength (by decide)

/-- The same chunk upserted whole is passed on whole. -/
theorem whole_iff_plainUpsert :
    (machine ⟨1000, 500, 2⟩).Throughout Whole
      ([.plain (.createTree "t" .source "doc"),
        .upsertChunks [⟨⟨"c", .document, "doc", none, 100, 100, 100, 125, 0, .admitted⟩, "me", longText⟩]]
        ++ oneChunk) := by
  refine (whole_iff ⟨1000, 500, 2⟩ _ ?_).mpr ?_
  · rw [Machine.allSteps_iff_stepsFrom]
    refine ⟨trivial, trivial, trivial, ⟨List.not_mem_nil, fun node hnode => ?_⟩, trivial⟩
    exact absurd hnode List.not_mem_nil
  · rw [Machine.allSteps_iff_stepsFrom]
    exact ⟨trivial, trivial, trivial, trivial, trivial⟩

end Texts
end TinyCortex.SummaryTree
