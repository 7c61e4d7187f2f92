import TinyCortex.Lib.Table
import TinyCortex.Lib.Text

/-! The markdown time tree (`tree/runtime`): root, year, month, day and hour nodes, and the buffer of raw
entries that the hour leaves are folded from. Namespaces are left out, since every operation is on one. -/

namespace TinyCortex.TimeTree

open Table Text

/-- The segments of a node id: none for `root`, four for an hour leaf. Each is a number, year first. -/
abbrev NodeId := List Nat

/-- A month, a day or an hour in two digits. -/
def twoDigits (n : Nat) : String := if n < 10 then "0" ++ toString n else toString n

/-- The `node_id` text. -/
def NodeId.render : NodeId → String
  | [] => "root"
  | year :: rest => String.intercalate "/" (toString year :: rest.map twoDigits)

/-- `NodeLevel::as_str`. -/
def levelName : NodeId → String
  | [] => "root"
  | [_] => "year"
  | [_, _] => "month"
  | [_, _, _] => "day"
  | _ => "hour"

/-- An hour as `derive_node_ids` gives it. -/
structure Hour where
  year : Nat
  month : Nat
  day : Nat
  hour : Nat
  deriving DecidableEq, Repr

def Hour.id (hour : Hour) : NodeId := [hour.year, hour.month, hour.day, hour.hour]

/-- The day, month, year and root over an hour. -/
def Hour.ancestors (hour : Hour) : List NodeId :=
  [[hour.year, hour.month, hour.day], [hour.year, hour.month], [hour.year], []]

/-- The name of a buffer file: `{epoch_ms}_{uuid8}.md`. -/
structure BufferName where
  millis : Int
  uuid : String
  deriving DecidableEq, Repr

def BufferName.render (name : BufferName) : String := toString name.millis ++ "_" ++ name.uuid ++ ".md"

/-- A buffer file, and its body as `buffer_read` gives it. -/
structure Entry where
  name : BufferName
  content : String
  deriving DecidableEq, Repr

/-- The metadata text of a node: a fold receipt in JSON, or any text that is none. -/
inductive Metadata
  | text (value : String)
  | receipt (bufferFilenames : List BufferName) (previousMetadata : Option Metadata)
  deriving Repr

structure TreeNode where
  id : NodeId
  summary : String
  childCount : Nat
  createdAtMs : Int
  updatedAtMs : Int
  metadata : Option Metadata
  deriving Repr

/-- What the engine takes from outside: the hour of a time stamp, and the token estimate and limits of the
node types. -/
structure RuntimeEnv where
  hourOf : Int → Hour
  estimateTokens : String → Nat
  maxTokens : NodeId → Nat

/-- `read_node`: the body loses its trailing whitespace. -/
def readNode (nodes : List TreeNode) (id : NodeId) : Option TreeNode :=
  (lookup TreeNode.id id nodes).map fun node => { node with summary := trimEnd node.summary }

/-- `write_node` replaces the file of a node. -/
def writeNode (node : TreeNode) (nodes : List TreeNode) : List TreeNode := upsert TreeNode.id node nodes

/-- `read_children`, in the order of their ids. -/
def readChildren (nodes : List TreeNode) (id : NodeId) : List TreeNode :=
  ((nodes.filter fun node => node.id ≠ [] ∧ node.id.dropLast = id).map fun node =>
    { node with summary := trimEnd node.summary }).insertionSort
      fun a b => a.id.render ≤ b.id.render

end TinyCortex.TimeTree

/-! Folding the buffer into hour leaves and the summaries upward (`tree/runtime/fold.rs`, `engine.rs`). -/

namespace TinyCortex.TimeTree

open Table Text

/-- A fold receipt: the buffer files folded into a leaf, and the metadata that the leaf had. -/
structure PendingFoldReceipt where
  bufferFilenames : List BufferName
  previousMetadata : Option Metadata
  deriving Repr

def pendingFoldReceipt : Option Metadata → Option PendingFoldReceipt
  | some (.receipt bufferFilenames previousMetadata) => some ⟨bufferFilenames, previousMetadata⟩
  | some (.text _) | none => none

/-- The keys of `group_by_hour`, in order. The names that `buffer_write` makes have a time stamp. -/
def groupHours (env : RuntimeEnv) (entries : List Entry) : List Hour :=
  ((entries.map fun entry => env.hourOf entry.name.millis).eraseDups).insertionSort
    fun a b => a.id.render ≤ b.id.render

/-- The entries of one hour. -/
def hourGroup (env : RuntimeEnv) (entries : List Entry) (hour : Hour) : List Entry :=
  entries.filter fun entry => env.hourOf entry.name.millis = hour

/-- Summarise a text to a token limit: the reply of the summariser is cut to four bytes a token, and never
exceeds 80,000. -/
def summarizeToLimit (reply : Option String) (maxTokens : Nat) : Option String :=
  reply.map fun response => String.ofList (takeBytes (min (maxTokens * 4) 80000) response.toList)

/-- The receipt that a leaf has, if there is a leaf. -/
def leafReceipt (existing : Option TreeNode) : Option PendingFoldReceipt :=
  existing.bind fun node => pendingFoldReceipt node.metadata

def alreadyApplied (existing : Option TreeNode) : List BufferName :=
  ((leafReceipt existing).map PendingFoldReceipt.bufferFilenames).getD []

/-- The entries of a group that the leaf has no receipt for. -/
def newEntries (existing : Option TreeNode) (group : List Entry) : List Entry :=
  group.filter fun entry => entry.name ∉ alreadyApplied existing

def joinContents (contents : List String) : String := String.intercalate "\n\n---\n\n" contents

/-- What the summariser gets: the summary that is there and the new entries. -/
def foldInput (existing : Option TreeNode) (entries : List Entry) : String :=
  let newContent := joinContents (entries.map Entry.content)
  match existing with
  | some previous => previous.summary ++ "\n\n---\n\n" ++ newContent
  | none => newContent

/-- The metadata under the receipt that a fold writes. -/
def previousMetadata (existing : Option TreeNode) : Option Metadata :=
  ((leafReceipt existing).bind PendingFoldReceipt.previousMetadata).or (existing.bind TreeNode.metadata)

/-- The leaf that a fold writes. -/
def foldedLeaf (hour : Hour) (group : List Entry) (existing : Option TreeNode) (summary : String)
    (nowMs : Int) : TreeNode where
  id := hour.id
  summary := summary
  childCount := 0
  createdAtMs := (existing.map TreeNode.createdAtMs).getD nowMs
  updatedAtMs := nowMs
  metadata := some (.receipt (group.map Entry.name) (previousMetadata existing))

/-- One node of `clear_pending_fold_receipts`. -/
def clearReceipt (hour : Hour) (nodes : List TreeNode) : List TreeNode :=
  match readNode nodes hour.id with
  | none => nodes
  | some node =>
      match pendingFoldReceipt node.metadata with
      | none => nodes
      | some receipt => writeNode { node with metadata := receipt.previousMetadata } nodes

/-- The nodes over the hours of a run, lowest level first, each once. -/
def propagationIds (hours : List Hour) : List NodeId :=
  (hours.map fun hour => [hour.year, hour.month, hour.day]).eraseDups ++
    ((hours.map fun hour => [hour.year, hour.month]).eraseDups ++
      ((hours.map fun hour => [hour.year]).eraseDups ++ (hours.map fun _ => ([] : NodeId)).eraseDups))

def propagationInput (children : List TreeNode) : String :=
  joinContents (children.map fun child =>
    "## " ++ child.id.render ++ " (" ++ levelName child.id ++ ")\n\n" ++ child.summary)

/-- `propagate_node`: nothing is written for a node without children. The summariser is asked when the
children together are too long. -/
def propagateNode (env : RuntimeEnv) (id : NodeId) (reply : Option String) (nowMs : Int)
    (nodes : List TreeNode) : Option (List TreeNode) :=
  let children := readChildren nodes id
  if children = [] then some nodes
  else
    let combined := propagationInput children
    let summary :=
      if env.estimateTokens combined ≤ env.maxTokens id then some combined
      else summarizeToLimit reply (env.maxTokens id)
    summary.map fun summary =>
      writeNode
        { id := id
          summary := summary
          childCount := children.length
          createdAtMs := ((readNode nodes id).map TreeNode.createdAtMs).getD nowMs
          updatedAtMs := nowMs
          metadata := none } nodes

/-- The node that a propagation writes, if it writes one. -/
def propagatedNode (env : RuntimeEnv) (id : NodeId) (reply : Option String) (nowMs : Int)
    (nodes : List TreeNode) : Option (Option TreeNode) :=
  let children := readChildren nodes id
  if children = [] then some none
  else
    let combined := propagationInput children
    let summary :=
      if env.estimateTokens combined ≤ env.maxTokens id then some combined
      else summarizeToLimit reply (env.maxTokens id)
    summary.map fun summary =>
      some
        { id := id
          summary := summary
          childCount := children.length
          createdAtMs := ((readNode nodes id).map TreeNode.createdAtMs).getD nowMs
          updatedAtMs := nowMs
          metadata := none }

section Nodes

variable {nodes : List TreeNode} {node written : TreeNode} {id child : NodeId}

theorem readNode_some (h : readNode nodes id = some node) :
    node.id = id ∧ ∃ row ∈ nodes, row.metadata = node.metadata := by
  obtain ⟨row, hrow, rfl⟩ := Option.map_eq_some_iff.mp h
  obtain ⟨hmem, hid⟩ := lookup_mem hrow
  exact ⟨hid, row, hmem, rfl⟩

theorem readNode_isSome_iff : (readNode nodes id).isSome ↔ id ∈ nodes.map TreeNode.id := by
  rw [readNode, Option.isSome_map, lookup_isSome_iff]

theorem readNode_writeNode_self (written : TreeNode) (nodes : List TreeNode) :
    readNode (writeNode written nodes) written.id =
      some { written with summary := trimEnd written.summary } := by
  rw [readNode, writeNode, lookup_upsert_self]
  rfl

theorem readNode_writeNode_of_ne (h : written.id ≠ id) :
    readNode (writeNode written nodes) id = readNode nodes id := by
  rw [readNode, writeNode, lookup_upsert_of_ne h]
  rfl

/-- A write removes no node. -/
theorem readNode_isSome_writeNode (written : TreeNode) (h : (readNode nodes id).isSome) :
    (readNode (writeNode written nodes) id).isSome := by
  by_cases heq : written.id = id
  · rw [← heq, readNode_writeNode_self]
    rfl
  · rwa [readNode_writeNode_of_ne heq]

/-- A node that is there is among the children of its parent. -/
theorem readChildren_ne_nil (h : (readNode nodes child).isSome) (hroot : child ≠ []) :
    readChildren nodes child.dropLast ≠ [] := by
  obtain ⟨row, hrow, rfl⟩ := List.mem_map.mp (readNode_isSome_iff.mp h)
  intro hnil
  have hmem : { row with summary := trimEnd row.summary } ∈ readChildren nodes row.id.dropLast := by
    rw [readChildren, List.mem_insertionSort]
    exact List.mem_map_of_mem (List.mem_filter.mpr ⟨hrow, decide_eq_true ⟨hroot, rfl⟩⟩)
  rw [hnil] at hmem
  exact List.not_mem_nil hmem

/-- A propagation writes the node, or there are no children and nothing is written. -/
theorem propagateNode_some {env : RuntimeEnv} {reply : Option String} {nowMs : Int}
    {next : List TreeNode} (h : propagateNode env id reply nowMs nodes = some next) :
    (readChildren nodes id = [] ∧ next = nodes) ∨
    (readChildren nodes id ≠ [] ∧ ∃ written, written.id = id ∧ written.metadata = none ∧
      next = writeNode written nodes) := by
  unfold propagateNode at h
  dsimp only at h
  by_cases hnone : readChildren nodes id = []
  · rw [if_pos hnone] at h
    exact Or.inl ⟨hnone, (Option.some.inj h).symm⟩
  · rw [if_neg hnone] at h
    obtain ⟨summary, -, rfl⟩ := Option.map_eq_some_iff.mp h
    exact Or.inr ⟨hnone, _, rfl, rfl, rfl⟩

theorem propagateNode_eq (env : RuntimeEnv) (id : NodeId) (reply : Option String) (nowMs : Int)
    (nodes : List TreeNode) :
    propagateNode env id reply nowMs nodes = (propagatedNode env id reply nowMs nodes).map fun written =>
      (written.map fun node => writeNode node nodes).getD nodes := by
  unfold propagateNode propagatedNode
  dsimp only
  by_cases hnone : readChildren nodes id = []
  · rw [if_pos hnone, if_pos hnone]
    rfl
  · rw [if_neg hnone, if_neg hnone, Option.map_map]
    rfl

theorem propagatedNode_some {env : RuntimeEnv} {reply : Option String} {nowMs : Int}
    (h : propagatedNode env id reply nowMs nodes = some (some node)) : node.id = id ∧ node.metadata = none := by
  unfold propagatedNode at h
  dsimp only at h
  by_cases hnone : readChildren nodes id = []
  · rw [if_pos hnone] at h
    cases h
  · rw [if_neg hnone] at h
    obtain ⟨summary, -, heq⟩ := Option.map_eq_some_iff.mp h
    obtain rfl := Option.some.inj heq
    exact ⟨rfl, rfl⟩

end Nodes

section Receipts

variable {nodes : List TreeNode} {existing : Option TreeNode} {entry : Entry} {group : List Entry}
  {hour : Hour}

/-- The names in all the receipts of a metadata text, one under the other. -/
def Metadata.names : Metadata → List BufferName
  | .text _ => []
  | .receipt bufferFilenames none => bufferFilenames
  | .receipt bufferFilenames (some previous) => bufferFilenames ++ previous.names

def metadataNames (metadata : Option Metadata) : List BufferName := (metadata.map Metadata.names).getD []

theorem pendingFoldReceipt_some {metadata : Option Metadata} {receipt : PendingFoldReceipt}
    (h : pendingFoldReceipt metadata = some receipt) :
    metadata = some (.receipt receipt.bufferFilenames receipt.previousMetadata) := by
  rcases metadata with _ | ⟨value | ⟨names, previous⟩⟩
  · cases h
  · cases h
  · obtain rfl := Option.some.inj h
    rfl

theorem metadataNames_receipt (names : List BufferName) (previous : Option Metadata) :
    metadataNames (some (.receipt names previous)) = names ++ metadataNames previous := by
  cases previous with
  | none => exact (List.append_nil _).symm
  | some previous => rfl

theorem alreadyApplied_subset (node : TreeNode) :
    alreadyApplied (some node) ⊆ metadataNames node.metadata := by
  rw [alreadyApplied, leafReceipt, Option.bind_some]
  cases h : pendingFoldReceipt node.metadata with
  | none => exact List.nil_subset _
  | some receipt =>
      rw [pendingFoldReceipt_some h, metadataNames_receipt]
      exact List.subset_append_left _ _

/-- The metadata under a new receipt mentions only names that the leaf has. -/
theorem metadataNames_previousMetadata (existing : Option TreeNode) :
    metadataNames (previousMetadata existing) ⊆ metadataNames (existing.bind TreeNode.metadata) := by
  cases existing with
  | none => exact List.Subset.refl _
  | some node =>
      rw [previousMetadata, leafReceipt, Option.bind_some, Option.bind_some]
      cases h : pendingFoldReceipt node.metadata with
      | none => exact List.Subset.refl _
      | some receipt =>
          rw [pendingFoldReceipt_some h, metadataNames_receipt, Option.bind_some]
          cases hprevious : receipt.previousMetadata with
          | none => exact fun name hname => metadataNames_receipt _ _ ▸ hname
          | some previous => exact List.subset_append_right _ _

theorem mem_newEntries :
    entry ∈ newEntries existing group ↔ entry ∈ group ∧ entry.name ∉ alreadyApplied existing := by
  rw [newEntries, List.mem_filter, decide_eq_true_iff]

/-- A clear leaves the nodes, or takes the receipt from the leaf of the hour. -/
theorem clearReceipt_cases (hour : Hour) (nodes : List TreeNode) :
    (clearReceipt hour nodes = nodes ∧
      ∀ node, readNode nodes hour.id = some node → pendingFoldReceipt node.metadata = none) ∨
    ∃ node names previous, readNode nodes hour.id = some node ∧
      node.metadata = some (.receipt names previous) ∧
      clearReceipt hour nodes = writeNode { node with metadata := previous } nodes := by
  unfold clearReceipt
  cases hread : readNode nodes hour.id with
  | none => exact Or.inl ⟨rfl, fun _ h => nomatch h⟩
  | some node =>
      dsimp only
      cases hreceipt : pendingFoldReceipt node.metadata with
      | none => exact Or.inl ⟨rfl, fun other h => Option.some.inj h ▸ hreceipt⟩
      | some receipt => exact Or.inr ⟨node, _, _, rfl, pendingFoldReceipt_some hreceipt, rfl⟩

end Receipts

section Groups

variable {env : RuntimeEnv} {entries : List Entry} {entry : Entry} {hour : Hour} {hours : List Hour}
  {id : NodeId}

theorem mem_groupHours :
    hour ∈ groupHours env entries ↔ ∃ entry ∈ entries, env.hourOf entry.name.millis = hour := by
  rw [groupHours, List.mem_insertionSort, List.mem_eraseDups, List.mem_map]

theorem mem_hourGroup :
    entry ∈ hourGroup env entries hour ↔ entry ∈ entries ∧ env.hourOf entry.name.millis = hour := by
  rw [hourGroup, List.mem_filter, decide_eq_true_iff]

theorem mem_propagationIds : id ∈ propagationIds hours ↔ ∃ hour ∈ hours, id ∈ hour.ancestors := by
  simp only [propagationIds, List.mem_append, List.mem_eraseDups, List.mem_map, Hour.ancestors,
    List.mem_cons, List.not_mem_nil, or_false]
  constructor
  · rintro (⟨hour, hmem, rfl⟩ | ⟨hour, hmem, rfl⟩ | ⟨hour, hmem, rfl⟩ | ⟨hour, hmem, rfl⟩)
    · exact ⟨hour, hmem, Or.inl rfl⟩
    · exact ⟨hour, hmem, Or.inr (Or.inl rfl)⟩
    · exact ⟨hour, hmem, Or.inr (Or.inr (Or.inl rfl))⟩
    · exact ⟨hour, hmem, Or.inr (Or.inr (Or.inr rfl))⟩
  · rintro ⟨hour, hmem, rfl | rfl | rfl | rfl⟩
    · exact Or.inl ⟨hour, hmem, rfl⟩
    · exact Or.inr (Or.inl ⟨hour, hmem, rfl⟩)
    · exact Or.inr (Or.inr (Or.inl ⟨hour, hmem, rfl⟩))
    · exact Or.inr (Or.inr (Or.inr ⟨hour, hmem, rfl⟩))

/-- Lower levels come first. -/
theorem propagationIds_sorted (hours : List Hour) :
    (propagationIds hours).Pairwise fun a b => b.length ≤ a.length := by
  have hlength : ∀ (n : Nat) (f : Hour → NodeId), (∀ hour, (f hour).length = n) →
      ∀ id ∈ (hours.map f).eraseDups, id.length = n := by
    intro n f hf id hid
    obtain ⟨hour, -, rfl⟩ := List.mem_map.mp (List.mem_eraseDups.mp hid)
    exact hf hour
  -- a level over levels that are no longer than it
  have hlevel : ∀ (n : Nat) (f : Hour → NodeId) (above : List NodeId), (∀ hour, (f hour).length = n) →
      (∀ id ∈ above, id.length ≤ n) → above.Pairwise (fun a b => b.length ≤ a.length) →
      ((hours.map f).eraseDups ++ above).Pairwise fun a b => b.length ≤ a.length := by
    intro n f above hf habove hsorted
    refine List.pairwise_append.mpr ⟨?_, hsorted, fun a ha b hb => ?_⟩
    · apply List.pairwise_of_forall_mem_list
      intro a ha b hb
      exact (hlength n f hf b hb).trans_le (hlength n f hf a ha).ge
    · exact (habove b hb).trans (hlength n f hf a ha).ge
  have hroot : ∀ id ∈ (hours.map fun _ => ([] : NodeId)).eraseDups, id.length = 0 :=
    hlength 0 _ fun _ => rfl
  have hyear : ∀ id ∈ (hours.map fun hour => [hour.year]).eraseDups, id.length = 1 :=
    hlength 1 _ fun _ => rfl
  have hmonth : ∀ id ∈ (hours.map fun hour => [hour.year, hour.month]).eraseDups, id.length = 2 :=
    hlength 2 _ fun _ => rfl
  have hroots := hlevel 0 (fun _ => []) [] (fun _ => rfl) (fun _ h => absurd h List.not_mem_nil) .nil
  rw [List.append_nil] at hroots
  apply hlevel 3 _ _ (fun _ => rfl)
  · intro id hid
    rcases List.mem_append.mp hid with hid | hid
    · rw [hmonth id hid]
      decide
    · rcases List.mem_append.mp hid with hid | hid
      · rw [hyear id hid]
        decide
      · rw [hroot id hid]
        decide
  · apply hlevel 2 _ _ (fun _ => rfl)
    · intro id hid
      rcases List.mem_append.mp hid with hid | hid
      · rw [hyear id hid]
        decide
      · rw [hroot id hid]
        decide
    · apply hlevel 1 _ _ (fun _ => rfl)
      · intro id hid
        rw [hroot id hid]
        decide
      · exact hroots

end Groups

end TinyCortex.TimeTree
