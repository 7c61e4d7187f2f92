import TinyCortex.Lib.FirstMatch
import TinyCortex.Lib.FrontMatter
import TinyCortex.Lib.OrderedMap
import TinyCortex.TimeTree.Fold

/-! The files of the ingestion buffer (`tree/runtime/store/buffer.rs`). A file has a header only if its entry
came with metadata, and a reader tells the two apart by the text alone. -/

namespace TinyCortex.TimeTree

open FirstMatch

/-- JSON values as `serde_json` writes them, on one line, and what it takes for a value. -/
structure Json (ν : Type) where
  toText : ν → List Char
  isValue : List Char → Bool
  oneline : ∀ value, '\n' ∉ toText value

/-- A call of `buffer_write`, with the name that its timestamp and its random part give. -/
structure BufferCall (ν : Type) where
  name : BufferName
  content : String
  metadata : Option ν

/-- The buffer's files by their names, in the order that they are read in. -/
abbrev BufferDir := OrderedMap String (List Char)

def headerStart : List Char := "---\nmetadata: ".toList

def headerEnd : List Char := "\n---\n".toList

variable {ν : Type} (json : Json ν)

def fileContent (call : BufferCall ν) : List Char :=
  match call.metadata with
  | some value => headerStart ++ json.toText value ++ headerEnd ++ '\n' :: call.content.toList
  | none => call.content.toList

def bufferWrite (call : BufferCall ν) (dir : BufferDir) : BufferDir :=
  OrderedMap.insert dir call.name.render (fileContent json call)

def stripBufferFrontmatter (raw : List Char) : List Char :=
  match raw.dropPrefix? headerStart with
  | none => raw
  | some afterOpen =>
      match splitOnce headerEnd afterOpen with
      | none => raw
      | some (metadata, body) => if json.isValue metadata then (body.dropPrefix? ['\n']).getD body else raw

def bufferRead (dir : BufferDir) : List (String × String) :=
  dir.map fun file => (file.1, String.ofList (stripBufferFrontmatter json file.2))

def bufferDelete (filenames : List String) (dir : BufferDir) : BufferDir :=
  dir.filter fun file => file.1 ∉ filenames

def bufferDrain (dir : BufferDir) : List (String × String) × BufferDir :=
  let entries := bufferRead json dir
  if entries.isEmpty then (entries, dir) else (entries, bufferDelete (entries.map (·.1)) dir)

/-- An operation on the buffer. -/
inductive BufferOp (ν : Type)
  | write (call : BufferCall ν)
  | delete (filenames : List String)
  | drain

def BufferOp.apply (op : BufferOp ν) (dir : BufferDir) : BufferDir :=
  match op with
  | .write call => bufferWrite json call dir
  | .delete filenames => bufferDelete filenames dir
  | .drain => (bufferDrain json dir).2

def runBuffer (ops : List (BufferOp ν)) : BufferDir := ops.foldl (fun dir op => op.apply json dir) []

/-- The operation leaves the file of this name. -/
def BufferOp.Keeps (name : String) : BufferOp ν → Prop
  | .write call => call.name.render ≠ name
  | .delete filenames => name ∉ filenames
  | .drain => False

/-- The text starts as a header does: its first line, and a JSON value up to the first closing fence. -/
def HeaderLike (text : List Char) : Prop :=
  ∃ rest metadata body, text = headerStart ++ rest ∧ splitOnce headerEnd rest = some (metadata, body) ∧
    json.isValue metadata = true

/-- The reader cannot mistake the file of this call: its metadata is JSON that is read, or it has none and
its content does not look like a header. -/
def Unmistakable (call : BufferCall ν) : Prop :=
  match call.metadata with
  | some value => json.isValue (json.toText value) = true
  | none => ¬HeaderLike json call.content.toList

theorem length_strip_le (body : List Char) : ((body.dropPrefix? ['\n']).getD body).length ≤ body.length := by
  cases hdrop : body.dropPrefix? ['\n'] with
  | none => exact le_rfl
  | some rest =>
      obtain ⟨pre, hbody, -⟩ := List.dropPrefix?_eq_some_iff.mp hdrop
      rw [hbody, List.length_append]
      exact Nat.le_add_left _ _

/-- A text is read as it is exactly when it does not start as a header. -/
theorem stripBufferFrontmatter_eq_self_iff (text : List Char) :
    stripBufferFrontmatter json text = text ↔ ¬HeaderLike json text := by
  unfold stripBufferFrontmatter
  cases hdrop : text.dropPrefix? headerStart with
  | none =>
      refine iff_of_true (Eq.refl _) ?_
      rintro ⟨rest, metadata, body, rfl, -, -⟩
      rw [FrontMatter.dropPrefix?_append] at hdrop
      cases hdrop
  | some rest =>
      obtain ⟨pre, htext, hpre⟩ := List.dropPrefix?_eq_some_iff.mp hdrop
      obtain rfl := eq_of_beq hpre
      dsimp only
      have hrest : ∀ rest', text = headerStart ++ rest' → rest' = rest :=
        fun rest' heq => (List.append_cancel_left (htext.symm.trans heq)).symm
      cases hsplit : splitOnce headerEnd rest with
      | none =>
          refine iff_of_true (Eq.refl _) ?_
          rintro ⟨rest', metadata, body, heq, hsome, -⟩
          rw [hrest rest' heq, hsplit] at hsome
          cases hsome
      | some parts =>
          obtain ⟨metadata, body⟩ := parts
          dsimp only
          by_cases hvalue : json.isValue metadata = true
          · rw [if_pos hvalue]
            refine iff_of_false (fun heq => ?_) (not_not.mpr ⟨rest, metadata, body, htext, hsplit, hvalue⟩)
            -- What is left of a header is shorter than the text.
            have hle := length_strip_le body
            have hlength := congrArg List.length (eq_of_splitOnce hsplit)
            have htotal := congrArg List.length htext
            have hstart : headerStart.length = 14 := by decide
            rw [List.length_append, List.length_append] at hlength
            rw [List.length_append, hstart] at htotal
            rw [heq] at hle
            omega
          · rw [if_neg hvalue]
            refine iff_of_true (Eq.refl _) ?_
            rintro ⟨rest', metadata', body', heq, hsome, hvalue'⟩
            rw [hrest rest' heq, hsplit] at hsome
            obtain ⟨rfl, rfl⟩ := Prod.mk.inj (Option.some.inj hsome)
            exact hvalue hvalue'

/-- A file is read as the content it was written with exactly when it cannot be mistaken. -/
theorem strip_fileContent_iff (call : BufferCall ν) :
    stripBufferFrontmatter json (fileContent json call) = call.content.toList ↔ Unmistakable json call := by
  obtain ⟨name, content, metadata⟩ := call
  cases metadata with
  | none => exact stripBufferFrontmatter_eq_self_iff json content.toList
  | some value =>
      have hend : headerEnd = '\n' :: "---\n".toList := by decide
      have hsplit : splitOnce headerEnd (json.toText value ++ (headerEnd ++ '\n' :: content.toList)) =
          some (json.toText value, '\n' :: content.toList) := by
        rw [hend, splitOnce_line (json.oneline value), splitOnce_self, Option.map_some, List.append_nil]
      unfold fileContent Unmistakable stripBufferFrontmatter
      dsimp only
      rw [List.append_assoc, List.append_assoc, FrontMatter.dropPrefix?_append]
      dsimp only
      rw [hsplit]
      dsimp only
      by_cases hvalue : json.isValue (json.toText value) = true
      · rw [if_pos hvalue]
        exact iff_of_true (congrArg (Option.getD · _) (FrontMatter.dropPrefix?_append ['\n'] _)) hvalue
      · rw [if_neg hvalue]
        refine iff_of_false (fun heq => ?_) hvalue
        have hlength := congrArg List.length heq
        simp only [List.length_append, List.length_cons] at hlength
        omega

/-! ### Runs of the buffer -/

theorem bufferDelete_eq_erase (filenames : List String) (dir : BufferDir) (name : String) :
    OrderedMap.get (bufferDelete filenames dir) name =
      if name ∈ filenames then none else OrderedMap.get dir name := by
  induction dir with
  | nil =>
      rw [bufferDelete, List.filter_nil, OrderedMap.get_nil]
      split_ifs <;> rfl
  | cons file dir ih =>
      obtain ⟨key, raw⟩ := file
      rw [bufferDelete] at ih ⊢
      rw [List.filter_cons, OrderedMap.get_cons]
      by_cases hkey : key ∈ filenames
      · rw [if_neg (by simpa using hkey), ih]
        by_cases hname : key = name
        · rw [if_pos (hname ▸ hkey), if_pos (hname ▸ hkey)]
        · rw [if_neg hname]
      · rw [if_pos (decide_eq_true hkey), OrderedMap.get_cons, ih]
        by_cases hname : key = name
        · rw [if_pos hname, if_pos hname, if_neg (hname ▸ hkey)]
        · rw [if_neg hname, if_neg hname]

theorem ordered_apply {dir : BufferDir} (h : OrderedMap.Ordered dir) (op : BufferOp ν) :
    OrderedMap.Ordered (op.apply json dir) := by
  cases op with
  | write call => exact h.insert
  | delete filenames => exact h.filter _
  | drain =>
      unfold BufferOp.apply bufferDrain
      dsimp only
      split_ifs
      · exact h
      · exact h.filter _

theorem ordered_run {dir : BufferDir} (h : OrderedMap.Ordered dir) (ops : List (BufferOp ν)) :
    OrderedMap.Ordered (ops.foldl (fun dir op => op.apply json dir) dir) := by
  induction ops generalizing dir with
  | nil => exact h
  | cons op ops ih => exact ih (ordered_apply json h op)

/-- A file stays as long as the operations leave it. -/
theorem get_run {name : String} {ops : List (BufferOp ν)} (h : ∀ op ∈ ops, op.Keeps name) (dir : BufferDir) :
    OrderedMap.get (ops.foldl (fun dir op => op.apply json dir) dir) name = OrderedMap.get dir name := by
  induction ops generalizing dir with
  | nil => rfl
  | cons op ops ih =>
      obtain ⟨hop, hops⟩ := List.forall_mem_cons.mp h
      rw [List.foldl_cons, ih hops]
      cases op with
      | write call =>
          change OrderedMap.get (bufferWrite json call dir) name = _
          rw [bufferWrite, OrderedMap.get_insert, if_neg hop]
      | delete filenames =>
          change OrderedMap.get (bufferDelete filenames dir) name = _
          rw [bufferDelete_eq_erase, if_neg hop]
      | drain => exact hop.elim

theorem mem_bufferRead_iff {dir : BufferDir} (h : OrderedMap.Ordered dir) {name : String} {raw : List Char}
    (hget : OrderedMap.get dir name = some raw) (content : String) :
    (name, content) ∈ bufferRead json dir ↔ content = String.ofList (stripBufferFrontmatter json raw) := by
  rw [bufferRead, List.mem_map]
  constructor
  · rintro ⟨⟨key, raw'⟩, hfile, heq⟩
    obtain ⟨rfl, rfl⟩ := Prod.mk.inj heq
    rw [h.mem_iff, hget] at hfile
    rw [Option.some.inj hfile]
  · rintro rfl
    exact ⟨(name, raw), h.mem_iff.mpr hget, Eq.refl _⟩

theorem bufferDrain_fst (dir : BufferDir) : (bufferDrain json dir).1 = bufferRead json dir := by
  unfold bufferDrain
  dsimp only
  split_ifs <;> rfl

/-- In any run of the buffer, an entry that is still there is read and drained with exactly the content it
was written with if and only if its file cannot be mistaken. -/
theorem bufferRead_content_iff (before after : List (BufferOp ν)) (call : BufferCall ν)
    (hkept : ∀ op ∈ after, op.Keeps call.name.render) :
    (∀ entries, entries = bufferRead json (runBuffer json (before ++ .write call :: after)) ∨
        entries = (bufferDrain json (runBuffer json (before ++ .write call :: after))).1 →
      ∀ content, (call.name.render, content) ∈ entries ↔ content = call.content) ↔
      Unmistakable json call := by
  have hordered : OrderedMap.Ordered (runBuffer json (before ++ .write call :: after)) :=
    ordered_run json OrderedMap.ordered_nil _
  have hget : OrderedMap.get (runBuffer json (before ++ .write call :: after)) call.name.render =
      some (fileContent json call) := by
    rw [runBuffer, List.foldl_append, List.foldl_cons, get_run json hkept]
    change OrderedMap.get (bufferWrite json call _) _ = _
    rw [bufferWrite, OrderedMap.get_insert, if_pos (Eq.refl _)]
  rw [← strip_fileContent_iff]
  constructor
  · intro h
    have hread := (h _ (Or.inl (Eq.refl _)) call.content).mpr (Eq.refl _)
    have hcontent := (mem_bufferRead_iff json hordered hget call.content).mp hread
    rw [hcontent, String.toList_ofList]
  · rintro h entries hentries content
    have hread : entries = bufferRead json (runBuffer json (before ++ .write call :: after)) := by
      rcases hentries with rfl | rfl
      · exact Eq.refl _
      · exact bufferDrain_fst json _
    rw [hread, mem_bufferRead_iff json hordered hget, h, String.ofList_toList]

/-- JSON with one value, the empty object. -/
def emptyObject : Json Unit where
  toText _ := ['\x7b', '\x7d']
  isValue text := text = ['\x7b', '\x7d']
  oneline _ := by decide

theorem bufferRead_content_note :
    (∀ entries, entries = bufferRead emptyObject (runBuffer emptyObject [.write ⟨⟨5, "0a1b2c3d"⟩, "A note.", none⟩]) ∨
        entries = (bufferDrain emptyObject
          (runBuffer emptyObject [.write ⟨⟨5, "0a1b2c3d"⟩, "A note.", none⟩])).1 →
      ∀ content, ("5_0a1b2c3d.md", content) ∈ entries ↔ content = "A note.") ↔
      Unmistakable emptyObject ⟨⟨5, "0a1b2c3d"⟩, "A note.", none⟩ :=
  bufferRead_content_iff emptyObject [] [] ⟨⟨5, "0a1b2c3d"⟩, "A note.", none⟩
    fun _ hmem => absurd hmem List.not_mem_nil

/-- A content that starts with a header of its own, and that was given no metadata, loses its start. -/
theorem bufferRead_loses_start :
    let call : BufferCall Unit :=
      ⟨⟨5, "0a1b2c3d"⟩, String.ofList (headerStart ++ ['\x7b', '\x7d'] ++ headerEnd ++ "Body".toList), none⟩
    bufferRead emptyObject (runBuffer emptyObject [.write call]) = [("5_0a1b2c3d.md", "Body")] ∧
      call.content ≠ "Body" := by
  decide +kernel

end TinyCortex.TimeTree
