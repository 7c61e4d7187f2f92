import TinyCortex.Chunks.Signature
import TinyCortex.Lib.Fallible
import TinyCortex.Lib.Machine
import TinyCortex.Lib.Table

/-! The vectors of summaries (`tree/store/summaries.rs`). A row belongs to one spelling of a signature, a read takes
any spelling of it, and no read says which row it wants when there are several: the rows come in whatever order the
database finds them. -/

namespace TinyCortex.SummaryTree

open Chunks Table

/-- A number as its 32 bits. -/
abbrev F32 := BitVec 32

abbrev Byte := BitVec 8

def F32.toLeBytes (x : F32) : List Byte :=
  [x.extractLsb' 0 8, x.extractLsb' 8 8, x.extractLsb' 16 8, x.extractLsb' 24 8]

def packEmbeddingBlob (embedding : List F32) : List Byte := embedding.flatMap F32.toLeBytes

/-- The numbers of the whole groups of four bytes. -/
def f32s : List Byte → List F32
  | a :: b :: c :: d :: bytes => (d ++ c ++ b ++ a) :: f32s bytes
  | _ => []

/-- A row of `mem_tree_summary_embeddings`; nothing here reads when it was written. -/
structure EmbeddingRow where
  summaryId : String
  modelSignature : String
  vector : List Byte
  dim : Int
  deriving DecidableEq, Repr

def EmbeddingRow.key (row : EmbeddingRow) : String × String := (row.summaryId, row.modelSignature)

/-- A stored vector, if its length is what the row says. -/
def decodeSignatureBlob (bytes : List Byte) (dim : Int) (label : String) : Except String (List F32) :=
  if dim < 0 then .error (label ++ " has negative dimension " ++ toString dim)
  else if bytes.length % 4 ≠ 0 then
    .error (label ++ " blob length " ++ toString bytes.length ++ " not a multiple of 4")
  else
    let floats := f32s bytes
    if floats.length ≠ dim.toNat then
      .error ("embedding dimension mismatch: dim column says " ++ toString dim ++ ", blob contains " ++
        toString floats.length ++ " floats")
    else .ok floats

/-- The ids of the summaries, and their vectors. -/
structure EmbeddingStore where
  summaries : List String
  rows : List EmbeddingRow
  deriving DecidableEq, Repr

def setSummaryEmbeddingForSignature (summaryId modelSignature : String) (embedding : List F32)
    (store : EmbeddingStore) : Except String EmbeddingStore :=
  if 2 ^ 63 ≤ embedding.length then .error "embedding dimension does not fit i64"
  else if summaryId ∉ store.summaries then .error "FOREIGN KEY constraint failed"
  else
    let row : EmbeddingRow := ⟨summaryId, modelSignature, packEmbeddingBlob embedding, embedding.length⟩
    .ok { store with rows := upsert EmbeddingRow.key row store.rows }

/-- In what order the database finds the rows of a query without an order, for the query of one summary and the
query of several. -/
structure Planner where
  single : List String → List String → List EmbeddingRow → List EmbeddingRow
  batch : List String → List String → List EmbeddingRow → List EmbeddingRow

/-- It finds each row once. -/
structure Planner.Lawful (planner : Planner) : Prop where
  single : ∀ ids signatures rows, (planner.single ids signatures rows).Perm rows
  batch : ∀ ids signatures rows, (planner.batch ids signatures rows).Perm rows

/-- `WHERE summary_id IN (…) AND model_signature IN (…)`. -/
def matching (ids signatures : List String) (rows : List EmbeddingRow) : List EmbeddingRow :=
  rows.filter fun row => decide (row.summaryId ∈ ids) && decide (row.modelSignature ∈ signatures)

section Reads

variable (formatSignature : String → String → Nat → String) (planner : Planner)

def getSummaryEmbeddingForSignature (summaryId modelSignature : String) (store : EmbeddingStore) :
    Except String (Option (List F32)) :=
  let variants := signatureVariants formatSignature modelSignature
  match planner.single [summaryId] variants (matching [summaryId] variants store.rows) with
  | [] => .ok none
  | row :: _ => (decodeSignatureBlob row.vector row.dim ("summary_id=" ++ summaryId)).map some

/-- `slice::chunks`. -/
def chunksOf {α : Type*} (size : Nat) : List α → List (List α)
  | [] => []
  | x :: xs => (x :: xs.take (size - 1)) :: chunksOf size (xs.drop (size - 1))
termination_by xs => xs.length
decreasing_by
  simp only [List.length_drop, List.length_cons]
  omega

theorem flatten_chunksOf {α : Type*} (size : Nat) (xs : List α) : (chunksOf size xs).flatten = xs := by
  induction xs using chunksOf.induct size with
  | case1 => rw [chunksOf, List.flatten_nil]
  | case2 x xs ih => rw [chunksOf, List.flatten_cons, ih, List.cons_append, List.take_append_drop]

theorem length_le_of_mem_chunksOf {α : Type*} {size : Nat} (hpos : 0 < size) {xs piece : List α}
    (h : piece ∈ chunksOf size xs) : piece.length ≤ size := by
  induction xs using chunksOf.induct size with
  | case1 =>
      rw [chunksOf] at h
      cases h
  | case2 x xs ih =>
      rw [chunksOf] at h
      rcases List.mem_cons.mp h with rfl | hrest
      · have hle := List.length_take_le (size - 1) xs
        rw [List.length_cons]
        omega
      · exact ih hrest

def maxEmbeddingBatch : Nat := 500

/-- The rows of a query, each put into the map. -/
def insertRows (out : String → Option (List F32)) :
    List EmbeddingRow → Except String (String → Option (List F32))
  | [] => .ok out
  | row :: rows =>
      match decodeSignatureBlob row.vector row.dim ("summary_id=" ++ row.summaryId) with
      | .error error => .error error
      | .ok v => insertRows (Function.update out row.summaryId (some v)) rows

def getSummaryEmbeddingsForSignatureBatch (summaryIds : List String) (modelSignature : String)
    (store : EmbeddingStore) : Except String (String → Option (List F32)) :=
  let variants := signatureVariants formatSignature modelSignature
  (chunksOf maxEmbeddingBatch summaryIds).foldlM (fun out window =>
    insertRows out (planner.batch window variants (matching window variants store.rows))) fun _ => none

end Reads

/-! ### Vectors and their blobs -/

theorem length_packEmbeddingBlob (embedding : List F32) : (packEmbeddingBlob embedding).length = 4 * embedding.length := by
  induction embedding with
  | nil => rfl
  | cons x embedding ih =>
      rw [packEmbeddingBlob, List.flatMap_cons, List.length_append, ← packEmbeddingBlob, ih, List.length_cons]
      show 4 + 4 * embedding.length = _
      omega

theorem f32s_packEmbeddingBlob (embedding : List F32) : f32s (packEmbeddingBlob embedding) = embedding := by
  induction embedding with
  | nil => rfl
  | cons x embedding ih =>
      have hbytes : (x.extractLsb' 24 8 ++ x.extractLsb' 16 8 ++ x.extractLsb' 8 8 ++ x.extractLsb' 0 8 : F32) = x := by
        grind
      rw [packEmbeddingBlob, List.flatMap_cons, F32.toLeBytes, ← packEmbeddingBlob]
      show (_ : F32) :: f32s (packEmbeddingBlob embedding) = _
      rw [ih, hbytes]

/-- What is written is read back. -/
theorem decodeSignatureBlob_pack (embedding : List F32) (label : String) :
    decodeSignatureBlob (packEmbeddingBlob embedding) embedding.length label = .ok embedding := by
  have hdim : ¬(embedding.length : Int) < 0 := by omega
  have hwhole : ¬(packEmbeddingBlob embedding).length % 4 ≠ 0 := by
    rw [length_packEmbeddingBlob]
    omega
  rw [decodeSignatureBlob, if_neg hdim, if_neg hwhole]
  dsimp only
  rw [f32s_packEmbeddingBlob, if_neg (by simp)]

end TinyCortex.SummaryTree

/-! Writes and reads of summary vectors over whole histories. As a read asks for several spellings at once, it gives
the last write back, in one piece and in a batch, as long as the rows that one question finds hold the same
vector. -/

namespace TinyCortex.SummaryTree

open Chunks Table

/-- One write of a vector. -/
structure EmbeddingWrite where
  summaryId : String
  modelSignature : String
  embedding : List F32
  deriving DecidableEq

def EmbeddingWrite.row (w : EmbeddingWrite) : EmbeddingRow :=
  ⟨w.summaryId, w.modelSignature, packEmbeddingBlob w.embedding, w.embedding.length⟩

namespace EmbeddingStore

def write (store : EmbeddingStore) (w : EmbeddingWrite) : EmbeddingStore :=
  match setSummaryEmbeddingForSignature w.summaryId w.modelSignature w.embedding store with
  | .ok next => next
  | .error _ => store

/-- Writes in any order, to a store of the given summaries. -/
def writing (summaries : List String) : Machine EmbeddingStore EmbeddingWrite := ⟨⟨summaries, []⟩, write⟩

variable (formatSignature : String → String → Nat → String)

/-- A write that succeeds is what a read of the same signature then gives, in whatever order rows are found. -/
def ReadsBack (store : EmbeddingStore) (w : EmbeddingWrite) : Prop :=
  ∀ next, setSummaryEmbeddingForSignature w.summaryId w.modelSignature w.embedding store = .ok next →
    ∀ planner : Planner, planner.Lawful →
      getSummaryEmbeddingForSignature formatSignature planner w.summaryId w.modelSignature next =
        .ok (some w.embedding)

/-- The two readers agree, in whatever order rows are found. -/
def ReadersAgree (store : EmbeddingStore) : Prop :=
  ∀ planner : Planner, planner.Lawful → ∀ ids modelSignature, ∃ out,
    getSummaryEmbeddingsForSignatureBatch formatSignature planner ids modelSignature store = .ok out ∧
      ∀ id ∈ ids, getSummaryEmbeddingForSignature formatSignature planner id modelSignature store = .ok (out id)

/-- The row is found by a question for the signature. -/
def Answers (modelSignature : String) (row : EmbeddingRow) : Prop :=
  row.modelSignature ∈ signatureVariants formatSignature modelSignature

/-- A write that can be read back: the signature asks for its own row, or for another one of the summary, and every
other row that some question finds together with it, or that a question for it finds, holds the vector already. -/
def Unambiguous (store : EmbeddingStore) (w : EmbeddingWrite) : Prop :=
  w.summaryId ∈ store.summaries → w.embedding.length < 2 ^ 63 →
    (Answers formatSignature w.modelSignature w.row ∨
      ∃ row ∈ store.rows, row.summaryId = w.summaryId ∧ Answers formatSignature w.modelSignature row) ∧
    ∀ row ∈ store.rows, row.summaryId = w.summaryId → row.modelSignature ≠ w.modelSignature → ∀ asked,
      Answers formatSignature asked row → asked = w.modelSignature ∨ Answers formatSignature asked w.row →
        row.vector = packEmbeddingBlob w.embedding

/-- Rows of one summary that a question finds together hold one vector. -/
structure Coherent (store : EmbeddingStore) : Prop where
  keyed : (store.rows.map EmbeddingRow.key).Nodup
  packed : ∀ row ∈ store.rows, ∃ v : List F32, row.vector = packEmbeddingBlob v ∧ row.dim = v.length
  agree : ∀ row ∈ store.rows, ∀ other ∈ store.rows, row.summaryId = other.summaryId → ∀ asked,
    Answers formatSignature asked row → Answers formatSignature asked other → row.vector = other.vector

variable {formatSignature} {store next : EmbeddingStore} {w : EmbeddingWrite} {planner : Planner}
  {summaryId id modelSignature asked : String} {row other : EmbeddingRow} {v : List F32}

/-! ### Reading -/

theorem mem_matching {ids : List String} : row ∈ matching ids (signatureVariants formatSignature modelSignature)
    store.rows ↔ row ∈ store.rows ∧ row.summaryId ∈ ids ∧ Answers formatSignature modelSignature row := by
  rw [matching, List.mem_filter, Bool.and_eq_true, decide_eq_true_iff, decide_eq_true_iff]
  rfl

/-- What a question finds for a summary: nothing, or one vector. -/
def Stored (formatSignature : String → String → Nat → String) (store : EmbeddingStore)
    (modelSignature summaryId : String) : Option (List F32) → Prop
  | none => ∀ row ∈ store.rows, row.summaryId = summaryId → ¬Answers formatSignature modelSignature row
  | some v => (∃ row ∈ store.rows, row.summaryId = summaryId ∧ Answers formatSignature modelSignature row) ∧
      ∀ row ∈ store.rows, row.summaryId = summaryId → Answers formatSignature modelSignature row →
        row.vector = packEmbeddingBlob v ∧ row.dim = v.length

theorem packEmbeddingBlob_inj {u v : List F32} (h : packEmbeddingBlob u = packEmbeddingBlob v) : u = v := by
  have hread := congrArg f32s h
  rwa [f32s_packEmbeddingBlob, f32s_packEmbeddingBlob] at hread

theorem Coherent.stored (h : Coherent formatSignature store) (modelSignature summaryId : String) :
    ∃ found, Stored formatSignature store modelSignature summaryId found := by
  by_cases hrow : ∃ row ∈ store.rows, row.summaryId = summaryId ∧ Answers formatSignature modelSignature row
  · obtain ⟨row, hmem, hid, hanswers⟩ := hrow
    obtain ⟨v, hvector, -⟩ := h.packed row hmem
    refine ⟨some v, ⟨row, hmem, hid, hanswers⟩, fun other hother hid' hanswers' => ?_⟩
    obtain ⟨u, hvector', hdim⟩ := h.packed other hother
    have hsame := h.agree row hmem other hother (hid.trans hid'.symm) modelSignature hanswers hanswers'
    obtain rfl := packEmbeddingBlob_inj (hvector.symm.trans (hsame.trans hvector'))
    exact ⟨hvector', hdim⟩
  · exact ⟨none, fun row hmem hid hanswers => hrow ⟨row, hmem, hid, hanswers⟩⟩

theorem Stored.get {found : Option (List F32)} (h : Stored formatSignature store modelSignature summaryId found)
    (hlawful : planner.Lawful) :
    getSummaryEmbeddingForSignature formatSignature planner summaryId modelSignature store = .ok found := by
  have hfound := hlawful.single [summaryId] (signatureVariants formatSignature modelSignature)
    (matching [summaryId] (signatureVariants formatSignature modelSignature) store.rows)
  have hmem : ∀ row, row ∈ planner.single [summaryId] (signatureVariants formatSignature modelSignature)
      (matching [summaryId] (signatureVariants formatSignature modelSignature) store.rows) ↔
      row ∈ store.rows ∧ row.summaryId = summaryId ∧ Answers formatSignature modelSignature row := by
    intro row
    rw [hfound.mem_iff, mem_matching, List.mem_singleton]
  rw [getSummaryEmbeddingForSignature]
  generalize planner.single _ _ _ = rows at hmem
  cases rows with
  | nil =>
      cases found with
      | none => rfl
      | some v =>
          obtain ⟨row, hrow⟩ := h.1
          exact absurd ((hmem row).mpr hrow) List.not_mem_nil
  | cons row rows =>
      obtain ⟨hrow, hid, hanswers⟩ := (hmem row).mp List.mem_cons_self
      cases found with
      | none => exact absurd hanswers (h row hrow hid)
      | some v =>
          obtain ⟨hvector, hdim⟩ := h.2 row hrow hid hanswers
          show Except.map some (decodeSignatureBlob row.vector row.dim ("summary_id=" ++ summaryId)) = _
          rw [hvector, hdim, decodeSignatureBlob_pack]
          rfl

/-- Rows of a question put into the map: each summary gets what is stored for it. -/
theorem insertRows_stored {value : String → Option (List F32)}
    (hvalue : ∀ id, Stored formatSignature store modelSignature id (value id)) {rows : List EmbeddingRow}
    (hrows : ∀ row ∈ rows, row ∈ store.rows ∧ Answers formatSignature modelSignature row)
    (out : String → Option (List F32)) : ∃ out', insertRows out rows = .ok out' ∧
      ∀ id, out' id = if id ∈ rows.map EmbeddingRow.summaryId then value id else out id := by
  induction rows generalizing out with
  | nil => exact ⟨out, rfl, fun id => (if_neg List.not_mem_nil).symm⟩
  | cons row rows ih =>
      obtain ⟨hrow, hanswers⟩ := hrows row List.mem_cons_self
      have hstored := hvalue row.summaryId
      cases hv : value row.summaryId with
      | none =>
          rw [hv] at hstored
          exact absurd hanswers (hstored row hrow rfl)
      | some v =>
          rw [hv] at hstored
          obtain ⟨hvector, hdim⟩ := hstored.2 row hrow rfl hanswers
          obtain ⟨out', hok, hout⟩ := ih (fun other hother => hrows other (List.mem_cons_of_mem _ hother))
            (Function.update out row.summaryId (some v))
          refine ⟨out', ?_, fun id => ?_⟩
          · rw [insertRows, hvector, hdim, decodeSignatureBlob_pack]
            exact hok
          · rw [hout]
            by_cases hid : id = row.summaryId
            · subst hid
              rw [Function.update_self, hv, ite_self, if_pos (by simp)]
            · simp only [Function.update_of_ne hid, List.map_cons, List.mem_cons, hid, false_or]

/-- The windows of a batch, one after the other. -/
theorem batch_windows {value : String → Option (List F32)}
    (hvalue : ∀ id, Stored formatSignature store modelSignature id (value id)) (hlawful : planner.Lawful)
    (windows : List (List String)) (out : String → Option (List F32)) (hout : ∀ id, out id = none ∨ out id = value id) :
    ∃ out', windows.foldlM (fun out window => insertRows out (planner.batch window
        (signatureVariants formatSignature modelSignature)
        (matching window (signatureVariants formatSignature modelSignature) store.rows))) out = .ok out' ∧
      ∀ id, id ∈ windows.flatten ∨ out id = value id → out' id = value id := by
  induction windows generalizing out with
  | nil => exact ⟨out, rfl, fun id h => h.resolve_left List.not_mem_nil⟩
  | cons window windows ih =>
      have hmem : ∀ row, row ∈ planner.batch window (signatureVariants formatSignature modelSignature)
          (matching window (signatureVariants formatSignature modelSignature) store.rows) ↔
          row ∈ store.rows ∧ row.summaryId ∈ window ∧ Answers formatSignature modelSignature row := by
        intro row
        rw [(hlawful.batch _ _ _).mem_iff, mem_matching]
      obtain ⟨mid, hok, hmid⟩ := insertRows_stored hvalue (fun row hrow =>
        ⟨((hmem row).mp hrow).1, ((hmem row).mp hrow).2.2⟩) out
      have hsettled : ∀ id, id ∈ window ∨ out id = value id → mid id = value id := by
        intro id hid
        rw [hmid]
        by_cases hfound : id ∈ (planner.batch window (signatureVariants formatSignature modelSignature)
            (matching window (signatureVariants formatSignature modelSignature) store.rows)).map
              EmbeddingRow.summaryId
        · rw [if_pos hfound]
        · rw [if_neg hfound]
          refine hid.elim (fun hwindow => ?_) fun heq => heq
          -- nothing was found for the summary, so nothing is stored for it
          have hnone : value id = none := by
            cases hv : value id with
            | none => rfl
            | some v =>
                have hstored := hvalue id
                rw [hv] at hstored
                obtain ⟨row, hrow, rfl, hanswers⟩ := hstored.1
                exact absurd (List.mem_map_of_mem ((hmem row).mpr ⟨hrow, hwindow, hanswers⟩)) hfound
          rw [hnone]
          exact (hout id).elim (fun h => h) fun h => h.trans hnone
      have hmid' : ∀ id, mid id = none ∨ mid id = value id := by
        intro id
        rcases hout id with hnone | hsome
        · rw [hmid]
          split_ifs
          · exact Or.inr rfl
          · exact Or.inl hnone
        · exact Or.inr (hsettled id (Or.inr hsome))
      obtain ⟨out', hrest, hout'⟩ := ih mid hmid'
      refine ⟨out', ?_, fun id hid => hout' id ?_⟩
      · rw [List.foldlM_cons, hok]
        exact hrest
      · rw [List.flatten_cons, List.mem_append] at hid
        rcases hid with (hwindow | hlater) | heq
        · exact Or.inr (hsettled id (Or.inl hwindow))
        · exact Or.inl hlater
        · exact Or.inr (hsettled id (Or.inr heq))

theorem Coherent.readersAgree (h : Coherent formatSignature store) : ReadersAgree formatSignature store := by
  intro planner hlawful ids modelSignature
  choose value hvalue using h.stored modelSignature
  obtain ⟨out, hok, hout⟩ := batch_windows hvalue hlawful (chunksOf maxEmbeddingBatch ids) (fun _ => none)
    fun _ => Or.inl rfl
  refine ⟨out, hok, fun id hid => ?_⟩
  rw [hout id (Or.inl (by rwa [flatten_chunksOf]))]
  exact (hvalue id).get hlawful

/-! ### Writing -/

/-- What a write that succeeds does. -/
theorem set_ok_iff : setSummaryEmbeddingForSignature w.summaryId w.modelSignature w.embedding store = .ok next ↔
    (w.embedding.length < 2 ^ 63 ∧ w.summaryId ∈ store.summaries) ∧
      { store with rows := upsert EmbeddingRow.key w.row store.rows } = next := by
  rw [setSummaryEmbeddingForSignature]
  by_cases hlength : 2 ^ 63 ≤ w.embedding.length
  · rw [if_pos hlength]
    exact ⟨fun h => (nomatch h), fun h => absurd h.1.1 (not_lt.mpr hlength)⟩
  rw [if_neg hlength]
  by_cases hsummary : w.summaryId ∈ store.summaries
  · rw [if_neg (not_not.mpr hsummary)]
    refine ⟨fun h => ⟨⟨not_le.mp hlength, hsummary⟩, Except.ok.inj h⟩, fun h => congrArg Except.ok h.2⟩
  · rw [if_pos hsummary]
    exact ⟨fun h => (nomatch h), fun h => absurd h.1.2 hsummary⟩

theorem write_of_ok (h : setSummaryEmbeddingForSignature w.summaryId w.modelSignature w.embedding store = .ok next) :
    store.write w = next := by
  rw [write, h]

/-- A write leaves the store as it was, or puts its row in. -/
theorem write_cases (store : EmbeddingStore) (w : EmbeddingWrite) : store.write w = store ∨
    setSummaryEmbeddingForSignature w.summaryId w.modelSignature w.embedding store = .ok (store.write w) := by
  cases hset : setSummaryEmbeddingForSignature w.summaryId w.modelSignature w.embedding store with
  | error error =>
      rw [write, hset]
      exact Or.inl rfl
  | ok next => exact Or.inr (congrArg _ (write_of_ok hset).symm)

theorem mem_rows_of_ok (hkeyed : (store.rows.map EmbeddingRow.key).Nodup)
    (h : setSummaryEmbeddingForSignature w.summaryId w.modelSignature w.embedding store = .ok next)
    (row : EmbeddingRow) : row ∈ next.rows ↔ row = w.row ∨ (row ∈ store.rows ∧ row.key ≠ w.row.key) := by
  obtain ⟨-, rfl⟩ := set_ok_iff.mp h
  exact mem_upsert_iff hkeyed

/-- Another row of the summary belongs to another signature. -/
theorem modelSignature_ne (hkey : row.key ≠ w.row.key) (hid : row.summaryId = w.summaryId) :
    row.modelSignature ≠ w.modelSignature :=
  fun heq => hkey (Prod.ext hid heq)

theorem Coherent.write_ok (h : Coherent formatSignature store) (hclear : Unambiguous formatSignature store w)
    (hok : setSummaryEmbeddingForSignature w.summaryId w.modelSignature w.embedding store = .ok next) :
    Coherent formatSignature next ∧
      Stored formatSignature next w.modelSignature w.summaryId (some w.embedding) := by
  obtain ⟨⟨hlength, hsummary⟩, hnext⟩ := set_ok_iff.mp hok
  obtain ⟨hanswers, hsame⟩ := hclear hsummary hlength
  have hmem := mem_rows_of_ok h.keyed hok
  have hother : ∀ row ∈ store.rows, row.key ≠ w.row.key → row.summaryId = w.summaryId → ∀ asked,
      Answers formatSignature asked row → asked = w.modelSignature ∨ Answers formatSignature asked w.row →
        row.vector = w.row.vector :=
    fun row hrow hkey hid => hsame row hrow hid (modelSignature_ne hkey hid)
  refine ⟨⟨?_, fun row hrow => ?_, fun row hrow other hrow' hid asked hasked hasked' => ?_⟩, ?_, ?_⟩
  · rw [← hnext]
    exact nodup_upsert h.keyed
  · rcases (hmem row).mp hrow with rfl | ⟨hold, -⟩
    · exact ⟨w.embedding, rfl, rfl⟩
    · exact h.packed row hold
  · rcases (hmem row).mp hrow with rfl | ⟨hold, hkey⟩
    · rcases (hmem other).mp hrow' with rfl | ⟨hold', hkey'⟩
      · rfl
      · exact (hother other hold' hkey' hid.symm asked hasked' (Or.inr hasked)).symm
    · rcases (hmem other).mp hrow' with rfl | ⟨hold', -⟩
      · exact hother row hold hkey hid asked hasked (Or.inr hasked')
      · exact h.agree row hold other hold' hid asked hasked hasked'
  · rcases hanswers with hself | ⟨row, hrow, hid, hasked⟩
    · exact ⟨w.row, (hmem w.row).mpr (Or.inl rfl), rfl, hself⟩
    · by_cases hkey : row.key = w.row.key
      · have hsignature : row.modelSignature = w.row.modelSignature := (Prod.mk.inj hkey).2
        refine ⟨w.row, (hmem w.row).mpr (Or.inl rfl), rfl, ?_⟩
        rwa [Answers, hsignature] at hasked
      · exact ⟨row, (hmem row).mpr (Or.inr ⟨hrow, hkey⟩), hid, hasked⟩
  · intro row hrow hid hasked
    rcases (hmem row).mp hrow with rfl | ⟨hold, hkey⟩
    · exact ⟨rfl, rfl⟩
    · obtain ⟨v, hvector, hdim⟩ := h.packed row hold
      have hpacked := hother row hold hkey hid w.modelSignature hasked (Or.inl rfl)
      obtain rfl := packEmbeddingBlob_inj (hvector.symm.trans hpacked)
      exact ⟨hvector, hdim⟩

theorem Coherent.write (h : Coherent formatSignature store) (hclear : Unambiguous formatSignature store w) :
    Coherent formatSignature (store.write w) ∧ ReadsBack formatSignature store w ∧
      ReadersAgree formatSignature (store.write w) := by
  have hnext : Coherent formatSignature (store.write w) := by
    rcases write_cases store w with hsame | hok
    · rw [hsame]
      exact h
    · exact (h.write_ok hclear hok).1
  refine ⟨hnext, fun next hok planner hlawful => ?_, hnext.readersAgree⟩
  exact (h.write_ok hclear hok).2.get hlawful

/-! ### An ambiguous write -/

/-- An order in which one row comes first in single reads, and another one last in batch reads. -/
def pick (first last : EmbeddingRow) : Planner where
  single := fun _ _ rows => rows.filter (· = first) ++ rows.filter (· ≠ first)
  batch := fun _ _ rows => rows.filter (· ≠ last) ++ rows.filter (· = last)

theorem pick_lawful (first last : EmbeddingRow) : (pick first last).Lawful where
  single := fun _ _ rows => by
    have hperm := List.filter_append_perm (fun row => decide (row = first)) rows
    simpa [pick] using hperm
  batch := fun _ _ rows => by
    have hperm := (List.perm_append_comm).trans (List.filter_append_perm (fun row => decide (row = last)) rows)
    simpa [pick] using hperm

/-- The copies of a row that is there: one is the first and one is the last of them. -/
theorem filter_eq_row {rows : List EmbeddingRow} (h : row ∈ rows) :
    ∃ copies, rows.filter (· = row) = row :: copies ∧ row :: copies = copies ++ [row] := by
  have hcount : 0 < rows.count row := List.count_pos_iff.mpr h
  obtain ⟨n, hn⟩ := Nat.exists_eq_succ_of_ne_zero hcount.ne'
  refine ⟨List.replicate n row, ?_, ?_⟩
  · have hcopies : rows.filter (· = row) = List.replicate (rows.count row) row := by
      rw [← List.filter_beq]
      exact List.filter_congr fun other _ => rfl
    rw [hcopies, hn]
    rfl
  · rw [← List.replicate_succ', List.replicate_succ]

theorem get_pick {first : EmbeddingRow} (last : EmbeddingRow) (hrow : first ∈ store.rows) (hanswers : Answers formatSignature asked first)
    (hvector : first.vector = packEmbeddingBlob v) (hdim : first.dim = v.length) :
    getSummaryEmbeddingForSignature formatSignature (pick first last) first.summaryId asked store = .ok (some v) := by
  have hmem : first ∈ matching [first.summaryId] (signatureVariants formatSignature asked) store.rows :=
    mem_matching.mpr ⟨hrow, List.mem_singleton_self _, hanswers⟩
  obtain ⟨copies, hcopies, -⟩ := filter_eq_row hmem
  rw [getSummaryEmbeddingForSignature, pick]
  dsimp only
  rw [hcopies]
  show Except.map some (decodeSignatureBlob first.vector first.dim _) = _
  rw [hvector, hdim, decodeSignatureBlob_pack]
  rfl

/-- The last row of a query stays in the map. -/
theorem insertRows_concat {rows : List EmbeddingRow} {out out' : String → Option (List F32)}
    (hvector : row.vector = packEmbeddingBlob v) (hdim : row.dim = v.length)
    (h : insertRows out (rows ++ [row]) = .ok out') : out' row.summaryId = some v := by
  induction rows generalizing out with
  | nil =>
      rw [List.nil_append, insertRows, hvector, hdim, decodeSignatureBlob_pack] at h
      rw [← Except.ok.inj h]
      exact Function.update_self _ _ _
  | cons other rows ih =>
      rw [List.cons_append, insertRows] at h
      cases hdecode : decodeSignatureBlob other.vector other.dim ("summary_id=" ++ other.summaryId) with
      | error error =>
          rw [hdecode] at h
          cases h
      | ok u =>
          rw [hdecode] at h
          exact ih h

theorem batch_pick {first last : EmbeddingRow} {out : String → Option (List F32)} (hrow : last ∈ store.rows)
    (hanswers : Answers formatSignature asked last) (hvector : last.vector = packEmbeddingBlob v)
    (hdim : last.dim = v.length)
    (h : getSummaryEmbeddingsForSignatureBatch formatSignature (pick first last) [last.summaryId] asked store =
      .ok out) : out last.summaryId = some v := by
  have hmem : last ∈ matching [last.summaryId] (signatureVariants formatSignature asked) store.rows :=
    mem_matching.mpr ⟨hrow, List.mem_singleton_self _, hanswers⟩
  obtain ⟨copies, hcopies, hcopies'⟩ := filter_eq_row hmem
  have hwindows : chunksOf maxEmbeddingBatch [last.summaryId] = [[last.summaryId]] := by
    simp [chunksOf]
  rw [getSummaryEmbeddingsForSignatureBatch, hwindows, List.foldlM_cons, pick] at h
  dsimp only at h
  rw [hcopies, hcopies', ← List.append_assoc] at h
  obtain ⟨mid, hmid, hlast⟩ := Fallible.bind_ok_iff.mp h
  rw [← Except.ok.inj hlast]
  exact insertRows_concat hvector hdim hmid

/-- A write that some question confuses with another row is not read back, or the readers part. -/
theorem Coherent.ambiguous (h : Coherent formatSignature store) (hbad : ¬Unambiguous formatSignature store w) :
    ¬(ReadsBack formatSignature store w ∧ ReadersAgree formatSignature (store.write w)) := by
  intro ⟨hreads, hagree⟩
  refine hbad fun hsummary hlength => ?_
  have hok := set_ok_iff.mpr ⟨⟨hlength, hsummary⟩, rfl⟩
  rw [write_of_ok hok] at hagree
  have hmem := mem_rows_of_ok h.keyed hok
  have hread := hreads _ hok
  refine ⟨?_, fun row hrow hid hne asked hasked hwhy => ?_⟩
  · -- otherwise nothing is found
    by_contra hnone
    have hempty : Stored formatSignature { store with rows := upsert EmbeddingRow.key w.row store.rows }
        w.modelSignature w.summaryId none := by
      intro row hrow hid hanswers
      refine hnone ?_
      rcases (hmem row).mp hrow with rfl | ⟨hold, -⟩
      · exact Or.inl hanswers
      · exact Or.inr ⟨row, hold, hid, hanswers⟩
    have hget := hempty.get (pick_lawful w.row w.row)
    rw [hread _ (pick_lawful w.row w.row)] at hget
    cases hget
  · have hkey : row.key ≠ w.row.key := fun heq => hne (Prod.mk.inj heq).2
    have hkept := (hmem row).mpr (Or.inr ⟨hrow, hkey⟩)
    obtain ⟨v, hvector, hdim⟩ := h.packed row hrow
    rcases hwhy with rfl | hasked'
    · have hget := get_pick row hkept hasked hvector hdim
      rw [hid, hread _ (pick_lawful row row)] at hget
      rw [hvector, Option.some.inj (Except.ok.inj hget)]
    · have hnew := (hmem w.row).mpr (Or.inl rfl)
      obtain ⟨out, hbatch, hsame⟩ := hagree (pick row w.row) (pick_lawful row w.row) [w.row.summaryId] asked
      have hlast := batch_pick hnew hasked' rfl rfl hbatch
      have hfirst := get_pick w.row hkept hasked hvector hdim
      rw [hid] at hfirst
      have hboth := Except.ok.inj (hfirst.symm.trans (hsame w.row.summaryId (List.mem_singleton_self _)))
      rw [hlast] at hboth
      rw [hvector, Option.some.inj hboth]

theorem coherent_empty (summaries : List String) : Coherent formatSignature ⟨summaries, []⟩ where
  keyed := List.nodup_nil
  packed := fun _ h => absurd h List.not_mem_nil
  agree := fun _ h => absurd h List.not_mem_nil

/-- Over every history of writes, each one is read back and the readers agree after it exactly when no write meets
another vector in the rows that some question finds together with its own. -/
theorem reads_run_iff (formatSignature : String → String → Nat → String) (summaries : List String)
    (writes : List EmbeddingWrite) :
    (writing summaries).AllSteps (fun store w => ReadsBack formatSignature store w ∧
        ReadersAgree formatSignature (store.write w)) writes ↔
      (writing summaries).AllSteps (Unambiguous formatSignature) writes := by
  have hany : (writing summaries).AllSteps (fun _ _ => True) writes := fun _ _ _ _ => trivial
  refine (writing summaries).allSteps_iff_of_guard (Coherent formatSignature) (coherent_empty summaries) ?_ ?_ hany
  · intro store w h _ hclear
    obtain ⟨hnext, hreads, hagree⟩ := h.write hclear
    exact ⟨hnext, hreads, hagree⟩
  · exact fun store w h _ hbad => h.ambiguous hbad

/-- The vector of a summary was written under the old spelling, and is now written under the canonical one. -/
def respelled : List EmbeddingWrite :=
  [⟨"summary-1", "embedding-v1@2", [0, 1]⟩, ⟨"summary-1", "provider=cloud;model=embedding-v1;dims=2", [2, 3]⟩]

/-- The row under the old spelling still answers for the canonical one. -/
theorem respelled_stale : ¬∀ formatSignature summaries writes, (writing summaries).AllSteps
    (fun store w => ReadsBack formatSignature store w ∧ ReadersAgree formatSignature (store.write w)) writes := by
  intro hall
  let old : EmbeddingRow := ⟨"summary-1", "embedding-v1@2", packEmbeddingBlob [0, 1], 2⟩
  let new : EmbeddingRow :=
    ⟨"summary-1", "provider=cloud;model=embedding-v1;dims=2", packEmbeddingBlob [2, 3], 2⟩
  have hreads := (hall canonicalSignature ["summary-1"] respelled (respelled.take 1) _ [] rfl).1
  have hnew := hreads ⟨["summary-1"], [old, new]⟩ (by decide +kernel) (pick old old) (pick_lawful old old)
  have hstore : old ∈ (⟨["summary-1"], [old, new]⟩ : EmbeddingStore).rows := List.mem_cons_self
  have hanswers : Answers canonicalSignature "provider=cloud;model=embedding-v1;dims=2" old := by
    unfold Answers
    decide +kernel
  have hold := get_pick old hstore hanswers (v := [0, 1]) rfl rfl
  have hboth := Option.some.inj (Except.ok.inj (hold.symm.trans hnew))
  exact absurd hboth (by decide)

end EmbeddingStore

end TinyCortex.SummaryTree
