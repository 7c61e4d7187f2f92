import TinyCortex.Queue.Types

/-! Which jobs share a dedupe key (`queue/payloads.rs`, `queue/types.rs`). A key starts with a tag of its kind, which has
no colon in it; behind the tag, an append and a document seal join texts that may hold the separator. -/

namespace TinyCortex.Queue

/-- A job as one of the public constructors is asked for it. -/
inductive JobRequest
  | extractChunk (p : ExtractChunkPayload)
  | appendBuffer (p : AppendBufferPayload)
  | seal (p : SealPayload)
  | flushStale (p : FlushStalePayload) (dateIso : String) (hourBlock : Nat)
  | reembedBackfill (p : ReembedBackfillPayload)
  | sealDocument (p : SealDocumentPayload)
  deriving DecidableEq

namespace JobRequest

def job : JobRequest → NewJob
  | .extractChunk p => .extractChunk p
  | .appendBuffer p => .appendBuffer p
  | .seal p => .seal p
  | .flushStale p dateIso hourBlock => .flushStale p dateIso hourBlock
  | .reembedBackfill p => .reembedBackfill p
  | .sealDocument p => .sealDocument p

def key : JobRequest → String
  | .extractChunk p => p.dedupeKey
  | .appendBuffer p => p.dedupeKey
  | .seal p => p.dedupeKey
  | .flushStale p dateIso hourBlock => p.dedupeKey dateIso hourBlock
  | .reembedBackfill p => p.dedupeKey
  | .sealDocument p => p.dedupeKey

theorem job_dedupeKey (request : JobRequest) : request.job.dedupeKey = some request.key := by
  cases request <;> rfl

/-- The work that a key stands for: the chunk, the node and its target, the tree and the level whenever it is sealed,
the three-hour block, the signature, the version of the document. -/
def SameWork : JobRequest → JobRequest → Prop
  | .extractChunk p, .extractChunk q => p = q
  | .appendBuffer p, .appendBuffer q => p = q
  | .seal p, .seal q => p.treeId = q.treeId ∧ p.level = q.level
  | .flushStale _ dateIso hourBlock, .flushStale _ dateIso' hourBlock' => dateIso = dateIso' ∧ hourBlock = hourBlock'
  | .reembedBackfill p, .reembedBackfill q => p = q
  | .sealDocument p, .sealDocument q => p.docId = q.docId ∧ p.versionMs = q.versionMs
  | _, _ => False

/-- The text of a key in front of its first colon. -/
def tag : JobRequest → List Char
  | .extractChunk _ => "extract".toList
  | .appendBuffer _ => "append".toList
  | .seal _ => "seal".toList
  | .flushStale _ _ _ => "flush_stale".toList
  | .reembedBackfill _ => "reembed_backfill".toList
  | .sealDocument _ => "seal_doc".toList

end JobRequest

def AppendTarget.tag : AppendTarget → List Char
  | .source _ => "source".toList
  | .topic _ => "topic".toList

def AppendTarget.id : AppendTarget → List Char
  | .source sourceId => sourceId.toList
  | .topic treeId => treeId.toList

/-- The target of the second is that of the first with the head of its node's id, and the rest of that id is the node of
the second. -/
def AppendBufferPayload.Nested (p q : AppendBufferPayload) : Prop :=
  p.target.tag = q.target.tag ∧ ∃ mid, q.target.id = p.target.id ++ ':' :: mid ∧
    p.node.dedupeFragment.toList = mid ++ ':' :: q.node.dedupeFragment.toList

/-- The id of the first, which has no version, is the id of the second with its version. -/
def SealDocumentPayload.Spells (p q : SealDocumentPayload) : Prop :=
  p.versionMs = none ∧ ∃ version, q.versionMs = some version ∧
    p.docId.toList = q.docId.toList ++ '@' :: (toString version).toList

/-- Two jobs whose keys can be read in two ways. -/
def JobRequest.Ambiguous : JobRequest → JobRequest → Prop
  | .appendBuffer p, .appendBuffer q => p.Nested q ∨ q.Nested p
  | .sealDocument p, .sealDocument q => p.Spells q ∨ q.Spells p
  | _, _ => False

/-! ### Keys, piece by piece -/

/-- What stands behind the tag of a key and its colon. -/
def JobRequest.body : JobRequest → List Char
  | .extractChunk p => p.chunkId.toList
  | .appendBuffer p => p.target.tag ++ ':' :: (p.target.id ++ ':' :: p.node.dedupeFragment.toList)
  | .seal p => p.treeId.toList ++ ':' :: Nat.toDigits 10 p.level
  | .flushStale _ dateIso hourBlock => dateIso.toList ++ '-' :: 'h' :: Nat.toDigits 10 hourBlock
  | .reembedBackfill p => p.signature.toList
  | .sealDocument p => match p.versionMs with
      | some version => p.docId.toList ++ '@' :: (toString version).toList
      | none => p.docId.toList

theorem toList_colon : ":".toList = [':'] := rfl

theorem JobRequest.toList_key (request : JobRequest) : request.key.toList = request.tag ++ ':' :: request.body := by
  match request with
  | .extractChunk p =>
      show ("extract:" ++ p.chunkId).toList = "extract".toList ++ ':' :: p.chunkId.toList
      rw [String.toList_append, List.append_cons]
      rfl
  | .appendBuffer ⟨node, .source sourceId⟩ =>
      show ("append:source:" ++ sourceId ++ ":" ++ node.dedupeFragment).toList =
        "append".toList ++ ':' :: ("source".toList ++ ':' :: (sourceId.toList ++ ':' :: node.dedupeFragment.toList))
      rw [String.toList_append, String.toList_append, String.toList_append, toList_colon, List.append_assoc,
        List.append_assoc]
      rfl
  | .appendBuffer ⟨node, .topic treeId⟩ =>
      show ("append:topic:" ++ treeId ++ ":" ++ node.dedupeFragment).toList =
        "append".toList ++ ':' :: ("topic".toList ++ ':' :: (treeId.toList ++ ':' :: node.dedupeFragment.toList))
      rw [String.toList_append, String.toList_append, String.toList_append, toList_colon, List.append_assoc,
        List.append_assoc]
      rfl
  | .seal p =>
      show ("seal:" ++ p.treeId ++ ":" ++ Nat.repr p.level).toList =
        "seal".toList ++ ':' :: (p.treeId.toList ++ ':' :: Nat.toDigits 10 p.level)
      rw [String.toList_append, String.toList_append, String.toList_append, Nat.toList_repr, toList_colon,
        List.append_assoc, List.append_assoc]
      rfl
  | .flushStale p dateIso hourBlock =>
      show ("flush_stale:" ++ dateIso ++ "-h" ++ Nat.repr hourBlock).toList =
        "flush_stale".toList ++ ':' :: (dateIso.toList ++ '-' :: 'h' :: Nat.toDigits 10 hourBlock)
      rw [String.toList_append, String.toList_append, String.toList_append, Nat.toList_repr, List.append_assoc,
        List.append_assoc]
      rfl
  | .reembedBackfill p =>
      show ("reembed_backfill:" ++ p.signature).toList = "reembed_backfill".toList ++ ':' :: p.signature.toList
      rw [String.toList_append, List.append_cons]
      rfl
  | .sealDocument ⟨treeScope, docId, none, chunkIds⟩ =>
      show ("seal_doc:" ++ docId).toList = "seal_doc".toList ++ ':' :: docId.toList
      rw [String.toList_append, List.append_cons]
      rfl
  | .sealDocument ⟨treeScope, docId, some version, chunkIds⟩ =>
      show ("seal_doc:" ++ docId ++ "@" ++ toString version).toList =
        "seal_doc".toList ++ ':' :: (docId.toList ++ '@' :: (toString version).toList)
      rw [String.toList_append, String.toList_append, String.toList_append, List.append_assoc, List.append_assoc]
      rfl

/-- A list splits in one way at its first separator. -/
theorem cut_inj {α : Type*} {sep : α} {front front' back back' : List α} (hfront : sep ∉ front) (hfront' : sep ∉ front')
    (h : front ++ sep :: back = front' ++ sep :: back') : front = front' ∧ back = back' := by
  have hreverse : back.reverse ++ sep :: front.reverse = back'.reverse ++ sep :: front'.reverse := by
    simpa using congrArg List.reverse h
  obtain ⟨hback, hends⟩ := append_cons_inj hreverse (by rwa [List.mem_reverse]) (by rwa [List.mem_reverse])
  exact ⟨List.reverse_injective hends, List.reverse_injective hback⟩

theorem JobRequest.colon_not_mem_tag (request : JobRequest) : ':' ∉ request.tag := by
  have hnone : ∀ tag ∈ ["extract", "append", "seal", "flush_stale", "reembed_backfill", "seal_doc"], ':' ∉ tag.toList := by
    decide
  match request with
  | .extractChunk _ => exact hnone _ (by decide)
  | .appendBuffer _ => exact hnone _ (by decide)
  | .seal _ => exact hnone _ (by decide)
  | .flushStale _ _ _ => exact hnone _ (by decide)
  | .reembedBackfill _ => exact hnone _ (by decide)
  | .sealDocument _ => exact hnone _ (by decide)

/-- Keys are equal when their tags and what stands behind them are. -/
theorem JobRequest.dedupeKey_eq_iff (a b : JobRequest) :
    a.job.dedupeKey = b.job.dedupeKey ↔ a.tag = b.tag ∧ a.body = b.body := by
  rw [job_dedupeKey, job_dedupeKey, Option.some.injEq, ← String.toList_inj, toList_key, toList_key]
  constructor
  · intro h
    exact cut_inj a.colon_not_mem_tag b.colon_not_mem_tag h
  · intro h
    rw [h.1, h.2]

/-! ### Work, piece by piece -/

theorem AppendTarget.eq_iff (a b : AppendTarget) : a = b ↔ a.tag = b.tag ∧ a.id = b.id := by
  match a, b with
  | .source s, .source t => simp [tag, id, String.toList_inj]
  | .topic s, .topic t => simp [tag, id, String.toList_inj]
  | .source s, .topic t => exact iff_of_false nofun fun h => absurd h.1 (by decide : "source".toList ≠ "topic".toList)
  | .topic s, .source t => exact iff_of_false nofun fun h => absurd h.1 (by decide : "topic".toList ≠ "source".toList)

theorem AppendTarget.colon_not_mem_tag (target : AppendTarget) : ':' ∉ target.tag := by
  cases target with
  | source _ => exact (by decide : ':' ∉ "source".toList)
  | topic _ => exact (by decide : ':' ∉ "topic".toList)

theorem NodeRef.dedupeFragment_inj {a b : NodeRef} (h : a.dedupeFragment = b.dedupeFragment) : a = b := by
  have hchars := congrArg String.toList h
  match a, b with
  | .leaf c, .leaf d =>
      rw [dedupeFragment, dedupeFragment, String.toList_append, String.toList_append] at hchars
      rw [String.toList_inj.mp (List.append_cancel_left hchars)]
  | .summary c, .summary d =>
      rw [dedupeFragment, dedupeFragment, String.toList_append, String.toList_append] at hchars
      rw [String.toList_inj.mp (List.append_cancel_left hchars)]
  | .leaf c, .summary d =>
      rw [dedupeFragment, dedupeFragment, String.toList_append, String.toList_append] at hchars
      exact absurd (List.cons.inj hchars).1 (by decide : 'l' ≠ 's')
  | .summary c, .leaf d =>
      rw [dedupeFragment, dedupeFragment, String.toList_append, String.toList_append] at hchars
      exact absurd (List.cons.inj hchars).1 (by decide : 's' ≠ 'l')

/-- Two lists joined by a separator are the same two lists, or one of the fronts goes on into the back of the other. -/
theorem cut_or_nested {α : Type*} {sep : α} {front front' back back' : List α}
    (h : front ++ sep :: back = front' ++ sep :: back') :
    (front = front' ∧ back = back') ∨ (∃ mid, front' = front ++ sep :: mid ∧ back = mid ++ sep :: back') ∨
      ∃ mid, front = front' ++ sep :: mid ∧ back' = mid ++ sep :: back := by
  rcases List.append_eq_append_iff.mp h with ⟨mid, rfl, hmid⟩ | ⟨mid, rfl, hmid⟩
  · cases mid with
    | nil => exact Or.inl ⟨(List.append_nil _).symm, (List.cons.inj hmid).2⟩
    | cons c mid =>
        obtain ⟨rfl, hback⟩ := List.cons.inj hmid
        exact Or.inr (Or.inl ⟨mid, rfl, hback⟩)
  · cases mid with
    | nil => exact Or.inl ⟨List.append_nil _, (List.cons.inj hmid).2.symm⟩
    | cons c mid =>
        obtain ⟨rfl, hback⟩ := List.cons.inj hmid
        exact Or.inr (Or.inr ⟨mid, rfl, hback⟩)

theorem AppendBufferPayload.body_inj {p q : AppendBufferPayload} (hclear : ¬(p.Nested q ∨ q.Nested p))
    (h : (JobRequest.appendBuffer p).body = (JobRequest.appendBuffer q).body) : p = q := by
  obtain ⟨node, target⟩ := p
  obtain ⟨node', target'⟩ := q
  obtain ⟨htag, hrest⟩ := cut_inj target.colon_not_mem_tag target'.colon_not_mem_tag h
  rcases cut_or_nested hrest with ⟨hid, hnode⟩ | ⟨mid, hid, hnode⟩ | ⟨mid, hid, hnode⟩
  · obtain rfl : target = target' := (AppendTarget.eq_iff target target').mpr ⟨htag, hid⟩
    obtain rfl : node = node' := NodeRef.dedupeFragment_inj (String.toList_inj.mp hnode)
    rfl
  · exact absurd (Or.inl ⟨htag, mid, hid, hnode⟩) hclear
  · exact absurd (Or.inr ⟨htag.symm, mid, hid, hnode⟩) hclear

theorem at_not_mem_toString (version : Int) : '@' ∉ (toString version).toList := by
  intro hmem
  rcases Decimal.isDigit_of_mem hmem with h | h
  · exact absurd h (by decide)
  · exact absurd h (by decide)

theorem SealDocumentPayload.body_inj {p q : SealDocumentPayload} (hclear : ¬(p.Spells q ∨ q.Spells p))
    (h : (JobRequest.sealDocument p).body = (JobRequest.sealDocument q).body) :
    p.docId = q.docId ∧ p.versionMs = q.versionMs := by
  obtain ⟨scope, docId, versionMs, chunkIds⟩ := p
  obtain ⟨scope', docId', versionMs', chunkIds'⟩ := q
  cases versionMs with
  | none =>
      cases versionMs' with
      | none => exact ⟨String.toList_inj.mp h, rfl⟩
      | some version' => exact absurd (Or.inl ⟨rfl, version', rfl, h⟩) hclear
  | some version =>
      cases versionMs' with
      | none => exact absurd (Or.inr ⟨rfl, version, rfl, h.symm⟩) hclear
      | some version' =>
          obtain ⟨hdoc, hversion⟩ := append_cons_inj h (at_not_mem_toString _) (at_not_mem_toString _)
          exact ⟨String.toList_inj.mp hdoc, congrArg some (Decimal.toString_inj (String.toList_inj.mp hversion))⟩

theorem SealPayload.body_inj {p q : SealPayload} (h : (JobRequest.seal p).body = (JobRequest.seal q).body) :
    p.treeId = q.treeId ∧ p.level = q.level := by
  have hcolon : ∀ n, ':' ∉ Nat.toDigits 10 n := Decimal.not_mem_toDigits (by decide)
  obtain ⟨htree, hlevel⟩ := append_cons_inj h (hcolon _) (hcolon _)
  exact ⟨String.toList_inj.mp htree, Decimal.toDigits_inj hlevel⟩

theorem FlushStalePayload.body_inj {p q : FlushStalePayload} {dateIso dateIso' : String} {hourBlock hourBlock' : Nat}
    (h : (JobRequest.flushStale p dateIso hourBlock).body = (JobRequest.flushStale q dateIso' hourBlock').body) :
    dateIso = dateIso' ∧ hourBlock = hourBlock' := by
  have hletter : ∀ n, 'h' ∉ Nat.toDigits 10 n := Decimal.not_mem_toDigits (by decide)
  have hdash : (dateIso.toList ++ ['-']) ++ 'h' :: Nat.toDigits 10 hourBlock =
      (dateIso'.toList ++ ['-']) ++ 'h' :: Nat.toDigits 10 hourBlock' := by
    rw [← List.append_cons, ← List.append_cons]
    exact h
  obtain ⟨hdate, hblock⟩ := append_cons_inj hdash (hletter _) (hletter _)
  exact ⟨String.toList_inj.mp (List.append_cancel_right hdate), Decimal.toDigits_inj hblock⟩

/-- Keys of different kinds differ in their tags. -/
theorem JobRequest.kind_of_tag {a b : JobRequest} (h : a.tag = b.tag) : a.job.kind = b.job.kind := by
  cases a <;> cases b <;> first | rfl | exact absurd (String.toList_inj.mp h) (by decide)

theorem JobRequest.SameWork.kind {a b : JobRequest} (h : a.SameWork b) : a.job.kind = b.job.kind := by
  cases a <;> cases b <;> first | rfl | exact h.elim

theorem JobRequest.SameWork.key_eq {a b : JobRequest} (h : a.SameWork b) : a.tag = b.tag ∧ a.body = b.body := by
  match a, b, h with
  | .extractChunk p, .extractChunk q, h => exact ⟨rfl, by rw [show p = q from h]⟩
  | .appendBuffer p, .appendBuffer q, h => exact ⟨rfl, by rw [show p = q from h]⟩
  | .seal p, .seal q, h =>
      refine ⟨rfl, ?_⟩
      rw [body, body, h.1, h.2]
  | .flushStale p dateIso hourBlock, .flushStale q dateIso' hourBlock', h =>
      refine ⟨rfl, ?_⟩
      rw [body, body, h.1, h.2]
  | .reembedBackfill p, .reembedBackfill q, h => exact ⟨rfl, by rw [show p = q from h]⟩
  | .sealDocument p, .sealDocument q, h =>
      refine ⟨rfl, ?_⟩
      rw [body, body, h.1, h.2]

/-- Apart from keys that can be read in two ways, jobs share a key exactly when they are of one kind and stand for the
same work. -/
theorem dedupeKey_iff_sameWork {a b : JobRequest} (hclear : ¬a.Ambiguous b) :
    (a.job.dedupeKey = b.job.dedupeKey ↔ a.SameWork b) ∧
      (a.job.dedupeKey = b.job.dedupeKey → a.job.kind = b.job.kind) := by
  have hsame : a.job.dedupeKey = b.job.dedupeKey → a.SameWork b := by
    rw [JobRequest.dedupeKey_eq_iff]
    intro h
    have hkind := JobRequest.kind_of_tag h.1
    match a, b, hclear, h.2, hkind with
    | .extractChunk p, .extractChunk q, _, hbody, _ =>
        obtain ⟨chunkId⟩ := p
        obtain ⟨chunkId'⟩ := q
        exact congrArg ExtractChunkPayload.mk (String.toList_inj.mp hbody)
    | .appendBuffer p, .appendBuffer q, hclear, hbody, _ => exact AppendBufferPayload.body_inj hclear hbody
    | .seal p, .seal q, _, hbody, _ => exact SealPayload.body_inj hbody
    | .flushStale p _ _, .flushStale q _ _, _, hbody, _ => exact FlushStalePayload.body_inj hbody
    | .reembedBackfill p, .reembedBackfill q, _, hbody, _ =>
        obtain ⟨signature⟩ := p
        obtain ⟨signature'⟩ := q
        exact congrArg ReembedBackfillPayload.mk (String.toList_inj.mp hbody)
    | .sealDocument p, .sealDocument q, hclear, hbody, _ => exact SealDocumentPayload.body_inj hclear hbody
  refine ⟨⟨hsame, fun h => ?_⟩, fun h => (hsame h).kind⟩
  rw [JobRequest.dedupeKey_eq_iff]
  exact h.key_eq

theorem dedupeKey_iff_sameWork_forced :
    (JobRequest.seal ⟨"tree-1", 0, none⟩).job.dedupeKey = (JobRequest.seal ⟨"tree-1", 0, some 7⟩).job.dedupeKey :=
  (dedupeKey_iff_sameWork (show ¬JobRequest.Ambiguous (.seal ⟨"tree-1", 0, none⟩) (.seal ⟨"tree-1", 0, some 7⟩) from
    id)).1.mpr ⟨rfl, rfl⟩

/-- The payload without the clock of a flush. -/
def JobPayload.timeless : JobPayload → JobPayload
  | .seal p => .seal { p with forceNowMs := none }
  | payload => payload

/-- Two seals of one document version share a key, whatever their tree scopes and chunks are. -/
theorem not_sameWork_scopes : ¬∀ a b : JobRequest, a.job.dedupeKey = b.job.dedupeKey →
    a.job.kind = b.job.kind ∧ a.job.payload.timeless = b.job.payload.timeless := by
  intro h
  have hsame := (h (.sealDocument ⟨"notion:conn1", "pageA", none, ["c0"]⟩)
    (.sealDocument ⟨"notion:conn2", "pageA", none, ["c1"]⟩) rfl).2
  exact absurd hsame (by decide)

end TinyCortex.Queue
