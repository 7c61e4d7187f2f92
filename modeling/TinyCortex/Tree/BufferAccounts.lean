import TinyCortex.Lib.Machine
import TinyCortex.Tree.Sealable

/-! The accounts of the buffers: every buffer row keeps the token sum and the oldest time of its items step by step
(`tree/bucket_seal.rs`, `tree/document_seal.rs`, `tree/direct_ingest.rs`, `tree/store/buffers.rs`). SQLite refuses a row
whose list of ids is too long, which keeps the sums far below the largest integer. -/

namespace TinyCortex.SummaryTree

open Table

/-- `SQLITE_MAX_LENGTH`: the most bytes, and so the most ids, in one text. -/
def sqliteMaxLength : Nat := 1000000000

/-- The database, and the buffers that seals have read. -/
structure Accounts where
  db : Db
  snapshots : List Buffer

inductive BufferOp
  /-- `append_to_buffer`, for a leaf or for the root of a document. -/
  | append (treeId : String) (level : Nat) (itemId : String) (tokenDelta itemTs : Int)
  /-- A seal reads its snapshot. -/
  | read (treeId : String) (level : Nat)
  /-- The commit of a seal, with whatever it hydrated. -/
  | commit (i : Nat) (inputs : List SummaryInput) (summaryId : String) (tokenCount : Nat) (nowMs : Int)
      (enqueueFollowUps : Bool)
  | ingestSummary (input : SummaryIngest) (summaryId : String) (nowMs : Int)

/-- A transaction is rolled back when it fails or when a row gets too long. -/
def Accounts.write (stores : List String → Bool) (accounts : Accounts) : Except TreeError Db → Accounts
  | .ok db => if db.buffers.all fun buf => stores buf.itemIds then { accounts with db := db } else accounts
  | .error _ => accounts

def Accounts.step (config : TreeConfig) (stores : List String → Bool) (accounts : Accounts) : BufferOp → Accounts
  | .append treeId level itemId tokenDelta itemTs =>
      accounts.write stores (appendToBuffer treeId level itemId tokenDelta itemTs accounts.db)
  | .read treeId level => { accounts with snapshots := accounts.snapshots ++ [accounts.db.getBuffer treeId level] }
  | .commit i inputs summaryId tokenCount nowMs enqueueFollowUps =>
      match accounts.snapshots[i]? with
      | none => accounts
      | some snapshot =>
          accounts.write stores ((commitSeal config snapshot (sealedNode snapshot inputs summaryId tokenCount nowMs) nowMs
            enqueueFollowUps accounts.db).map Prod.fst)
  | .ingestSummary input summaryId nowMs =>
      accounts.write stores (SummaryTree.ingestSummary input summaryId nowMs accounts.db)

/-- Runs from trees with empty buffers. -/
def accounting (config : TreeConfig) (stores : List String → Bool) (db : Db) : Machine Accounts BufferOp where
  start := ⟨{ db with buffers := [] }, []⟩
  step := Accounts.step config stores

/-- An id stands for one row, with its token count and its start, and a seal mints an id that no buffer of its tree
has. -/
def Faithful (tokensOf : String → UInt32) (startOf : String → Int) (accounts : Accounts) : BufferOp → Prop
  | .append _ _ itemId tokenDelta itemTs => tokenDelta = (tokensOf itemId).toNat ∧ itemTs = startOf itemId
  | .read _ _ => True
  | .commit i inputs summaryId tokenCount nowMs _ => ∀ snapshot ∈ accounts.snapshots[i]?,
      tokenCount = (tokensOf summaryId).toNat ∧
        (sealedNode snapshot inputs summaryId tokenCount nowMs).timeRangeStartMs = startOf summaryId ∧
        summaryId ∉ accounts.db.buffered snapshot.treeId (snapshot.level + 1)
  | .ingestSummary input summaryId _ =>
      input.tokenCount = (tokensOf summaryId).toNat ∧ input.timeRangeStartMs = startOf summaryId

variable {tokensOf : String → UInt32} {startOf : String → Int}

/-- The row of a buffer is right about its items. -/
structure Buffer.Accounted (tokensOf : String → UInt32) (startOf : String → Int) (buf : Buffer) : Prop where
  distinct : buf.itemIds.Nodup
  tokens : buf.tokenSum = tokenTotal (fun id => (tokensOf id).toNat) buf.itemIds
  dated : buf.oldestAtMs = none ↔ buf.itemIds = []
  oldest : ∀ oldestMs ∈ buf.oldestAtMs, ∀ id ∈ buf.itemIds, oldestMs ≤ startOf id

theorem Buffer.accounted_empty (treeId : String) (level : Nat) :
    (Buffer.empty treeId level).Accounted tokensOf startOf where
  distinct := List.nodup_nil
  tokens := rfl
  dated := iff_of_true rfl rfl
  oldest := nofun

theorem tokenTotal_le (tokensOf : String → UInt32) (ids : List String) :
    tokenTotal (fun id => (tokensOf id).toNat) ids ≤ ids.length * 4294967295 := by
  induction ids with
  | nil => simp [tokenTotal]
  | cons id ids ih =>
      have hlt := (tokensOf id).toNat_lt
      simp only [tokenTotal, List.map_cons, List.sum_cons, List.length_cons] at ih ⊢
      omega

/-- The row of a buffer that an item was pushed to. -/
def Buffer.push (buf : Buffer) (itemId : String) (tokens start : Int) : Buffer :=
  { buf with
    itemIds := buf.itemIds ++ [itemId]
    tokenSum := I64.saturatingAdd buf.tokenSum tokens
    oldestAtMs := some (match buf.oldestAtMs with
      | some existing => min existing start
      | none => start) }

theorem Buffer.Accounted.push {buf : Buffer} (h : buf.Accounted tokensOf startOf)
    (hshort : buf.itemIds.length ≤ sqliteMaxLength) {itemId : String} (hnew : itemId ∉ buf.itemIds) :
    (buf.push itemId (tokensOf itemId).toNat (startOf itemId)).Accounted tokensOf startOf where
  distinct := by
    rw [Buffer.push, List.nodup_append]
    refine ⟨h.distinct, List.nodup_singleton _, fun id hid other hother heq => hnew ?_⟩
    rw [← List.mem_singleton.mp hother, ← heq]
    exact hid
  tokens := by
    have hle := tokenTotal_le tokensOf buf.itemIds
    have hnonneg := tokenTotal_nonneg (fun id => (tokensOf id).toNat) buf.itemIds
    have hlt := (tokensOf itemId).toNat_lt
    have hlast : tokenTotal (fun id => (tokensOf id).toNat) [itemId] = (tokensOf itemId).toNat := by
      simp [tokenTotal]
    rw [sqliteMaxLength] at hshort
    rw [Buffer.push, tokenTotal_append, hlast]
    dsimp only
    rw [h.tokens, I64.saturatingAdd, I64.saturate_eq]
    · rw [I64.minValue]
      omega
    · rw [I64.maxValue]
      omega
  dated := iff_of_false nofun (List.append_ne_nil_of_right_ne_nil _ (List.cons_ne_nil _ _))
  oldest oldestMs holdest id hid := by
    rw [Buffer.push, Option.mem_some_iff] at holdest
    rw [← holdest]
    cases hbefore : buf.oldestAtMs with
    | none =>
        rw [Buffer.push, h.dated.mp hbefore, List.nil_append, List.mem_singleton] at hid
        rw [hid]
    | some existing =>
        dsimp only
        rcases List.mem_append.mp hid with hold | hlast
        · exact (min_le_left _ _).trans (h.oldest existing (hbefore ▸ rfl) id hold)
        · rw [List.mem_singleton.mp hlast]
          exact min_le_right _ _

/-- The row of a buffer whose first items were consumed. -/
def Buffer.consume (snapshot buf : Buffer) : Buffer :=
  let rest := buf.itemIds.drop snapshot.itemIds.length
  let left := { buf with itemIds := rest, tokenSum := max (I64.saturatingSub buf.tokenSum snapshot.tokenSum) 0 }
  if rest = [] then { left with oldestAtMs := none, tokenSum := 0 } else left

theorem Buffer.Accounted.consume {snapshot buf : Buffer} (hsnapshot : snapshot.Accounted tokensOf startOf)
    (h : buf.Accounted tokensOf startOf) (hshort : buf.itemIds.length ≤ sqliteMaxLength)
    (hprefixed : snapshot.itemIds <+: buf.itemIds) : (Buffer.consume snapshot buf).Accounted tokensOf startOf := by
  obtain ⟨rest, hrest⟩ := hprefixed
  have hdrop : buf.itemIds.drop snapshot.itemIds.length = rest := by rw [← hrest, List.drop_left]
  have hdistinct := h.distinct
  rw [← hrest] at hdistinct
  rw [Buffer.consume]
  dsimp only
  rw [hdrop]
  by_cases hnil : rest = []
  · rw [if_pos hnil, hnil]
    exact ⟨List.nodup_nil, rfl, iff_of_true rfl rfl, nofun⟩
  · rw [if_neg hnil]
    refine ⟨(List.nodup_append.mp hdistinct).2.1, ?_, iff_of_false (fun hnone => hnil ?_) hnil, ?_⟩
    · have hle := tokenTotal_le tokensOf buf.itemIds
      have hnonneg := tokenTotal_nonneg (fun id => (tokensOf id).toNat) rest
      have hnonneg' := tokenTotal_nonneg (fun id => (tokensOf id).toNat) snapshot.itemIds
      have htotal : tokenTotal (fun id => (tokensOf id).toNat) buf.itemIds =
          tokenTotal (fun id => (tokensOf id).toNat) snapshot.itemIds +
            tokenTotal (fun id => (tokensOf id).toNat) rest := by
        rw [← hrest, tokenTotal_append]
      rw [sqliteMaxLength] at hshort
      dsimp only
      rw [h.tokens, hsnapshot.tokens, htotal, I64.saturatingSub, I64.saturate_eq]
      · omega
      · rw [I64.minValue]
        omega
      · rw [I64.maxValue]
        omega
    · have hall := h.dated.mp hnone
      rw [← hrest] at hall
      exact (List.append_eq_nil_iff.mp hall).2
    · intro oldestMs holdest id hid
      refine h.oldest oldestMs holdest id ?_
      rw [← hrest]
      exact List.mem_append_right _ hid

/-! ### Transactions -/

/-- All buffers are right about their items, and short enough for their sums. -/
structure Db.Accounted (tokensOf : String → UInt32) (startOf : String → Int) (db : Db) : Prop where
  right : ∀ treeId level, (db.getBuffer treeId level).Accounted tokensOf startOf
  short : ∀ treeId level, (db.buffered treeId level).length ≤ sqliteMaxLength

theorem Db.Accounted.congr {db next : Db} (h : db.Accounted tokensOf startOf) (hbuffers : next.buffers = db.buffers) :
    next.Accounted tokensOf startOf where
  right treeId level := by
    rw [Db.getBuffer_congr hbuffers]
    exact h.right treeId level
  short treeId level := by
    rw [Db.buffered, Db.getBuffer_congr hbuffers]
    exact h.short treeId level

theorem right_upsertBuffer {db : Db} (h : ∀ treeId level, (db.getBuffer treeId level).Accounted tokensOf startOf)
    {buf : Buffer} (hbuf : buf.Accounted tokensOf startOf) (treeId : String) (level : Nat) :
    ((db.upsertBuffer buf).getBuffer treeId level).Accounted tokensOf startOf := by
  by_cases hkey : buf.key = (treeId, level)
  · rw [Db.getBuffer_upsertBuffer_self hkey]
    exact hbuf
  · rw [Db.getBuffer_upsertBuffer_of_ne hkey]
    exact h treeId level

theorem right_appendToBuffer {db next : Db} (h : db.Accounted tokensOf startOf) {treeId itemId : String} {level : Nat}
    (happend : appendToBuffer treeId level itemId (tokensOf itemId).toNat (startOf itemId) db = .ok next)
    (treeId' : String) (level' : Nat) : (next.getBuffer treeId' level').Accounted tokensOf startOf := by
  obtain ⟨tree, -, hnext⟩ := Fallible.bind_ok_iff.mp happend
  dsimp only at hnext
  split_ifs at hnext with hmem
  · rw [← Except.ok.inj hnext]
    exact h.right treeId' level'
  · rw [← Except.ok.inj hnext]
    exact right_upsertBuffer h.right ((h.right treeId level).push (h.short treeId level) hmem) treeId' level'

theorem right_pushParent {db : Db} (h : db.Accounted tokensOf startOf) {node : SummaryNode}
    (htokens : node.tokenCount = (tokensOf node.id).toNat) (hstart : node.timeRangeStartMs = startOf node.id)
    (hnew : node.id ∉ db.buffered node.treeId node.level) (treeId : String) (level : Nat) :
    ((pushParent node db).getBuffer treeId level).Accounted tokensOf startOf := by
  have hpush := (h.right node.treeId node.level).push (h.short node.treeId node.level) hnew
  rw [← htokens, ← hstart] at hpush
  exact right_upsertBuffer h.right hpush treeId level

theorem consumeSnapshot_eq {db next : Db} {snapshot : Buffer} (h : db.consumeSnapshot snapshot = .ok next) :
    snapshot.itemIds <+: db.buffered snapshot.treeId snapshot.level ∧
      next = db.upsertBuffer (Buffer.consume snapshot (db.getBuffer snapshot.treeId snapshot.level)) := by
  unfold Db.consumeSnapshot at h
  dsimp only at h
  split_ifs at h with hprefixed hrest
  · refine ⟨List.isPrefixOf_iff_prefix.mp hprefixed, ?_⟩
    rw [← Except.ok.inj h, Buffer.consume, if_pos hrest]
  · refine ⟨List.isPrefixOf_iff_prefix.mp hprefixed, ?_⟩
    rw [← Except.ok.inj h, Buffer.consume, if_neg hrest]

theorem Buffer.consume_itemIds (snapshot buf : Buffer) :
    (Buffer.consume snapshot buf).itemIds = buf.itemIds.drop snapshot.itemIds.length := by
  rw [Buffer.consume]
  dsimp only
  split_ifs <;> rfl

theorem Buffer.consume_key (snapshot buf : Buffer) : (Buffer.consume snapshot buf).key = buf.key := by
  rw [Buffer.consume]
  dsimp only
  split_ifs <;> rfl

theorem Db.Accounted.consumeSnapshot {db next : Db} (h : db.Accounted tokensOf startOf) {snapshot : Buffer}
    (hsnapshot : snapshot.Accounted tokensOf startOf) (hconsume : db.consumeSnapshot snapshot = .ok next) :
    next.Accounted tokensOf startOf := by
  obtain ⟨hprefixed, rfl⟩ := consumeSnapshot_eq hconsume
  refine ⟨right_upsertBuffer h.right (hsnapshot.consume (h.right _ _) (h.short _ _) hprefixed), fun treeId level => ?_⟩
  rw [Db.buffered_upsertBuffer ((Buffer.consume_key _ _).trans Db.getBuffer_key)]
  split_ifs
  · rw [Buffer.consume_itemIds, List.length_drop]
    exact (Nat.sub_le _ _).trans (h.short _ _)
  · exact h.short treeId level

theorem right_commitSeal {config : TreeConfig} {db next : Db} (h : db.Accounted tokensOf startOf) {snapshot : Buffer}
    (hsnapshot : snapshot.Accounted tokensOf startOf) {node : SummaryNode} {nowMs : Int} {enqueueFollowUps : Bool}
    {followUp : Option Queue.SealPayload} (hlevel : node.level = snapshot.level + 1)
    (htokens : node.tokenCount = (tokensOf node.id).toNat) (hstart : node.timeRangeStartMs = startOf node.id)
    (hnew : node.id ∉ db.buffered node.treeId node.level)
    (hcommit : commitSeal config snapshot node nowMs enqueueFollowUps db = .ok (next, followUp)) (treeId : String)
    (level : Nat) : (next.getBuffer treeId level).Accounted tokensOf startOf := by
  obtain ⟨tree, -, hcommit⟩ := Fallible.bind_ok_iff.mp hcommit
  obtain ⟨consumed, hconsumed, hcommit⟩ := Fallible.bind_ok_iff.mp hcommit
  obtain ⟨rfl, -⟩ := Prod.mk.inj (Except.ok.inj hcommit)
  obtain ⟨hinserted, -, -⟩ := insertSealed_frame snapshot.level node db
  have haccounted := (h.congr hinserted).consumeSnapshot hsnapshot hconsumed
  have hstill : consumed.buffered node.treeId node.level = db.buffered node.treeId node.level := by
    obtain ⟨_, rfl⟩ := consumeSnapshot_eq hconsumed
    rw [Db.buffered_upsertBuffer ((Buffer.consume_key _ _).trans Db.getBuffer_key), if_neg (by omega), Db.buffered,
      Db.getBuffer_congr hinserted, Db.buffered]
  rw [Db.getBuffer_congr (raiseHeader_frame _ _ _ _).1]
  exact right_pushParent haccounted htokens hstart (by rwa [hstill]) treeId level

theorem right_ingestSummary {db next : Db} (h : db.Accounted tokensOf startOf) {input : SummaryIngest} {summaryId : String}
    {nowMs : Int} (htokens : input.tokenCount = (tokensOf summaryId).toNat)
    (hstart : input.timeRangeStartMs = startOf summaryId)
    (hingest : ingestSummary input summaryId nowMs db = .ok next) (treeId : String) (level : Nat) :
    (next.getBuffer treeId level).Accounted tokensOf startOf := by
  have hinserted : (db.insertSummary (ingestedNode input summaryId nowMs)).Accounted tokensOf startOf := h.congr rfl
  rw [ingestSummary] at hingest
  cases htree : db.getTree input.treeId with
  | none =>
      rw [htree] at hingest
      cases hingest
  | some tree =>
      rw [htree] at hingest
      dsimp only at hingest
      have hpushed : ∀ treeId level, ((if summaryId ∈ (db.insertSummary (ingestedNode input summaryId nowMs)).buffered
            input.treeId 1 then db.insertSummary (ingestedNode input summaryId nowMs)
          else pushParent (ingestedNode input summaryId nowMs)
            (db.insertSummary (ingestedNode input summaryId nowMs))).getBuffer treeId level).Accounted tokensOf startOf := by
        intro treeId level
        split_ifs with hmem
        · exact hinserted.right treeId level
        · exact right_pushParent hinserted htokens hstart hmem treeId level
      rw [← Except.ok.inj hingest]
      split_ifs at hpushed ⊢
      · exact hpushed treeId level
      · exact hpushed treeId level
      · exact hpushed treeId level
      · exact hpushed treeId level

/-! ### Runs -/

structure Accounts.Right (tokensOf : String → UInt32) (startOf : String → Int) (accounts : Accounts) : Prop where
  db : accounts.db.Accounted tokensOf startOf
  snapshots : ∀ snapshot ∈ accounts.snapshots, snapshot.Accounted tokensOf startOf

variable {stores : List String → Bool} {accounts : Accounts}

theorem Accounts.Right.write (hstores : ∀ ids, stores ids = true → ids.length ≤ sqliteMaxLength)
    (h : accounts.Right tokensOf startOf) {result : Except TreeError Db}
    (hright : ∀ next, result = .ok next → ∀ treeId level, (next.getBuffer treeId level).Accounted tokensOf startOf) :
    (accounts.write stores result).Right tokensOf startOf := by
  cases result with
  | error e => exact h
  | ok next =>
      rw [Accounts.write]
      split_ifs with hstored
      · refine ⟨⟨hright next rfl, fun treeId level => ?_⟩, h.snapshots⟩
        rw [Db.buffered, Db.getBuffer]
        cases hrow : lookup Buffer.key (treeId, level) next.buffers with
        | none => exact Nat.zero_le _
        | some buf => exact hstores _ (List.all_eq_true.mp hstored buf (lookup_mem hrow).1)
      · exact h

/-- Every operation keeps the accounts right. -/
theorem Accounts.Right.step (config : TreeConfig) (hstores : ∀ ids, stores ids = true → ids.length ≤ sqliteMaxLength)
    (h : accounts.Right tokensOf startOf) {op : BufferOp} (hop : Faithful tokensOf startOf accounts op) :
    (accounts.step config stores op).Right tokensOf startOf := by
  match op, hop with
  | .append treeId level itemId tokenDelta itemTs, hop =>
      obtain ⟨rfl, rfl⟩ := hop
      exact h.write hstores fun next hnext => right_appendToBuffer h.db hnext
  | .read treeId level, _ =>
      refine ⟨h.db, fun snapshot hsnapshot => ?_⟩
      rcases List.mem_append.mp hsnapshot with hold | hnew
      · exact h.snapshots snapshot hold
      · rw [List.mem_singleton.mp hnew]
        exact h.db.right treeId level
  | .commit i inputs summaryId tokenCount nowMs enqueueFollowUps, hop =>
      rw [Accounts.step]
      cases hsnapshot : accounts.snapshots[i]? with
      | none => exact h
      | some snapshot =>
          obtain ⟨htokens, hstart, hnew⟩ := hop snapshot hsnapshot
          refine h.write hstores fun next hnext => ?_
          obtain ⟨⟨db, followUp⟩, hcommit, rfl⟩ := Fallible.map_ok_iff.mp hnext
          exact right_commitSeal h.db (h.snapshots snapshot (List.mem_of_getElem? hsnapshot)) rfl htokens hstart hnew
            hcommit
  | .ingestSummary input summaryId nowMs, hop =>
      exact h.write hstores fun next hnext => right_ingestSummary h.db hop.1 hop.2 hnext

/-- In every state of every run of appends, seals, direct ingests and document roots, each buffer holds distinct ids,
the sum of their tokens, and a time that is there exactly if an id is and later than none of theirs. -/
theorem buffers_accounted (config : TreeConfig) (hstores : ∀ ids, stores ids = true → ids.length ≤ sqliteMaxLength)
    (db : Db) {ops : List BufferOp}
    (hops : (accounting config stores db).AllSteps (Faithful tokensOf startOf) ops) :
    (accounting config stores db).Throughout
      (fun accounts => ∀ treeId level, (accounts.db.getBuffer treeId level).Accounted tokensOf startOf) ops := by
  have hstart : (accounting config stores db).start.Right tokensOf startOf :=
    ⟨⟨fun treeId level => Buffer.accounted_empty treeId level, fun _ _ => Nat.zero_le _⟩, nofun⟩
  have hstep : ∀ accounts op, Accounts.Right tokensOf startOf accounts → Faithful tokensOf startOf accounts op →
      ((accounting config stores db).step accounts op).Right tokensOf startOf := by
    intro accounts op h hop
    exact h.step config hstores hop
  exact (accounting config stores db).throughout_of_steps hstart hstep (fun accounts h => h.db.right) hops

instance {accounts : Accounts} {op : BufferOp} : Decidable (Faithful tokensOf startOf accounts op) :=
  match op with
  | .append .. => inferInstanceAs (Decidable (_ ∧ _))
  | .read .. => isTrue trivial
  | .commit i .. =>
      match h : accounts.snapshots[i]? with
      | none => isTrue (by rw [Faithful, h]; nofun)
      | some snapshot => decidable_of_iff (_ ∧ _ ∧ _) (by
        rw [Faithful, h]
        exact ⟨fun hop _ hmem => Option.mem_some_iff.mp hmem ▸ hop, fun hop => hop snapshot rfl⟩)
  | .ingestSummary .. => inferInstanceAs (Decidable (_ ∧ _))

/-- A seal whose buffer grew between its snapshot and its commit. -/
def grownSeal : List BufferOp :=
  [.append "tree-1" 0 "a" 5 10, .append "tree-1" 0 "a" 5 10, .read "tree-1" 0, .append "tree-1" 0 "b" 5 10,
    .commit 0 [⟨"a", 5, 10, 20⟩] "s" 5 30 false]

theorem buffers_accounted_grownSeal :
    (((accounting ⟨50000, 10, 5⟩ (fun ids => ids.length ≤ 1000)
      ⟨[⟨"tree-1", .source, "chat", none, 0, .active, none⟩], [], [], []⟩).run grownSeal).db.getBuffer "tree-1"
        0).Accounted (fun _ => 5) fun _ => 10 := by
  refine buffers_accounted ⟨50000, 10, 5⟩ (fun ids h => (of_decide_eq_true h).trans (by decide)) _ ?_ grownSeal
    (List.prefix_refl _) "tree-1" 0
  rw [Machine.allSteps_iff_stepsFrom]
  decide

end TinyCortex.SummaryTree
