import TinyCortex.Conversations.IndexTransport
import TinyCortex.Conversations.WarmSound

/-! The warm index is what the transcripts have, in every run: first for the index as its live messages,
then, through the changes that were made to it, for the index of the code. -/

namespace TinyCortex.Conversations

variable {n : Nat}

namespace IndexWorld

variable {world : IndexWorld n Live} {i : Fin n}

def Sound (world : IndexWorld n Live) : Prop :=
  Conversations.Sound world.disk world.cache world.journal world.clients

/-- A lock that the next place takes is one the client has or one that is free. -/
theorem takes {old new : List Lock} {lock : Lock} (hnew : ∀ l ∈ new, l ∈ old ∨ l = lock)
    (hfree : world.free lock) :
    ∀ l ∈ new, l ∈ old ∨ Locks.Free Client.locks world.clients l := by
  intro l hl
  rcases hnew l hl with hold | rfl
  · exact Or.inl hold
  · exact Or.inr hfree

theorem Sound.ensureStep (h : world.Sound) {pc : EnsurePc} {request : CreateConversationThread}
    (hclient : world.clients i = .ensureThread pc request) :
    (world.ensureStep i request pc).Sound := by
  cases pc with
  | waiting => exact h.stay hclient ⟨rfl, rfl, rfl, id⟩ ⟨rfl, rfl, rfl, id⟩ nofun trivial trivial
  | entered =>
      unfold IndexWorld.ensureStep
      dsimp only
      split_ifs with hfree
      · exact h.stay hclient ⟨rfl, rfl, rfl, id⟩ ⟨rfl, rfl, rfl, id⟩
          (takes (fun _ hl => Or.inr (List.mem_singleton.mp hl)) hfree) trivial trivial
      · exact h
  | locked =>
      unfold IndexWorld.ensureStep
      dsimp only
      split_ifs
      · exact h.walk hclient ⟨rfl, rfl, rfl, id⟩ ⟨rfl, rfl, rfl, id⟩ nofun (fun _ => rfl)
          (fun _ hlive => (Disk.live_ensureThread request).mpr (Or.inr hlive)) trivial trivial
      · exact h

theorem Sound.appendStep (h : world.Sound) {pc : AppendPc} {threadId : String}
    {message : ConversationMessage} (hclient : world.clients i = .appendMessage pc threadId message) :
    (world.appendStep Live.api i threadId message pc).Sound := by
  unfold IndexWorld.appendStep
  cases pc with
  | waiting => exact h.stay hclient ⟨rfl, rfl, rfl, id⟩ ⟨rfl, rfl, rfl, id⟩ nofun trivial trivial
  | entered =>
      dsimp only
      split_ifs with hfree
      · exact h.stay hclient ⟨rfl, rfl, rfl, id⟩ ⟨rfl, rfl, rfl, id⟩
          (takes (fun _ hl => Or.inr (List.mem_singleton.mp hl)) hfree) trivial trivial
      · exact h
  | locked =>
      dsimp only
      split_ifs with hfree hmissing
      · exact h.stay hclient ⟨rfl, rfl, rfl, id⟩ ⟨rfl, rfl, rfl, id⟩ nofun trivial trivial
      · refine h.stay hclient ⟨rfl, rfl, rfl, id⟩ ⟨rfl, rfl, rfl, id⟩ (fun _ => Or.inl) ?_ trivial
        exact Option.isSome_iff_ne_none.mpr fun hnone => hmissing (Option.isNone_iff_eq_none.mpr hnone)
      · exact h
  | found =>
      dsimp only
      split
      · exact h.stay hclient ⟨rfl, rfl, rfl, id⟩ ⟨rfl, rfl, rfl, id⟩ nofun trivial trivial
      · exact h.write hclient
  | written =>
      dsimp only
      split_ifs with hfree
      · exact h.record hclient hfree
      · exact h
  | journaled => exact h.put hclient
  | cached =>
      exact h.walk hclient ⟨rfl, rfl, rfl, id⟩ ⟨rfl, rfl, rfl, id⟩ nofun (fun _ => rfl)
        (fun _ hlive => (Disk.live_messageAppended _ _).mpr hlive) trivial trivial

theorem Sound.truncateStep (h : world.Sound) {pc : TruncatePc} {threadId messageId : String}
    (hclient : world.clients i = .deleteMessagesFrom pc threadId messageId) :
    (world.truncateStep Live.api i threadId messageId pc).Sound := by
  unfold IndexWorld.truncateStep
  cases pc with
  | waiting => exact h.stay hclient ⟨rfl, rfl, rfl, id⟩ ⟨rfl, rfl, rfl, id⟩ nofun trivial trivial
  | entered =>
      dsimp only
      split_ifs with hfree
      · exact h.stay hclient ⟨rfl, rfl, rfl, id⟩ ⟨rfl, rfl, rfl, id⟩
          (takes (fun _ hl => Or.inr (List.mem_singleton.mp hl)) hfree) trivial trivial
      · exact h
  | building =>
      dsimp only
      split_ifs with hfree
      · refine h.stay hclient ⟨rfl, rfl, rfl, id⟩ ⟨rfl, rfl, rfl, id⟩ (takes ?_ hfree) trivial trivial
        intro lock hlock
        rcases List.mem_cons.mp hlock with hbuild | hthread
        · exact Or.inl (hbuild ▸ List.mem_singleton.mpr rfl)
        · exact Or.inr (List.mem_singleton.mp hthread)
      · exact h
  | locked =>
      dsimp only
      split
      · exact h.stay hclient ⟨rfl, rfl, rfl, id⟩ ⟨rfl, rfl, rfl, id⟩ nofun trivial trivial
      · refine h.cut hclient fun hrows => ?_
        rw [hrows, List.take_nil]
  | rewritten kept => exact h.putKept hclient
  | cached kept =>
      dsimp only
      split_ifs
      · exact h.walk hclient ⟨rfl, rfl, rfl, id⟩ ⟨rfl, rfl, rfl, id⟩ nofun (fun _ => rfl)
          (fun _ hlive => (Disk.live_stats _ _).mpr hlive) trivial trivial
      · exact h

/-- The snapshot of the thread ids lists every live thread once. -/
theorem nodup_threadIds (disk : Disk) : (disk.threadIndex.map (·.1)).Nodup := by
  rw [List.Nodup, List.pairwise_map]
  exact disk.ordered_threadIndex.imp ne_of_lt

theorem mem_threadIds {disk : Disk} {threadId : String} (h : disk.Live threadId) :
    threadId ∈ disk.threadIndex.map (·.1) := by
  obtain ⟨entry, hentry⟩ := Option.isSome_iff_exists.mp h
  exact List.mem_map.mpr ⟨_, disk.ordered_threadIndex.mem_iff.mpr hentry, rfl⟩

theorem Sound.searchStep (h : world.Sound) {pc : SearchPc Live}
    (hclient : world.clients i = .search pc) : (world.searchStep Live.api i pc).Sound := by
  unfold IndexWorld.searchStep
  cases pc with
  | waiting => exact h.stay hclient ⟨rfl, rfl, rfl, id⟩ ⟨rfl, rfl, rfl, id⟩ nofun trivial trivial
  | entered =>
      dsimp only
      split_ifs
      · exact h.stay hclient ⟨rfl, rfl, rfl, id⟩ ⟨rfl, rfl, rfl, id⟩ nofun trivial trivial
      · exact h.stay hclient ⟨rfl, rfl, rfl, id⟩ ⟨rfl, rfl, rfl, id⟩ nofun trivial trivial
  | cold =>
      dsimp only
      split_ifs with hfree
      · exact h.stay hclient ⟨rfl, rfl, rfl, id⟩ ⟨rfl, rfl, rfl, id⟩
          (takes (fun _ hl => Or.inr (List.mem_singleton.mp hl)) hfree) trivial trivial
      · exact h
  | building =>
      dsimp only
      split_ifs with hwarm
      · exact h.stay hclient ⟨rfl, rfl, rfl, id⟩ ⟨rfl, rfl, rfl, id⟩ nofun trivial trivial
      · have hcold : world.cache = none := Option.not_isSome_iff_eq_none.mp hwarm
        unfold Sound at h ⊢
        rw [hcold] at h
        change Conversations.Sound world.disk world.cache _ _
        rw [hcold]
        exact h.begin hclient
  | started =>
      dsimp only
      split_ifs
      · exact h.snapshot hclient (nodup_threadIds world.disk) fun _ => mem_threadIds
      · exact h
  | scanning threadIds idx =>
      cases threadIds with
      | nil =>
          dsimp only
          split_ifs with hfree
          · exact h.drain hclient hfree
          · exact h
      | cons threadId threadIds =>
          dsimp only
          split_ifs with hfree
          · exact h.scan hclient hfree
          · exact h
  | drained idx => exact h.publish hclient
  | primed => exact h.stay hclient ⟨rfl, rfl, rfl, id⟩ ⟨rfl, rfl, rfl, id⟩ nofun trivial trivial

/-- The client goes back to idle while nobody is inside. -/
theorem nobodyInside_idle (hquiet : world.nobodyInside) :
    ∀ j, (Function.update world.clients i .idle j).inside = false :=
  (Function.forall_update_iff world.clients fun _ client => client.inside = false).mpr
    ⟨rfl, fun j _ => hquiet j⟩

theorem Sound.delete (h : world.Sound) (hquiet : world.nobodyInside) {threadId deletedAt : String}
    (hlive : ¬(world.disk.threadIndex.get threadId).isNone) :
    Conversations.Sound (world.disk.applyAll (world.disk.deleteThread threadId deletedAt).1)
      (world.cache.map fun live => live.removeThread threadId) world.journal
      (Function.update world.clients i .idle) := by
  have hwrites : (world.disk.deleteThread threadId deletedAt).1 =
      [.appendThreads (.delete threadId deletedAt), .removeMessages threadId] := by
    rw [Disk.deleteThread, if_neg hlive]
  have hrows (other : String) :
      (world.disk.applyAll (world.disk.deleteThread threadId deletedAt).1).rows other =
        if other = threadId then [] else world.disk.rows other := by
    rw [hwrites]
    exact Disk.rows_removeMessages other
  rw [h.journal_of_quiet hquiet]
  apply Sound.of_quiet (nobodyInside_idle hquiet)
  · intro other hdead
    rw [hrows]
    split_ifs with hother
    · rfl
    · apply h.dead other
      intro hold
      apply hdead
      rw [hwrites]
      change (((world.disk.apply (.appendThreads (.delete threadId deletedAt))).threadIndex).get
        other).isSome
      rw [Disk.threadIndex_appendThreads, ThreadIndex.fold, OrderedMap.get_erase,
        if_neg (Ne.symm hother)]
      exact hold
  · intro live' hlive' other
    obtain ⟨live, hwarm, rfl⟩ := Option.map_eq_some_iff.mp hlive'
    rw [part_removeThread, hrows]
    by_cases hother : threadId = other
    · rw [if_pos hother, if_pos hother.symm]
      rfl
    · rw [if_neg hother, if_neg (Ne.symm hother)]
      exact h.warm_of_quiet hquiet hwarm other

theorem Sound.advance (h : world.Sound) : (world.advance Live.api i).Sound := by
  unfold IndexWorld.advance
  cases hclient : world.clients i with
  | idle => exact h
  | ensureThread pc request => exact h.ensureStep hclient
  | appendMessage pc threadId message => exact h.appendStep hclient
  | deleteMessagesFrom pc threadId messageId => exact h.truncateStep hclient
  | deleteThread threadId deletedAt =>
      dsimp only
      split_ifs with hquiet hmissing
      · exact h.stay hclient ⟨rfl, rfl, rfl, id⟩ ⟨rfl, rfl, rfl, id⟩ nofun trivial trivial
      · exact h.delete hquiet hmissing
      · exact h
  | purge =>
      dsimp only
      split_ifs with hquiet
      · have hjournal : world.journal = none := h.journal_of_quiet hquiet
        change Conversations.Sound Disk.empty none world.journal _
        rw [hjournal]
        exact Sound.of_quiet (nobodyInside_idle hquiet) (fun _ _ => rfl) nofun
      · exact h
  | search pc => exact h.searchStep hclient

theorem Sound.begun (h : world.Sound) (call : StoreCall) (hidle : (world.clients i).isIdle) :
    (world.goto i call.client).Sound := by
  have hnew : (call.client : Client Live).inside = false := by
    cases call <;> rfl
  have hold : (world.clients i).inside = false := by
    cases hclient : world.clients i with
    | idle => rfl
    | _ =>
        rw [hclient] at hidle
        cases hidle
  have hlocks : (call.client : Client Live).locks = [] := Client.locks_of_not_inside hnew
  apply h.stay rfl (Client.plain_of_not_inside hold) (Client.plain_of_not_inside hnew)
  · rw [hlocks]
    exact nofun
  · exact Client.knows_of_not_inside hnew
  · apply Client.builds_of_no_lock
    rw [hlocks]
    exact List.not_mem_nil

theorem Sound.step (h : world.Sound) (label : IndexLabel n) :
    (world.step Live.api label).Sound := by
  cases label with
  | start i call =>
      unfold IndexWorld.step
      dsimp only
      split_ifs with hidle
      · exact h.begun call hidle
      · exact h
  | advance i => exact h.advance
  | restart =>
      unfold IndexWorld.step
      dsimp only
      split_ifs with hquiet
      · have hjournal : world.journal = none := h.journal_of_quiet hquiet
        change Conversations.Sound world.disk none world.journal world.clients
        rw [hjournal]
        exact Sound.of_quiet hquiet h.dead nofun
      · exact h

theorem Sound.warmMatches (h : world.Sound) : WarmMatches world := by
  intro hquiet idx hidx threadId message
  rw [← mem_part, h.warm_of_quiet hquiet hidx, mem_firstRows]
  refine (and_iff_right_of_imp ?_).symm
  intro hfind
  by_contra hdead
  rw [h.dead threadId hdead] at hfind
  cases hfind

theorem machine_sound (labels : List (IndexLabel n)) :
    ((machine Live.api n).run labels).Sound :=
  (machine Live.api n).invariant Conversations.Sound.start (fun _ label h => h.step label) labels

end IndexWorld

/-- The index as the changes made to it. -/
def IndexOp.api : IndexApi (List IndexOp) where
  new := []
  insert ops threadId message := ops ++ [.insert threadId message]
  removeThread ops threadId := ops ++ [.removeThread threadId]

theorem hom_live : IndexOp.api.Hom Live.api Live.run where
  new := rfl
  insert _ _ _ := List.foldl_append
  removeThread _ _ := List.foldl_append

theorem hom_invertedIndex (env : SearchEnv) :
    IndexOp.api.Hom (InvertedIndex.api env) (InvertedIndex.run env) where
  new := rfl
  insert _ _ _ := List.foldl_append
  removeThread _ _ := List.foldl_append

theorem mem_documents {env : SearchEnv} {live : Live} {doc : DocEntry} :
    doc ∈ live.documents env ↔
      ∃ threadId message, doc = docEntry env threadId message ∧ (threadId, message) ∈ live := by
  rw [Live.documents, List.mem_map]
  constructor
  · intro h
    obtain ⟨⟨threadId, message⟩, hmem, heq⟩ := h
    exact ⟨threadId, message, heq.symm, hmem⟩
  · intro h
    obtain ⟨threadId, message, heq, hmem⟩ := h
    exact ⟨(threadId, message), hmem, heq.symm⟩

/-- What holds of the live messages holds of the documents. -/
theorem warmDocsMatch_of_ops (env : SearchEnv) {world : IndexWorld n (List IndexOp)}
    (h : WarmMatches (world.map Live.run)) : WarmDocsMatch env (world.map (InvertedIndex.run env)) := by
  intro hquiet idx hidx hroom doc
  obtain ⟨ops, hops, rfl⟩ := Option.map_eq_some_iff.mp hidx
  rw [(InvertedIndex.run_spec env ops hroom).2, mem_documents]
  have hnobody : (world.map Live.run).nobodyInside :=
    (IndexWorld.nobodyInside_map _ world).mpr ((IndexWorld.nobodyInside_map _ world).mp hquiet)
  have hlive := h hnobody (Live.run ops) (Option.mem_map_of_mem _ hops)
  refine exists_congr fun threadId => exists_congr fun message => and_congr_right fun _ => ?_
  exact hlive threadId message

/-- In every interleaving the warm index is what the transcripts have. -/
theorem warm_index_matches (env : SearchEnv) (n : Nat) (labels : List (IndexLabel n)) :
    (IndexWorld.machine Live.api n).Throughout WarmMatches labels ∧
      (IndexWorld.machine (InvertedIndex.api env) n).Throughout (WarmDocsMatch env) labels := by
  have hlive (done : List (IndexLabel n)) : WarmMatches ((IndexWorld.machine Live.api n).run done) :=
    (IndexWorld.machine_sound done).warmMatches
  refine ⟨fun done _ => hlive done, fun done _ => ?_⟩
  rw [← IndexWorld.map_run (hom_invertedIndex env)]
  apply warmDocsMatch_of_ops
  rw [IndexWorld.map_run hom_live]
  exact hlive done

end TinyCortex.Conversations
