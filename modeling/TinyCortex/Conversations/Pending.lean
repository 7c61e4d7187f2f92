import TinyCortex.Conversations.FirstRows

/-! What a client has still to do for the index. A row that its writer has not passed on yet is pending,
once for the journal of a running build and once for a warm index; what is not pending is settled. -/

namespace TinyCortex.Conversations

namespace Client

variable {σ : Type}

/-- The row is in the transcript and not in the journal. -/
def unjournaled : Client σ → Option String
  | .appendMessage .written threadId _ => some threadId
  | _ => none

/-- The row is in the transcript and not in a warm index. -/
def uncached : Client σ → Option String
  | .appendMessage .written threadId _ => some threadId
  | .appendMessage .journaled threadId _ => some threadId
  | _ => none

/-- The transcript has been cut and a warm index has not. -/
def rewriting : Client σ → Option String
  | .deleteMessagesFrom (.rewritten _) threadId _ => some threadId
  | _ => none

/-- Appends are journaled for this client. -/
def Collects : Client σ → Prop
  | .search .started => True
  | .search (.scanning _ _) => True
  | _ => False

/-- Nothing is left to do for the index. -/
structure Plain (client : Client σ) : Prop where
  unjournaled : client.unjournaled = none
  uncached : client.uncached = none
  rewriting : client.rewriting = none
  collects : ¬client.Collects

/-- What a client has seen of its thread. -/
def Knows (disk : Disk) : Client σ → Prop
  | .appendMessage .found threadId _ => disk.Live threadId
  | .appendMessage .written threadId message =>
      disk.Live threadId ∧ (disk.rows threadId).getLast? = some message
  | .appendMessage .journaled threadId message =>
      disk.Live threadId ∧ (disk.rows threadId).getLast? = some message
  | .appendMessage .cached threadId _ => disk.Live threadId
  | .deleteMessagesFrom (.rewritten kept) threadId _ => disk.rows threadId = kept
  | _ => True

/-- What a build has so far: the scanned threads and the journal make up the settled rows. -/
def Builds (cache : Option Live) (journal : Option (List (String × ConversationMessage)))
    (settled : String → List ConversationMessage) : Client Live → Prop
  | .search .started => cache = none
  | .search (.scanning threadIds idx) =>
      cache = none ∧ threadIds.Nodup ∧ (∀ threadId ∈ threadIds, part idx threadId = []) ∧
        ∀ entries ∈ journal, ∀ threadId ∉ threadIds,
          (part entries threadId).foldl insertFirst (part idx threadId) = firstRows (settled threadId)
  | .search (.drained idx) =>
      cache = none ∧ ∀ threadId, part idx threadId = firstRows (settled threadId)
  | _ => True

variable {client : Client σ} {threadId : String}

theorem lock_of_unjournaled (h : client.unjournaled = some threadId) :
    .thread threadId ∈ client.locks := by
  unfold unjournaled at h
  split at h
  · obtain rfl := Option.some.inj h
    exact List.mem_singleton.mpr rfl
  · cases h

theorem lock_of_uncached (h : client.uncached = some threadId) : .thread threadId ∈ client.locks := by
  unfold uncached at h
  split at h
  · obtain rfl := Option.some.inj h
    exact List.mem_singleton.mpr rfl
  · obtain rfl := Option.some.inj h
    exact List.mem_cons_self
  · cases h

theorem uncached_eq_unjournaled (h : .metadata ∉ client.locks) :
    client.uncached = client.unjournaled := by
  cases client with
  | appendMessage pc threadId message =>
      cases pc
      case journaled => exact absurd (List.mem_cons_of_mem _ List.mem_cons_self) h
      all_goals rfl
  | _ => rfl

theorem lock_of_rewriting (h : client.rewriting = some threadId) :
    .thread threadId ∈ client.locks := by
  unfold rewriting at h
  split at h
  · obtain rfl := Option.some.inj h
    exact List.mem_cons_of_mem _ List.mem_cons_self
  · cases h

theorem lock_of_collects (h : client.Collects) : .indexBuild ∈ client.locks := by
  unfold Collects at h
  split at h
  · exact List.mem_singleton.mpr rfl
  · exact List.mem_singleton.mpr rfl
  · exact h.elim

theorem locks_of_not_inside (h : client.inside = false) : client.locks = [] := by
  unfold inside at h
  split at h <;> first | rfl | cases h

theorem plain_of_not_inside (h : client.inside = false) : client.Plain := by
  unfold inside at h
  split at h <;> first | exact ⟨rfl, rfl, rfl, id⟩ | cases h

/-- Only the rows of a locked thread matter to a client. -/
theorem Knows.frame {disk disk' : Disk} (h : client.Knows disk)
    (hlive : ∀ threadId, disk.Live threadId → disk'.Live threadId)
    (hrows : ∀ threadId, .thread threadId ∈ client.locks → disk'.rows threadId = disk.rows threadId) :
    client.Knows disk' := by
  unfold Knows at h ⊢
  split
  · exact hlive _ h
  · rw [hrows _ List.mem_cons_self]
    exact ⟨hlive _ h.1, h.2⟩
  · rw [hrows _ List.mem_cons_self]
    exact ⟨hlive _ h.1, h.2⟩
  · exact hlive _ h
  · rw [hrows _ (List.mem_cons_of_mem _ List.mem_cons_self)]
    exact h
  · trivial

theorem knows_of_not_inside {disk : Disk} (h : client.inside = false) : client.Knows disk := by
  unfold inside at h
  split at h <;> trivial

theorem builds_of_no_lock {client : Client Live} {cache : Option Live}
    {journal : Option (List (String × ConversationMessage))}
    {settled : String → List ConversationMessage} (h : .indexBuild ∉ client.locks) :
    client.Builds cache journal settled := by
  unfold Builds
  split
  · exact absurd (List.mem_singleton.mpr rfl) h
  · exact absurd (List.mem_singleton.mpr rfl) h
  · exact absurd List.mem_cons_self h
  · trivial

/-- Of the cache a build needs that it is cold. -/
theorem Builds.of_cold {client : Client Live} {cache cache' : Option Live}
    {journal : Option (List (String × ConversationMessage))}
    {settled : String → List ConversationMessage} (h : client.Builds cache journal settled)
    (hcold : cache = none → cache' = none) : client.Builds cache' journal settled := by
  unfold Builds at h ⊢
  split
  · exact hcold h
  · exact ⟨hcold h.1, h.2⟩
  · exact ⟨hcold h.1, h.2⟩
  · trivial

/-- A row goes into the journal as it settles. -/
theorem Builds.record {client : Client Live} {cache : Option Live}
    {journal : Option (List (String × ConversationMessage))}
    {settled : String → List ConversationMessage} {threadId : String} {message : ConversationMessage}
    (h : client.Builds cache journal settled) (hmetadata : .metadata ∉ client.locks) :
    client.Builds cache (journal.map (· ++ [(threadId, message)]))
      (Function.update settled threadId (settled threadId ++ [message])) := by
  unfold Builds at h ⊢
  split
  · exact h
  · obtain ⟨hcold, hnodup, hunread, hread⟩ := h
    refine ⟨hcold, hnodup, hunread, ?_⟩
    intro entries hentries other hother
    obtain ⟨old, hold, rfl⟩ := Option.map_eq_some_iff.mp hentries
    rw [part_concat]
    by_cases heq : threadId = other
    · subst heq
      rw [if_pos rfl, List.foldl_append, hread old hold threadId hother, Function.update_self,
        firstRows_concat]
      rfl
    · rw [if_neg heq, Function.update_of_ne (Ne.symm heq)]
      exact hread old hold other hother
  · exact absurd (List.mem_cons_of_mem _ List.mem_cons_self) hmetadata
  · trivial

end Client

open Locks (Exclusive Somewhere)

variable {n : Nat}

section Settled

variable {σ : Type} {pending : Client σ → Option String} {disk disk' : Disk}
  {clients : Fin n → Client σ} {i : Fin n} {client : Client σ} {threadId : String}

/-- The rows without one that is pending. -/
def settled (pending : Client σ → Option String) (disk : Disk) (clients : Fin n → Client σ)
    (threadId : String) : List ConversationMessage :=
  if ∃ j, pending (clients j) = some threadId then (disk.rows threadId).dropLast
  else disk.rows threadId

theorem settled_of_not_pending
    (h : ¬Somewhere (fun client => pending client = some threadId) clients) :
    settled pending disk clients threadId = disk.rows threadId := if_neg h

theorem settled_of_pending (h : Somewhere (fun client => pending client = some threadId) clients) :
    settled pending disk clients threadId = (disk.rows threadId).dropLast := if_pos h

theorem settled_congr
    (hpending : Somewhere (fun client => pending client = some threadId)
      (Function.update clients i client) ↔
        Somewhere (fun client => pending client = some threadId) clients)
    (hrows : disk'.rows threadId = disk.rows threadId) :
    settled pending disk' (Function.update clients i client) threadId =
      settled pending disk clients threadId := by
  by_cases h : Somewhere (fun client => pending client = some threadId) clients
  · rw [settled_of_pending h, settled_of_pending (hpending.mpr h), hrows]
  · rw [settled_of_not_pending h, settled_of_not_pending (fun h' => h (hpending.mp h')), hrows]

/-- A move that is no write and leaves the client as pending as it was. -/
theorem settled_move (hpending : pending client = pending (clients i))
    (hrows : ∀ threadId, disk'.rows threadId = disk.rows threadId) :
    settled pending disk' (Function.update clients i client) = settled pending disk clients := by
  funext threadId
  apply settled_congr _ (hrows threadId)
  exact Locks.somewhere_update_iff (by rw [hpending])

/-- A row that its writer has still to pass on is not settled. -/
theorem settled_append {message : ConversationMessage} (hexclusive : Exclusive Client.locks clients)
    (hlock : ∀ {client : Client σ} {threadId}, pending client = some threadId →
      .thread threadId ∈ client.locks)
    (hi : .thread threadId ∈ (clients i).locks) (hold : pending (clients i) = none)
    (hnew : pending client = some threadId) :
    settled pending (disk.apply (.appendMessage threadId message))
      (Function.update clients i client) = settled pending disk clients := by
  funext other
  by_cases hother : threadId = other
  · subst hother
    have hfree : ¬Somewhere (fun client => pending client = some threadId) clients :=
      hexclusive.not_somewhere (fun _ => hlock) hi (by rw [hold]; exact nofun)
    rw [settled_of_pending (Locks.somewhere_update hnew), settled_of_not_pending hfree,
      Disk.rows_appendMessage, if_pos rfl, List.dropLast_concat]
  · apply settled_congr
    · refine Locks.somewhere_update_iff ?_
      rw [hold, hnew]
      exact iff_of_false (fun heq => hother (Option.some.inj heq)) nofun
    · rw [Disk.rows_appendMessage, if_neg (Ne.symm hother)]

/-- The row is passed on. -/
theorem settled_passed (hexclusive : Exclusive Client.locks clients)
    (hlock : ∀ {client : Client σ} {threadId}, pending client = some threadId →
      .thread threadId ∈ client.locks)
    (hold : pending (clients i) = some threadId) (hnew : pending client = none) :
    settled pending disk (Function.update clients i client) =
      Function.update (settled pending disk clients) threadId (disk.rows threadId) := by
  funext other
  by_cases hother : other = threadId
  · subst hother
    rw [Function.update_self]
    apply settled_of_not_pending
    exact hexclusive.not_somewhere_update (fun _ => hlock) (hlock hold) (by rw [hnew]; exact nofun)
  · rw [Function.update_of_ne hother]
    apply settled_congr _ rfl
    refine Locks.somewhere_update_iff ?_
    rw [hold, hnew]
    exact iff_of_false nofun (fun heq => hother (Option.some.inj heq).symm)

end Settled

end TinyCortex.Conversations
