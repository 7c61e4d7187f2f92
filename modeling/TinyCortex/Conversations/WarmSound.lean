import TinyCortex.Conversations.Pending

/-! What holds while clients work on the transcripts and the index, and that each of their steps keeps
it. -/

namespace TinyCortex.Conversations

open Locks (Exclusive Somewhere)

variable {n : Nat}

/-- What holds between any two steps. -/
structure Sound (disk : Disk) (cache : Option Live)
    (journal : Option (List (String × ConversationMessage))) (clients : Fin n → Client Live) :
    Prop where
  exclusive : Exclusive Client.locks clients
  dead : ∀ threadId, ¬disk.Live threadId → disk.rows threadId = []
  knows : ∀ i, (clients i).Knows disk
  warm : ∀ live ∈ cache, ∀ threadId,
    ¬Somewhere (fun client => client.rewriting = some threadId) clients →
      part live threadId = firstRows (settled Client.uncached disk clients threadId)
  collected : journal.isSome ↔ Somewhere Client.Collects clients
  journaled : ∀ entries ∈ journal, ∀ threadId, ∀ message ∈ part entries threadId,
    message ∈ disk.rows threadId
  builds : ∀ i, (clients i).Builds cache journal (settled Client.unjournaled disk clients)

namespace Sound

variable {disk disk' : Disk} {cache : Option Live}
  {journal : Option (List (String × ConversationMessage))} {clients : Fin n → Client Live} {i : Fin n}
  {client : Client Live} {threadId : String}

theorem start : Sound (n := n) Disk.empty none none fun _ => .idle where
  exclusive := fun _ _ _ h => absurd h List.not_mem_nil
  dead := fun _ _ => rfl
  knows := fun _ => trivial
  warm := nofun
  collected := iff_of_false nofun (fun h => h.elim fun _ hj => hj)
  journaled := nofun
  builds := fun _ => trivial

/-- What the others know survives a write to a thread that the client has. -/
theorem knows_update (h : Sound disk cache journal clients) (hclient : client.Knows disk')
    (hlive : ∀ threadId, disk.Live threadId → disk'.Live threadId)
    (hrows : ∀ threadId, .thread threadId ∈ (clients i).locks ∨
      disk'.rows threadId = disk.rows threadId) :
    ∀ j, (Function.update clients i client j).Knows disk' := by
  refine (Function.forall_update_iff clients fun _ c => c.Knows disk').mpr ⟨hclient, ?_⟩
  intro j hj
  refine (h.knows j).frame hlive fun threadId hlock => ?_
  rcases hrows threadId with hi | hsame
  · exact absurd (h.exclusive j i _ hlock hi) hj
  · exact hsame

/-- What the others have built, when nothing changed for them. -/
theorem builds_update (h : Sound disk cache journal clients)
    (hclient : client.Builds cache journal (settled Client.unjournaled disk clients)) :
    ∀ j, (Function.update clients i client j).Builds cache journal
      (settled Client.unjournaled disk clients) :=
  (Function.forall_update_iff clients fun _ c =>
    c.Builds cache journal (settled Client.unjournaled disk clients)).mpr
      ⟨hclient, fun j _ => h.builds j⟩

/-- While the client has the build lock nobody else builds. -/
theorem builds_alone (h : Sound disk cache journal clients)
    (hlock : .indexBuild ∈ (clients i).locks) {cache : Option Live}
    {journal : Option (List (String × ConversationMessage))}
    {rows : String → List ConversationMessage} (hclient : client.Builds cache journal rows) :
    ∀ j, (Function.update clients i client j).Builds cache journal rows := by
  refine (Function.forall_update_iff clients fun _ c => c.Builds cache journal rows).mpr
    ⟨hclient, ?_⟩
  intro j hj
  exact Client.builds_of_no_lock fun hmem => hj (h.exclusive j i _ hmem hlock)

/-- A move without a write to a transcript, the journal or the cache. -/
theorem move (h : Sound disk cache journal clients)
    (hlocks : ∀ lock ∈ client.locks,
      lock ∈ (clients i).locks ∨ Locks.Free Client.locks clients lock)
    (hrows : ∀ threadId, disk'.rows threadId = disk.rows threadId)
    (hlive : ∀ threadId, disk.Live threadId → disk'.Live threadId)
    (hunjournaled : client.unjournaled = (clients i).unjournaled)
    (huncached : client.uncached = (clients i).uncached)
    (hrewriting : client.rewriting = (clients i).rewriting)
    (hcollects : client.Collects ↔ (clients i).Collects) (hknows : client.Knows disk')
    (hbuilds : client.Builds cache journal (settled Client.unjournaled disk clients)) :
    Sound disk' cache journal (Function.update clients i client) where
  exclusive := h.exclusive.update hlocks
  dead := by
    intro threadId hdead
    rw [hrows]
    exact h.dead threadId fun hold => hdead (hlive threadId hold)
  knows := h.knows_update hknows hlive fun threadId => Or.inr (hrows threadId)
  warm := by
    intro live hwarm threadId hrewritten
    rw [settled_move huncached hrows]
    refine h.warm live hwarm threadId fun hold => hrewritten ?_
    exact (Locks.somewhere_update_iff (by rw [hrewriting])).mpr hold
  collected := h.collected.trans (Locks.somewhere_update_iff hcollects).symm
  journaled := by
    intro entries hentries threadId message hmessage
    rw [hrows]
    exact h.journaled entries hentries threadId message hmessage
  builds := by
    rw [settled_move hunjournaled hrows]
    exact h.builds_update hbuilds

/-- A move with nothing left to do for the index before and after. -/
theorem walk {old : Client Live} (h : Sound disk cache journal clients) (hclient : clients i = old)
    (hold : old.Plain) (hnew : client.Plain)
    (hlocks : ∀ lock ∈ client.locks, lock ∈ old.locks ∨ Locks.Free Client.locks clients lock)
    (hrows : ∀ threadId, disk'.rows threadId = disk.rows threadId)
    (hlive : ∀ threadId, disk.Live threadId → disk'.Live threadId) (hknows : client.Knows disk')
    (hbuilds : client.Builds cache journal (settled Client.unjournaled disk clients)) :
    Sound disk' cache journal (Function.update clients i client) := by
  subst hclient
  refine h.move hlocks hrows hlive ?_ ?_ ?_ ?_ hknows hbuilds
  · exact hnew.unjournaled.trans hold.unjournaled.symm
  · exact hnew.uncached.trans hold.uncached.symm
  · exact hnew.rewriting.trans hold.rewriting.symm
  · exact iff_of_false hnew.collects hold.collects

/-- A move that touches nothing at all. -/
theorem stay {old : Client Live} (h : Sound disk cache journal clients) (hclient : clients i = old)
    (hold : old.Plain) (hnew : client.Plain)
    (hlocks : ∀ lock ∈ client.locks, lock ∈ old.locks ∨ Locks.Free Client.locks clients lock)
    (hknows : client.Knows disk)
    (hbuilds : client.Builds cache journal (settled Client.unjournaled disk clients)) :
    Sound disk cache journal (Function.update clients i client) :=
  h.walk hclient hold hnew hlocks (fun _ => rfl) (fun _ hlive => hlive) hknows hbuilds

section Append

variable {message : ConversationMessage}

/-- The row is in the transcript: it is pending from here on. -/
theorem write (h : Sound disk cache journal clients)
    (hclient : clients i = .appendMessage .found threadId message) :
    Sound (disk.apply (.appendMessage threadId message)) cache journal
      (Function.update clients i (.appendMessage .written threadId message)) := by
  have hmine : .thread threadId ∈ (clients i).locks := by
    rw [hclient]
    exact List.mem_singleton.mpr rfl
  have hlive : disk.Live threadId := by
    have hknows := h.knows i
    rw [hclient] at hknows
    exact hknows
  have hrows (other : String) :
      .thread other ∈ (clients i).locks ∨
        (disk.apply (.appendMessage threadId message)).rows other = disk.rows other := by
    by_cases hother : other = threadId
    · exact Or.inl (hother ▸ hmine)
    · right
      rw [Disk.rows_appendMessage, if_neg hother]
  constructor
  case exclusive =>
    apply h.exclusive.release
    rw [hclient]
    exact fun _ hmem => hmem
  case dead =>
    intro other hdead
    have hother : other ≠ threadId := fun heq => hdead (heq ▸ hlive)
    rw [Disk.rows_appendMessage, if_neg hother]
    exact h.dead other hdead
  case knows =>
    refine h.knows_update ⟨hlive, ?_⟩ (fun _ hold => hold) hrows
    rw [Disk.rows_appendMessage, if_pos rfl, List.getLast?_concat]
  case warm =>
    intro live hwarm other hrewritten
    rw [settled_append h.exclusive Client.lock_of_uncached hmine (by rw [hclient]; rfl) rfl]
    refine h.warm live hwarm other fun hold => hrewritten ?_
    exact (Locks.somewhere_update_iff (by rw [hclient]; exact Iff.rfl)).mpr hold
  case collected =>
    exact h.collected.trans (Locks.somewhere_update_iff (by rw [hclient]; exact Iff.rfl)).symm
  case journaled =>
    intro entries hentries other row hrow
    have hmem := h.journaled entries hentries other row hrow
    rw [Disk.rows_appendMessage]
    split_ifs
    · exact List.mem_append_left _ hmem
    · exact hmem
  case builds =>
    rw [settled_append h.exclusive Client.lock_of_unjournaled hmine (by rw [hclient]; rfl) rfl]
    exact h.builds_update trivial

/-- The row goes into the journal of a running build. -/
theorem record (h : Sound disk cache journal clients)
    (hclient : clients i = .appendMessage .written threadId message)
    (hmetadata : Locks.Free Client.locks clients .metadata) :
    Sound disk cache (journal.map (· ++ [(threadId, message)]))
      (Function.update clients i (.appendMessage .journaled threadId message)) := by
  have hknows : disk.Live threadId ∧ (disk.rows threadId).getLast? = some message := by
    have hi := h.knows i
    rw [hclient] at hi
    exact hi
  have hrows : (disk.rows threadId).dropLast ++ [message] = disk.rows threadId :=
    List.dropLast_append_getLast? message hknows.2
  constructor
  case exclusive =>
    refine h.exclusive.update fun lock hlock => ?_
    rcases List.mem_cons.mp hlock with hthread | hrest
    · left
      rw [hclient, hthread]
      exact List.mem_singleton.mpr rfl
    · right
      rw [List.mem_singleton.mp hrest]
      exact hmetadata
  case dead => exact h.dead
  case knows => exact h.knows_update hknows (fun _ hold => hold) fun _ => Or.inr rfl
  case warm =>
    intro live hwarm other hrewritten
    rw [settled_move (by rw [hclient]; rfl) fun _ => rfl]
    refine h.warm live hwarm other fun hold => hrewritten ?_
    exact (Locks.somewhere_update_iff (by rw [hclient]; exact Iff.rfl)).mpr hold
  case collected =>
    rw [Option.isSome_map]
    exact h.collected.trans (Locks.somewhere_update_iff (by rw [hclient]; exact Iff.rfl)).symm
  case journaled =>
    intro entries hentries other row hrow
    obtain ⟨old, hold, rfl⟩ := Option.map_eq_some_iff.mp hentries
    rw [part_concat] at hrow
    split_ifs at hrow with hother
    · rcases List.mem_append.mp hrow with hmem | hnew
      · exact h.journaled old hold other row hmem
      · rw [List.mem_singleton.mp hnew, ← hother, ← hrows]
        exact List.mem_append_right _ (List.mem_singleton.mpr rfl)
    · exact h.journaled old hold other row hrow
  case builds =>
    have hpending : settled Client.unjournaled disk clients threadId =
        (disk.rows threadId).dropLast := settled_of_pending ⟨i, by rw [hclient]; rfl⟩
    rw [settled_passed h.exclusive Client.lock_of_unjournaled (by rw [hclient]; rfl) rfl, ← hrows,
      ← hpending]
    refine (Function.forall_update_iff clients fun _ c => c.Builds cache _ _).mpr ⟨trivial, ?_⟩
    intro j _
    exact (h.builds j).record (hmetadata j)

/-- The row goes into a warm index. -/
theorem put (h : Sound disk cache journal clients)
    (hclient : clients i = .appendMessage .journaled threadId message) :
    Sound disk (cache.map fun live => live.insert threadId message) journal
      (Function.update clients i (.appendMessage .cached threadId message)) := by
  have hknows : disk.Live threadId ∧ (disk.rows threadId).getLast? = some message := by
    have hi := h.knows i
    rw [hclient] at hi
    exact hi
  constructor
  case exclusive =>
    apply h.exclusive.release
    rw [hclient]
    exact fun _ hmem => hmem
  case dead => exact h.dead
  case knows => exact h.knows_update hknows.1 (fun _ hold => hold) fun _ => Or.inr rfl
  case warm =>
    intro live' hwarm other hrewritten
    obtain ⟨live, hlive, rfl⟩ := Option.map_eq_some_iff.mp hwarm
    have hpart := h.warm live hlive other fun hold => hrewritten
      ((Locks.somewhere_update_iff (by rw [hclient]; exact Iff.rfl)).mpr hold)
    rw [settled_passed h.exclusive Client.lock_of_uncached (by rw [hclient]; rfl) rfl, part_insert,
      hpart]
    by_cases hother : threadId = other
    · subst hother
      have hpending : settled Client.uncached disk clients threadId =
          (disk.rows threadId).dropLast := settled_of_pending ⟨i, by rw [hclient]; rfl⟩
      rw [if_pos rfl, Function.update_self, hpending, ← firstRows_concat,
        List.dropLast_append_getLast? message hknows.2]
    · rw [if_neg hother, Function.update_of_ne (Ne.symm hother)]
  case collected =>
    exact h.collected.trans (Locks.somewhere_update_iff (by rw [hclient]; exact Iff.rfl)).symm
  case journaled => exact h.journaled
  case builds =>
    rw [settled_move (by rw [hclient]; rfl) fun _ => rfl]
    intro j
    refine (h.builds_update ?_ j).of_cold fun hcold => Option.map_eq_none_iff.mpr hcold
    trivial

end Append

section Truncate

variable {messageId : String} {kept : List ConversationMessage}

/-- Who has the build lock and collects nothing finds no journal. -/
theorem journal_none (h : Sound disk cache journal clients)
    (hlock : .indexBuild ∈ (clients i).locks) (hclient : ¬(clients i).Collects) : journal = none := by
  by_contra hjournal
  have hsomewhere := h.collected.mp (Option.isSome_iff_ne_none.mpr hjournal)
  exact h.exclusive.not_somewhere (fun _ => Client.lock_of_collects) hlock hclient hsomewhere

/-- The transcript is cut. -/
theorem cut (h : Sound disk cache journal clients)
    (hclient : clients i = .deleteMessagesFrom .locked threadId messageId)
    (hdead : disk.rows threadId = [] → kept = []) :
    Sound (disk.apply (.rewriteMessages threadId kept)) cache journal
      (Function.update clients i (.deleteMessagesFrom (.rewritten kept) threadId messageId)) := by
  have hbuild : .indexBuild ∈ (clients i).locks := by
    rw [hclient]
    exact List.mem_cons_self
  have hmine : .thread threadId ∈ (clients i).locks := by
    rw [hclient]
    exact List.mem_cons_of_mem _ List.mem_cons_self
  have hjournal : journal = none := h.journal_none hbuild (by rw [hclient]; exact id)
  constructor
  case exclusive =>
    apply h.exclusive.release
    rw [hclient]
    exact fun _ hmem => hmem
  case dead =>
    intro other hother
    rw [Disk.rows_rewriteMessages]
    split_ifs with heq
    · exact hdead (heq ▸ h.dead other hother)
    · exact h.dead other hother
  case knows =>
    refine h.knows_update ?_ (fun _ hold => hold) fun other => ?_
    · change (disk.apply (.rewriteMessages threadId kept)).rows threadId = kept
      rw [Disk.rows_rewriteMessages, if_pos rfl]
    · by_cases hother : other = threadId
      · exact Or.inl (hother ▸ hmine)
      · right
        rw [Disk.rows_rewriteMessages, if_neg hother]
  case warm =>
    intro live hwarm other hrewritten
    have hother : other ≠ threadId := by
      intro heq
      exact hrewritten (Locks.somewhere_update (heq ▸ rfl))
    have hpending : settled Client.uncached (disk.apply (.rewriteMessages threadId kept))
        (Function.update clients i (.deleteMessagesFrom (.rewritten kept) threadId messageId)) other =
          settled Client.uncached disk clients other := by
      apply settled_congr
      · exact Locks.somewhere_update_iff (by rw [hclient]; exact Iff.rfl)
      · rw [Disk.rows_rewriteMessages, if_neg hother]
    rw [hpending]
    refine h.warm live hwarm other fun hold => hrewritten ?_
    refine (Locks.somewhere_update_iff ?_).mpr hold
    rw [hclient]
    exact iff_of_false (fun heq => hother (Option.some.inj heq).symm) nofun
  case collected =>
    exact h.collected.trans (Locks.somewhere_update_iff (by rw [hclient]; exact Iff.rfl)).symm
  case journaled =>
    rw [hjournal]
    exact nofun
  case builds => exact h.builds_alone hbuild trivial

/-- A warm index gets the rows that are left. -/
theorem putKept (h : Sound disk cache journal clients)
    (hclient : clients i = .deleteMessagesFrom (.rewritten kept) threadId messageId) :
    Sound disk
      (cache.map fun live => Live.api.insertRows (live.removeThread threadId) threadId kept) journal
      (Function.update clients i (.deleteMessagesFrom (.cached kept) threadId messageId)) := by
  have hmine : .thread threadId ∈ (clients i).locks := by
    rw [hclient]
    exact List.mem_cons_of_mem _ List.mem_cons_self
  have hknows : disk.rows threadId = kept := by
    have hi := h.knows i
    rw [hclient] at hi
    exact hi
  constructor
  case exclusive =>
    apply h.exclusive.release
    rw [hclient]
    exact fun _ hmem => hmem
  case dead => exact h.dead
  case knows => exact h.knows_update trivial (fun _ hold => hold) fun _ => Or.inr rfl
  case warm =>
    intro live' hwarm other hrewritten
    obtain ⟨live, hlive, rfl⟩ := Option.map_eq_some_iff.mp hwarm
    rw [settled_move (by rw [hclient]; rfl) fun _ => rfl, part_insertRows, part_removeThread]
    by_cases hother : threadId = other
    · subst hother
      have hfree : ¬Somewhere (fun client => client.uncached = some threadId) clients :=
        h.exclusive.not_somewhere (fun _ => Client.lock_of_uncached) hmine
          (by rw [hclient]; intro hold; cases hold)
      rw [if_pos rfl, if_pos rfl, settled_of_not_pending hfree, hknows, firstRows]
    · rw [if_neg hother, if_neg hother]
      refine h.warm live hlive other fun hold => hrewritten ?_
      refine (Locks.somewhere_update_iff ?_).mpr hold
      rw [hclient]
      exact iff_of_false (fun heq => by cases heq) (fun heq => hother (Option.some.inj heq))
  case collected =>
    exact h.collected.trans (Locks.somewhere_update_iff (by rw [hclient]; exact Iff.rfl)).symm
  case journaled => exact h.journaled
  case builds =>
    refine h.builds_alone ?_ trivial
    rw [hclient]
    exact List.mem_cons_self

end Truncate

section Build

variable {threadIds : List String} {idx : Live}

/-- A cold build begins with an empty journal. -/
theorem begin (h : Sound disk none journal clients) (hclient : clients i = .search .building) :
    Sound disk none (some []) (Function.update clients i (.search .started)) := by
  have hbuild : .indexBuild ∈ (clients i).locks := by
    rw [hclient]
    exact List.mem_singleton.mpr rfl
  constructor
  case exclusive =>
    apply h.exclusive.release
    rw [hclient]
    exact fun _ hmem => hmem
  case dead => exact h.dead
  case knows => exact h.knows_update trivial (fun _ hold => hold) fun _ => Or.inr rfl
  case warm => exact nofun
  case collected => exact iff_of_true rfl (Locks.somewhere_update trivial)
  case journaled =>
    intro entries hentries other row hrow
    obtain rfl := Option.some.inj hentries
    cases hrow
  case builds => exact h.builds_alone hbuild rfl

theorem settled_of_dead {pending : Client Live → Option String} (h : disk.rows threadId = []) :
    settled pending disk clients threadId = [] := by
  unfold settled
  rw [h]
  split_ifs <;> rfl

/-- The threads to scan. What is not among them has no rows and nothing journaled. -/
theorem snapshot (h : Sound disk cache journal clients) (hclient : clients i = .search .started)
    (hnodup : threadIds.Nodup) (hall : ∀ threadId, disk.Live threadId → threadId ∈ threadIds) :
    Sound disk cache journal (Function.update clients i (.search (.scanning threadIds []))) := by
  have hcold : cache = none := by
    have hi := h.builds i
    rw [hclient] at hi
    exact hi
  have hunread : ∀ entries ∈ journal, ∀ threadId ∉ threadIds,
      (part entries threadId).foldl insertFirst [] =
        firstRows (settled Client.unjournaled disk clients threadId) := by
    intro entries hentries threadId hthread
    have hrows : disk.rows threadId = [] := h.dead threadId fun hlive => hthread (hall threadId hlive)
    have hpart : part entries threadId = [] := by
      apply List.eq_nil_iff_forall_not_mem.mpr
      intro message hmem
      have hrow := h.journaled entries hentries threadId message hmem
      rw [hrows] at hrow
      cases hrow
    rw [hpart, settled_of_dead hrows]
    rfl
  apply h.move
  case hlocks =>
    rw [hclient]
    exact fun _ hmem => Or.inl hmem
  case hrows => exact fun _ => rfl
  case hlive => exact fun _ hold => hold
  case hbuilds => exact ⟨hcold, hnodup, fun _ _ => rfl, hunread⟩
  case hknows => trivial
  all_goals
    rw [hclient]
    rfl

/-- One thread is read, with no row of it pending. -/
theorem scan (h : Sound disk cache journal clients)
    (hclient : clients i = .search (.scanning (threadId :: threadIds) idx))
    (hfree : Locks.Free Client.locks clients (.thread threadId)) :
    Sound disk cache journal (Function.update clients i (.search (.scanning threadIds
      (Live.api.insertRows idx threadId (disk.rows threadId))))) := by
  obtain ⟨hcold, hnodup, hunread, hread⟩ : cache = none ∧ (threadId :: threadIds).Nodup ∧
      (∀ other ∈ threadId :: threadIds, part idx other = []) ∧
      ∀ entries ∈ journal, ∀ other ∉ threadId :: threadIds,
        (part entries other).foldl insertFirst (part idx other) =
          firstRows (settled Client.unjournaled disk clients other) := by
    have hi := h.builds i
    rw [hclient] at hi
    exact hi
  obtain ⟨hfirst, hnodup⟩ := List.nodup_cons.mp hnodup
  have hpending : settled Client.unjournaled disk clients threadId = disk.rows threadId :=
    settled_of_not_pending (hfree.not_somewhere fun _ => Client.lock_of_unjournaled)
  apply h.move
  case hlocks =>
    rw [hclient]
    exact fun _ hmem => Or.inl hmem
  case hrows => exact fun _ => rfl
  case hlive => exact fun _ hold => hold
  case hknows => trivial
  case hbuilds =>
    refine ⟨hcold, hnodup, ?_, ?_⟩
    · intro other hother
      have hne : threadId ≠ other := fun heq => hfirst (heq ▸ hother)
      rw [part_insertRows, if_neg hne]
      exact hunread other (List.mem_cons_of_mem _ hother)
    · intro entries hentries other hother
      rw [part_insertRows]
      by_cases heq : threadId = other
      · subst heq
        rw [if_pos rfl, hunread threadId List.mem_cons_self, hpending]
        exact foldl_insertFirst_of_subset (h.journaled entries hentries threadId)
      · rw [if_neg heq]
        apply hread entries hentries other
        intro hmem
        rcases List.mem_cons.mp hmem with hhead | htail
        · exact heq hhead.symm
        · exact hother htail
  all_goals
    rw [hclient]
    rfl

/-- The journal goes into the index; no append is between its journal and the cache. -/
theorem drain (h : Sound disk cache journal clients)
    (hclient : clients i = .search (.scanning [] idx))
    (hmetadata : Locks.Free Client.locks clients .metadata) :
    Sound disk cache none (Function.update clients i
      (.search (.drained (Live.api.insertAll idx (journal.getD []))))) := by
  have hbuild : .indexBuild ∈ (clients i).locks := by
    rw [hclient]
    exact List.mem_singleton.mpr rfl
  obtain ⟨hcold, -, -, hread⟩ : cache = none ∧ _ ∧ _ ∧
      ∀ entries ∈ journal, ∀ other ∉ ([] : List String),
        (part entries other).foldl insertFirst (part idx other) =
          firstRows (settled Client.unjournaled disk clients other) := by
    have hi := h.builds i
    rw [hclient] at hi
    exact hi
  obtain ⟨entries, hentries⟩ : ∃ entries, journal = some entries :=
    Option.isSome_iff_exists.mp (h.collected.mpr ⟨i, by rw [hclient]; trivial⟩)
  constructor
  case exclusive =>
    refine h.exclusive.update fun lock hlock => ?_
    rcases List.mem_cons.mp hlock with hthread | hrest
    · exact Or.inl (hthread ▸ hbuild)
    · exact Or.inr (List.mem_singleton.mp hrest ▸ hmetadata)
  case dead => exact h.dead
  case knows => exact h.knows_update trivial (fun _ hold => hold) fun _ => Or.inr rfl
  case warm =>
    rw [hcold]
    exact nofun
  case collected =>
    refine iff_of_false nofun ?_
    exact h.exclusive.not_somewhere_update (fun _ => Client.lock_of_collects) hbuild id
  case journaled => exact nofun
  case builds =>
    rw [settled_move (by rw [hclient]; rfl) fun _ => rfl]
    refine h.builds_alone hbuild ⟨hcold, fun other => ?_⟩
    rw [part_insertAll, hentries, Option.getD_some]
    exact hread entries hentries other List.not_mem_nil

/-- While a build has the metadata lock every journaled row is in the warm index as well. -/
theorem uncached_of_drained (h : Sound disk cache journal clients)
    (hclient : clients i = .search (.drained idx)) :
    settled Client.uncached disk clients = settled Client.unjournaled disk clients := by
  have hmine : .metadata ∈ (clients i).locks := by
    rw [hclient]
    exact List.mem_cons_of_mem _ List.mem_cons_self
  have hsame (j : Fin n) : (clients j).uncached = (clients j).unjournaled := by
    by_cases hj : j = i
    · rw [hj, hclient]
      rfl
    · exact Client.uncached_eq_unjournaled fun hlock => hj (h.exclusive j i _ hlock hmine)
  funext threadId
  unfold settled
  simp only [hsame]

/-- The index becomes the cached one. -/
theorem publish (h : Sound disk cache journal clients)
    (hclient : clients i = .search (.drained idx)) :
    Sound disk (some idx) journal (Function.update clients i (.search .primed)) := by
  have hbuild : .indexBuild ∈ (clients i).locks := by
    rw [hclient]
    exact List.mem_cons_self
  obtain ⟨-, hparts⟩ : cache = none ∧ ∀ other,
      part idx other = firstRows (settled Client.unjournaled disk clients other) := by
    have hi := h.builds i
    rw [hclient] at hi
    exact hi
  constructor
  case exclusive => exact h.exclusive.release (List.nil_subset _)
  case dead => exact h.dead
  case knows => exact h.knows_update trivial (fun _ hold => hold) fun _ => Or.inr rfl
  case warm =>
    intro live hwarm other _
    obtain rfl := Option.some.inj hwarm
    rw [settled_move (by rw [hclient]; rfl) fun _ => rfl, h.uncached_of_drained hclient]
    exact hparts other
  case collected =>
    exact h.collected.trans (Locks.somewhere_update_iff (by rw [hclient]; exact Iff.rfl)).symm
  case journaled => exact h.journaled
  case builds => exact h.builds_alone hbuild trivial

end Build

section Quiet

theorem settled_of_quiet (hquiet : ∀ j, (clients j).inside = false)
    {pending : Client Live → Option String}
    (hlock : ∀ {client threadId}, pending client = some threadId → .thread threadId ∈ client.locks) :
    settled pending disk clients = disk.rows := by
  funext threadId
  apply settled_of_not_pending
  intro hsomewhere
  obtain ⟨j, hj⟩ := hsomewhere
  have hmem := hlock hj
  rw [Client.locks_of_not_inside (hquiet j)] at hmem
  cases hmem

/-- With nobody inside it is enough that the index is right. -/
theorem of_quiet (hquiet : ∀ j, (clients j).inside = false)
    (hdead : ∀ threadId, ¬disk.Live threadId → disk.rows threadId = [])
    (hwarm : ∀ live ∈ cache, ∀ threadId, part live threadId = firstRows (disk.rows threadId)) :
    Sound disk cache none clients := by
  have hlocks (j : Fin n) : (clients j).locks = [] := Client.locks_of_not_inside (hquiet j)
  constructor
  case exclusive =>
    intro j _ _ hlock _
    rw [hlocks j] at hlock
    cases hlock
  case dead => exact hdead
  case knows => exact fun j => Client.knows_of_not_inside (hquiet j)
  case warm =>
    intro live hlive threadId _
    rw [settled_of_quiet hquiet Client.lock_of_uncached]
    exact hwarm live hlive threadId
  case collected =>
    refine iff_of_false nofun fun hsomewhere => ?_
    obtain ⟨j, hj⟩ := hsomewhere
    have hmem := Client.lock_of_collects hj
    rw [hlocks j] at hmem
    cases hmem
  case journaled => exact nofun
  case builds =>
    intro j
    apply Client.builds_of_no_lock
    rw [hlocks j]
    exact List.not_mem_nil

theorem warm_of_quiet (h : Sound disk cache journal clients)
    (hquiet : ∀ j, (clients j).inside = false) {live : Live} (hlive : live ∈ cache)
    (threadId : String) : part live threadId = firstRows (disk.rows threadId) := by
  rw [h.warm live hlive threadId, settled_of_quiet hquiet Client.lock_of_uncached]
  intro hsomewhere
  obtain ⟨j, hj⟩ := hsomewhere
  have hmem := Client.lock_of_rewriting hj
  rw [Client.locks_of_not_inside (hquiet j)] at hmem
  cases hmem

theorem journal_of_quiet (h : Sound disk cache journal clients)
    (hquiet : ∀ j, (clients j).inside = false) : journal = none := by
  by_contra hjournal
  obtain ⟨j, hj⟩ := h.collected.mp (Option.isSome_iff_ne_none.mpr hjournal)
  have hmem := Client.lock_of_collects hj
  rw [Client.locks_of_not_inside (hquiet j)] at hmem
  cases hmem

end Quiet

end Sound

end TinyCortex.Conversations
