import TinyCortex.Conversations.WarmIndex

/-! Runs with one index carried over to another. The store only creates indexes and puts messages in and
threads out, so a translation that respects these three respects every step. -/

namespace TinyCortex.Conversations

variable {σ τ : Type} {n : Nat}

/-- A translation of indexes. -/
structure IndexApi.Hom (api : IndexApi σ) (api' : IndexApi τ) (f : σ → τ) : Prop where
  new : f api.new = api'.new
  insert : ∀ idx threadId message,
    f (api.insert idx threadId message) = api'.insert (f idx) threadId message
  removeThread : ∀ idx threadId, f (api.removeThread idx threadId) = api'.removeThread (f idx) threadId

namespace IndexApi.Hom

variable {api : IndexApi σ} {api' : IndexApi τ} {f : σ → τ}

theorem insertRows (h : api.Hom api' f) (idx : σ) (threadId : String)
    (rows : List ConversationMessage) :
    f (api.insertRows idx threadId rows) = api'.insertRows (f idx) threadId rows := by
  unfold IndexApi.insertRows
  induction rows generalizing idx with
  | nil => rfl
  | cons row rows ih => rw [List.foldl_cons, List.foldl_cons, ih, h.insert]

theorem insertAll (h : api.Hom api' f) (idx : σ) (entries : List (String × ConversationMessage)) :
    f (api.insertAll idx entries) = api'.insertAll (f idx) entries := by
  unfold IndexApi.insertAll
  induction entries generalizing idx with
  | nil => rfl
  | cons entry entries ih => rw [List.foldl_cons, List.foldl_cons, ih, h.insert]

end IndexApi.Hom

def SearchPc.map (f : σ → τ) : SearchPc σ → SearchPc τ
  | .waiting => .waiting
  | .entered => .entered
  | .cold => .cold
  | .building => .building
  | .started => .started
  | .scanning threadIds idx => .scanning threadIds (f idx)
  | .drained idx => .drained (f idx)
  | .primed => .primed

def Client.map (f : σ → τ) : Client σ → Client τ
  | .idle => .idle
  | .ensureThread pc request => .ensureThread pc request
  | .appendMessage pc threadId message => .appendMessage pc threadId message
  | .deleteMessagesFrom pc threadId messageId => .deleteMessagesFrom pc threadId messageId
  | .deleteThread threadId deletedAt => .deleteThread threadId deletedAt
  | .purge => .purge
  | .search pc => .search (pc.map f)

namespace Client

variable (f : σ → τ) (client : Client σ)

@[simp] theorem locks_map : (client.map f).locks = client.locks := by
  cases client with
  | ensureThread pc request => cases pc <;> rfl
  | appendMessage pc threadId message => cases pc <;> rfl
  | deleteMessagesFrom pc threadId messageId => cases pc <;> rfl
  | search pc => cases pc <;> rfl
  | _ => rfl

@[simp] theorem inside_map : (client.map f).inside = client.inside := by
  cases client with
  | ensureThread pc request => cases pc <;> rfl
  | appendMessage pc threadId message => cases pc <;> rfl
  | deleteMessagesFrom pc threadId messageId => cases pc <;> rfl
  | search pc => cases pc <;> rfl
  | _ => rfl

@[simp] theorem isIdle_map : (client.map f).isIdle = client.isIdle := by
  cases client <;> rfl

@[simp] theorem map_call (call : StoreCall) : (call.client : Client σ).map f = call.client := by
  cases call <;> rfl

end Client

namespace IndexWorld

def map (f : σ → τ) (world : IndexWorld n σ) : IndexWorld n τ where
  disk := world.disk
  cache := world.cache.map f
  journal := world.journal
  clients i := (world.clients i).map f

variable (f : σ → τ) (world : IndexWorld n σ)

@[simp] theorem map_goto (i : Fin n) (client : Client σ) :
    (world.goto i client).map f = (world.map f).goto i (client.map f) := by
  unfold goto map
  congr 1
  funext j
  change (Function.update world.clients i client j).map f =
    Function.update (fun k => (world.clients k).map f) i (client.map f) j
  by_cases hj : j = i
  · rw [hj, Function.update_self, Function.update_self]
  · rw [Function.update_of_ne hj, Function.update_of_ne hj]

@[simp] theorem map_disk : (world.map f).disk = world.disk := rfl

@[simp] theorem free_map (lock : Lock) : (world.map f).free lock ↔ world.free lock := by
  unfold free Locks.Free
  refine forall_congr' fun j => ?_
  change lock ∉ ((world.clients j).map f).locks ↔ _
  rw [Client.locks_map]

@[simp] theorem nobodyInside_map : (world.map f).nobodyInside ↔ world.nobodyInside := by
  unfold nobodyInside
  refine forall_congr' fun j => ?_
  change ((world.clients j).map f).inside = false ↔ _
  rw [Client.inside_map]

variable {f world} {api : IndexApi σ} {api' : IndexApi τ}

theorem map_ensureStep (i : Fin n) (request : CreateConversationThread) (pc : EnsurePc) :
    (world.ensureStep i request pc).map f = (world.map f).ensureStep i request pc := by
  cases pc <;> simp only [ensureStep, apply_ite (map f), map_goto, free_map] <;> rfl

theorem map_cache {g : σ → σ} {g' : τ → τ} (hcache : ∀ idx, f (g idx) = g' (f idx)) (cache : Option σ) :
    (cache.map g).map f = (cache.map f).map g' := by
  rw [Option.map_map, Option.map_map]
  congr 1
  funext idx
  exact hcache idx

theorem map_appendStep (h : api.Hom api' f) (i : Fin n) (threadId : String)
    (message : ConversationMessage) (pc : AppendPc) :
    (world.appendStep api i threadId message pc).map f =
      (world.map f).appendStep api' i threadId message pc := by
  cases pc with
  | found =>
      simp only [appendStep, map_disk]
      split
      · exact map_goto f world i _
      · exact map_goto f _ i _
  | journaled =>
      unfold appendStep
      rw [map_goto]
      congr 1
      unfold map
      congr 1
      exact map_cache (fun idx => h.insert idx threadId message) _
  | _ =>
      simp only [appendStep, apply_ite (map f), map_goto, free_map]
      rfl

theorem map_truncateStep (h : api.Hom api' f) (i : Fin n) (threadId messageId : String)
    (pc : TruncatePc) :
    (world.truncateStep api i threadId messageId pc).map f =
      (world.map f).truncateStep api' i threadId messageId pc := by
  cases pc with
  | locked =>
      simp only [truncateStep, map_disk]
      split
      · exact map_goto f world i _
      · exact map_goto f _ i _
  | rewritten kept =>
      unfold truncateStep
      rw [map_goto]
      congr 1
      unfold map
      congr 1
      apply map_cache
      intro idx
      rw [h.insertRows, h.removeThread]
  | _ =>
      simp only [truncateStep, apply_ite (map f), map_goto, free_map]
      rfl

theorem map_searchStep (h : api.Hom api' f) (i : Fin n) (pc : SearchPc σ) :
    (world.searchStep api i pc).map f = (world.map f).searchStep api' i (pc.map f) := by
  have hwarm : (world.map f).cache.isSome = world.cache.isSome := Option.isSome_map
  cases pc with
  | entered =>
      simp only [searchStep, SearchPc.map, map_goto, hwarm]
      split_ifs <;> rfl
  | building =>
      simp only [searchStep, SearchPc.map, apply_ite (map f), map_goto, hwarm]
      rfl
  | started =>
      simp only [searchStep, SearchPc.map, apply_ite (map f), map_goto, free_map, ← h.new]
      rfl
  | scanning threadIds idx =>
      cases threadIds with
      | nil =>
          simp only [searchStep, SearchPc.map, apply_ite (map f), map_goto, free_map, Client.map,
            h.insertAll]
          rfl
      | cons threadId threadIds =>
          simp only [searchStep, SearchPc.map, apply_ite (map f), map_goto, free_map, Client.map,
            h.insertRows]
          rfl
  | _ =>
      simp only [searchStep, SearchPc.map, apply_ite (map f), map_goto, free_map]
      rfl

theorem map_advance (h : api.Hom api' f) (i : Fin n) :
    (world.advance api i).map f = (world.map f).advance api' i := by
  have hclient : (world.map f).clients i = (world.clients i).map f := rfl
  unfold advance
  rw [hclient]
  cases world.clients i with
  | idle => rfl
  | ensureThread pc request => exact map_ensureStep i request pc
  | appendMessage pc threadId message => exact map_appendStep h i threadId message pc
  | deleteMessagesFrom pc threadId messageId => exact map_truncateStep h i threadId messageId pc
  | deleteThread threadId deletedAt =>
      simp only [Client.map, apply_ite (map f), map_goto, nobodyInside_map]
      congr 3
      unfold map
      congr 1
      exact map_cache (fun idx => h.removeThread idx threadId) _
  | purge =>
      simp only [Client.map, apply_ite (map f), map_goto, nobodyInside_map]
      rfl
  | search pc => exact map_searchStep h i pc

theorem map_step (h : api.Hom api' f) (label : IndexLabel n) :
    (world.step api label).map f = (world.map f).step api' label := by
  cases label with
  | start i call =>
      have hidle : ((world.map f).clients i).isIdle = (world.clients i).isIdle :=
        Client.isIdle_map f _
      simp only [step, apply_ite (map f), map_goto, Client.map_call, hidle]
  | advance i => exact map_advance h i
  | restart =>
      simp only [step, apply_ite (map f), nobodyInside_map]
      rfl

/-- A run with one index, translated, is the run with the other. -/
theorem map_run (h : api.Hom api' f) (labels : List (IndexLabel n)) :
    ((machine api n).run labels).map f = (machine api' n).run labels := by
  induction labels using List.reverseRecOn with
  | nil => rfl
  | append_singleton labels label ih =>
      rw [Machine.run_concat, Machine.run_concat, ← ih]
      exact map_step h label

end IndexWorld

end TinyCortex.Conversations
