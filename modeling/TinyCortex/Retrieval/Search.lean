import TinyCortex.Lib.KeyedStore
import TinyCortex.Lib.Like
import TinyCortex.Lib.Text
import TinyCortex.Score.EntityIndex

/-! `search_entities` (`retrieval/search.rs`): the entities that a text stands in, the most mentioned first. SQLite
folds the case of ASCII letters only, in `LOWER` and in `LIKE`. Groups of one rank come in the order of the table. -/

namespace TinyCortex.Retrieval

open Score

/-- A hit, with the kind as the table spells it. -/
structure EntityMatch where
  canonicalId : String
  kind : String
  surface : String
  mentionCount : Nat
  lastSeenMs : Int
  deriving DecidableEq, Repr

structure SearchLimits where
  searchDefaultLimit : Nat
  maxLimit : Nat
  deriving DecidableEq, Repr

def SearchLimits.normaliseLimit (limits : SearchLimits) (limit : Nat) : Nat :=
  if limit = 0 then limits.searchDefaultLimit else min limit limits.maxLimit

/-- `str::replace` of a character by itself behind a backslash. -/
def replaceChar (c : Char) (query : List Char) : List Char := query.flatMap fun d => if d = c then ['\\', d] else [d]

def escapeLikeLiteral (query : List Char) : List Char := replaceChar '_' (replaceChar '%' (replaceChar '\\' query))

/-- `LOWER(column) LIKE ?1 ESCAPE '\'`. -/
def lowerLike (pattern : List Char) (column : String) : Bool :=
  Like.likes Char.toLower '\\' pattern (column.toList.map Char.toLower)

/-- `AND entity_kind IN (…)`, which an empty list leaves out. -/
def ofKinds (kinds : Option (List String)) (row : IndexRow) : Bool :=
  kinds.all fun kinds => kinds.isEmpty || kinds.contains row.entityKind

/-- The `WHERE` clause. -/
def selects (pattern : List Char) (kinds : Option (List String)) (row : IndexRow) : Bool :=
  (lowerLike pattern row.entityId || lowerLike pattern row.surface) && ofKinds kinds row

/-- `GROUP BY entity_id, entity_kind`. -/
def entityOf (row : IndexRow) : String × String := (row.entityId, row.entityKind)

/-- The columns of a group. -/
def summarise (group : (String × String) × List IndexRow) : EntityMatch where
  canonicalId := group.1.1
  kind := group.1.2
  surface := ((group.2.map IndexRow.surface).max?).getD ""
  mentionCount := group.2.length
  lastSeenMs := ((group.2.map IndexRow.timestampMs).max?).getD 0

/-- `ORDER BY mention_count DESC, last_seen_ms DESC`. -/
def EntityMatch.notBelow (a b : EntityMatch) : Prop :=
  b.mentionCount < a.mentionCount ∨ (b.mentionCount = a.mentionCount ∧ b.lastSeenMs ≤ a.lastSeenMs)

instance (a b : EntityMatch) : Decidable (a.notBelow b) := inferInstanceAs (Decidable (_ ∨ _))

/-- `LIMIT`, bound as an `i64`, of which a negative one is none. -/
def limitRows (limit : Nat) (rows : List EntityMatch) : List EntityMatch :=
  if 2 ^ 63 ≤ limit then rows else rows.take limit

/-- `row_to_match` on every row; the first kind that is not known fails them all. -/
def rowsToMatches (rows : List EntityMatch) : Except String (List EntityMatch) :=
  match rows.find? fun row => decide (row.kind ∉ entityKinds) with
  | some row => .error ("unknown entity kind: " ++ row.kind)
  | none => .ok rows

/-- The statement, over the rows that its `WHERE` clause selects. -/
def strongest (limit : Nat) (rows : List IndexRow) : List EntityMatch :=
  limitRows limit (((Grouping.groups entityOf rows).map summarise).insertionSort EntityMatch.notBelow)

/-- `toLowercase` is `str::to_lowercase`. -/
def searchEntities (toLowercase : String → String) (limits : SearchLimits) (index : List IndexRow) (query : String)
    (kinds : Option (List String)) (limit : Nat) : Except String (List EntityMatch) :=
  let limit := limits.normaliseLimit limit
  let query := Text.trim query
  if query = "" then .ok []
  else
    let pattern := '%' :: (escapeLikeLiteral (toLowercase query).toList ++ ['%'])
    rowsToMatches (strongest limit (index.filter (selects pattern kinds)))

/-! ### What is looked for -/

/-- A text stands in another one, whatever the case of the ASCII letters. -/
def standsIn (needle : List Char) (column : String) : Prop :=
  needle.map Char.toLower <:+: column.toList.map Char.toLower

instance (needle : List Char) (column : String) : Decidable (standsIn needle column) :=
  inferInstanceAs (Decidable (_ <:+: _))

/-- The rows that a search is about. -/
def mentions (toLowercase : String → String) (index : List IndexRow) (query : String) (kinds : Option (List String)) :
    List IndexRow :=
  if Text.trim query = "" then []
  else
    let needle := (toLowercase (Text.trim query)).toList
    index.filter fun row => decide (standsIn needle row.entityId ∨ standsIn needle row.surface) && ofKinds kinds row

variable {needle : List Char} {kinds : Option (List String)} {rows : List IndexRow} {a b : EntityMatch}

theorem escapeLikeLiteral_eq : escapeLikeLiteral needle = needle.flatMap (Like.escapeChar '\\') := by
  simp only [escapeLikeLiteral, replaceChar, List.flatMap_assoc]
  congr 1
  funext c
  simp only [Like.escapeChar]
  by_cases hback : c = '\\'
  · simp [hback]
  · by_cases hany : c = '%'
    · simp [hany]
    · simp [hback, hany]

/-- A wildcard of the query is looked for as itself. -/
theorem lowerLike_iff {column : String} :
    lowerLike ('%' :: (escapeLikeLiteral needle ++ ['%'])) column = true ↔ standsIn needle column := by
  have hfolded : (column.toList.map Char.toLower).map Char.toLower = column.toList.map Char.toLower := by
    rw [List.map_map]
    exact List.map_congr_left fun c _ => Like.toLower_idem c
  rw [lowerLike, escapeLikeLiteral_eq, Like.likes_escaped_iff (by decide), hfolded]
  rfl

/-! ### Groups -/

theorem notBelow_trans {c : EntityMatch} (hab : a.notBelow b) (hbc : b.notBelow c) : a.notBelow c := by
  simp only [EntityMatch.notBelow] at *
  omega

theorem notBelow_total (a b : EntityMatch) : a.notBelow b ∨ b.notBelow a := by
  simp only [EntityMatch.notBelow]
  omega

/-- What a hit says of the rows that are looked through: they are all rows of its entity, and the newest and the last
surface are among theirs. -/
structure EntityMatch.Describes (rows : List IndexRow) (found : EntityMatch) : Prop where
  counted : found.mentionCount = (rows.filter fun row => entityOf row = (found.canonicalId, found.kind)).length
  lastSeen : ∃ row ∈ rows, entityOf row = (found.canonicalId, found.kind) ∧ row.timestampMs = found.lastSeenMs
  newest : ∀ row ∈ rows, entityOf row = (found.canonicalId, found.kind) → row.timestampMs ≤ found.lastSeenMs
  spelled : ∃ row ∈ rows, entityOf row = (found.canonicalId, found.kind) ∧ row.surface = found.surface
  greatest : ∀ row ∈ rows, entityOf row = (found.canonicalId, found.kind) → row.surface ≤ found.surface

/-- The greatest of the values that a column has in some rows. -/
theorem max?_column {α : Type*} [LinearOrder α] (column : IndexRow → α) (default : α) (hne : rows ≠ []) :
    (∃ row ∈ rows, column row = ((rows.map column).max?).getD default) ∧
      ∀ row ∈ rows, column row ≤ ((rows.map column).max?).getD default := by
  cases hmax : (rows.map column).max? with
  | none => exact absurd (List.map_eq_nil_iff.mp (List.max?_eq_none_iff.mp hmax)) hne
  | some greatest =>
      obtain ⟨hmem, hle⟩ := List.max?_eq_some_iff.mp hmax
      exact ⟨List.mem_map.mp hmem, fun row hrow => hle _ (List.mem_map_of_mem hrow)⟩

theorem describes_summarise {group : (String × String) × List IndexRow} (h : group ∈ Grouping.groups entityOf rows) :
    (summarise group).Describes rows := by
  obtain ⟨entity, members⟩ := group
  have hmembers : members = rows.filter fun row => entityOf row = entity := Grouping.mem_groups h
  have hkey : entity ∈ rows.map entityOf := Grouping.mem_keys_groups.mp (List.mem_map_of_mem h)
  have hmem : ∀ row, row ∈ members ↔ row ∈ rows ∧ entityOf row = entity := by simp [hmembers]
  have hne : members ≠ [] := by
    obtain ⟨row, hrow, hentity⟩ := List.mem_map.mp hkey
    exact List.ne_nil_of_mem ((hmem row).mpr ⟨hrow, hentity⟩)
  obtain ⟨⟨last, hlast, hseen⟩, hnewest⟩ := max?_column IndexRow.timestampMs 0 hne
  obtain ⟨⟨sample, hsample, hspelled⟩, hgreatest⟩ := max?_column IndexRow.surface "" hne
  exact {
    counted := congrArg List.length hmembers
    lastSeen := ⟨last, ((hmem last).mp hlast).1, ((hmem last).mp hlast).2, hseen⟩
    newest := fun row hrow hentity => hnewest row ((hmem row).mpr ⟨hrow, hentity⟩)
    spelled := ⟨sample, ((hmem sample).mp hsample).1, ((hmem sample).mp hsample).2, hspelled⟩
    greatest := fun row hrow hentity => hgreatest row ((hmem row).mpr ⟨hrow, hentity⟩) }

/-- The rows leave one way to describe an entity. -/
theorem EntityMatch.Describes.unique (ha : a.Describes rows) (hb : b.Describes rows)
    (hid : a.canonicalId = b.canonicalId) (hkind : a.kind = b.kind) : a = b := by
  have hentity : (a.canonicalId, a.kind) = (b.canonicalId, b.kind) := by rw [hid, hkind]
  have hcount : a.mentionCount = b.mentionCount := by rw [ha.counted, hb.counted, hentity]
  have hseen : a.lastSeenMs = b.lastSeenMs := by
    obtain ⟨row, hrow, hsame, hlast⟩ := ha.lastSeen
    obtain ⟨row', hrow', hsame', hlast'⟩ := hb.lastSeen
    have hle := ha.newest row' hrow' (hsame'.trans hentity.symm)
    have hge := hb.newest row hrow (hsame.trans hentity)
    omega
  have hsurface : a.surface = b.surface := by
    obtain ⟨row, hrow, hsame, hspelled⟩ := ha.spelled
    obtain ⟨row', hrow', hsame', hspelled'⟩ := hb.spelled
    apply le_antisymm
    · rw [← hspelled]
      exact hb.greatest row hrow (hsame.trans hentity)
    · rw [← hspelled']
      exact ha.greatest row' hrow' (hsame'.trans hentity.symm)
  cases a
  cases b
  simp only [EntityMatch.mk.injEq]
  exact ⟨hid, hkind, hsurface, hcount, hseen⟩

/-! ### The ranking -/

/-- The hits of a search: each entity once, with all of its rows, the strongest first, and none left out for one that
ranks below it. -/
structure Ranked (limit : Nat) (rows : List IndexRow) (found : List EntityMatch) : Prop where
  once : (found.map fun hit => (hit.canonicalId, hit.kind)).Nodup
  described : ∀ hit ∈ found, hit.Describes rows
  ordered : found.Pairwise EntityMatch.notBelow
  within : limit < 2 ^ 63 → found.length ≤ limit
  complete : ∀ other : EntityMatch, other.Describes rows →
    other ∈ found ∨ found.length = limit ∧ ∀ hit ∈ found, hit.notBelow other

theorem entities_summarise (groups : List ((String × String) × List IndexRow)) :
    (groups.map summarise).map (fun hit => (hit.canonicalId, hit.kind)) = groups.map Prod.fst := by
  rw [List.map_map]
  rfl

/-- What a limit leaves of the groups is their strongest part. -/
theorem split_strongest (limit : Nat) (rows : List IndexRow) : ∃ rest,
    (strongest limit rows ++ rest).Perm ((Grouping.groups entityOf rows).map summarise) ∧
    (strongest limit rows ++ rest).Pairwise EntityMatch.notBelow ∧
    (rest = [] ∨ (strongest limit rows).length = limit) ∧
    (limit < 2 ^ 63 → (strongest limit rows).length ≤ limit) := by
  have hperm := List.perm_insertionSort EntityMatch.notBelow ((Grouping.groups entityOf rows).map summarise)
  have hsorted : (((Grouping.groups entityOf rows).map summarise).insertionSort
      EntityMatch.notBelow).Pairwise EntityMatch.notBelow := by
    have : Std.Total EntityMatch.notBelow := ⟨notBelow_total⟩
    have : IsTrans EntityMatch EntityMatch.notBelow := ⟨fun _ _ _ => notBelow_trans⟩
    exact List.pairwise_insertionSort _ _
  rw [strongest, limitRows]
  generalize ((Grouping.groups entityOf rows).map summarise).insertionSort EntityMatch.notBelow = sorted at *
  by_cases hnone : 2 ^ 63 ≤ limit
  · rw [if_pos hnone]
    refine ⟨[], ?_, ?_, Or.inl rfl, fun h => absurd hnone (by omega)⟩
    · rwa [List.append_nil]
    · rwa [List.append_nil]
  · rw [if_neg hnone]
    refine ⟨sorted.drop limit, ?_, ?_, ?_, fun _ => List.length_take_le _ _⟩
    · rwa [List.take_append_drop]
    · rwa [List.take_append_drop]
    · by_cases hlength : limit ≤ sorted.length
      · exact Or.inr (List.length_take_of_le hlength)
      · exact Or.inl (List.drop_eq_nil_of_le (by omega))

theorem ranked_strongest (limit : Nat) (rows : List IndexRow) : Ranked limit rows (strongest limit rows) := by
  obtain ⟨rest, hperm, hsorted, hrest, hwithin⟩ := split_strongest limit rows
  have hmem : ∀ hit, hit ∈ strongest limit rows ∨ hit ∈ rest ↔ ∃ group ∈ Grouping.groups entityOf rows,
      summarise group = hit := by
    intro hit
    rw [← List.mem_append, hperm.mem_iff, List.mem_map]
  refine ⟨?_, ?_, (List.pairwise_append.mp hsorted).1, hwithin, ?_⟩
  · have hnodup := (hperm.map fun hit => (hit.canonicalId, hit.kind)).nodup_iff.mpr
      (entities_summarise (Grouping.groups entityOf rows) ▸ Grouping.nodup_keys entityOf rows)
    rw [List.map_append] at hnodup
    exact hnodup.of_append_left
  · intro hit hhit
    obtain ⟨group, hgroup, hsummary⟩ := (hmem hit).mp (Or.inl hhit)
    rw [← hsummary]
    exact describes_summarise hgroup
  · intro other hother
    obtain ⟨row, hrow, hentity, -⟩ := hother.lastSeen
    have hkey : entityOf row ∈ rows.map entityOf := List.mem_map_of_mem hrow
    obtain ⟨group, hgroup, hsame⟩ := List.mem_map.mp (Grouping.mem_keys_groups.mpr hkey)
    have heq : summarise group = other := by
      have hboth := hsame.trans hentity
      exact (describes_summarise hgroup).unique hother (congrArg Prod.fst hboth) (congrArg Prod.snd hboth)
    rcases (hmem other).mpr ⟨group, hgroup, heq⟩ with hfound | hleft
    · exact Or.inl hfound
    · refine Or.inr ⟨hrest.resolve_left (List.ne_nil_of_mem hleft), fun hit hhit => ?_⟩
      exact (List.pairwise_append.mp hsorted).2.2 hit hhit other hleft

theorem ranked_nil (limit : Nat) : Ranked limit [] [] where
  once := List.nodup_nil
  described := by simp
  ordered := List.Pairwise.nil
  within := fun _ => Nat.zero_le limit
  complete := by
    intro other hother
    obtain ⟨row, hrow, -⟩ := hother.lastSeen
    exact absurd hrow List.not_mem_nil

/-! ### The search -/

theorem selects_eq : selects ('%' :: (escapeLikeLiteral needle ++ ['%'])) kinds = fun row =>
    decide (standsIn needle row.entityId ∨ standsIn needle row.surface) && ofKinds kinds row := by
  funext row
  rw [selects]
  congr 1
  rw [Bool.eq_iff_iff, Bool.or_eq_true, lowerLike_iff, lowerLike_iff, decide_eq_true_eq]

/-- The query's own wildcard is no wildcard, and the case of its letters is nothing. -/
example : searchEntities String.toLower ⟨5, 100⟩
    [⟨"topic:r_d", "n1", "leaf", "topic", "R_D", 1, none⟩, ⟨"topic:rnd", "n1", "leaf", "topic", "RnD", 1, none⟩]
    " R_d " none 0 = .ok [⟨"topic:r_d", "topic", "R_D", 1, 1⟩] := by decide +kernel

end TinyCortex.Retrieval
