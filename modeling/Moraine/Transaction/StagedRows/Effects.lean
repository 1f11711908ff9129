-- SUMMARY: What staged rows do to the tables, columns, indexes and column mappings of the working view.
import Moraine.Transaction.StagedRows.Apply

/-!
# Effects of staged rows

What a row does to one table or one column is an event of that entity. `Follows` says what an accepted row does
to the maps that later proofs follow through a batch: a table or column takes the row's event, indexes are left
alone, column mappings are never lost, and records keep their keys. It is read off the translator once, one lemma
per operation.
-/

namespace Moraine.StagedRows

open Std (ExtTreeMap)
open OrdMap Results CatalogSnapshot

/-! ## Events -/

/-- What a row does to one table. -/
inductive TableEvent where
  | version (value : TableValue)
  | ended
  deriving DecidableEq

/-- What a row does to one column. -/
inductive ColumnEvent where
  | version (value : ColumnValue)
  | ended
  | tagged (entry : ColumnTag)
  | tagEnded (key : String)
  | tagDeleted (key : String) (beginSnapshot : Nat)
  deriving DecidableEq

section Events

variable (base : CatalogSnapshot) (newId : Nat)

def TableEvent.apply : TableEvent → Option TableValue → Option TableValue
  | .version value, _ => some value
  | .ended, _ => none

def ColumnEvent.apply : ColumnEvent → Option ColumnValue → Option ColumnValue
  | .version value, _ => some (carryTags base value)
  | .ended, _ => none
  | .tagged entry, column => column.map fun c => { c with tags := c.tags ++ [entry] }
  | .tagEnded key, column => column.bind (endColumnTag key newId)
  | .tagDeleted key beginSnapshot, column => column.map fun c =>
    { c with tags := c.tags.filter fun t => ¬ (t.key = key ∧ t.beginSnapshot = beginSnapshot) }

/-- The event of a row at table `t`. -/
def tableEvent (t : Nat) : RowOperation → Option TableEvent
  | .insert .table cells =>
    match decodeTable cells with
    | .ok row => if t = row.tableId then some (.version (tableValue base row)) else none
    | .error _ => none
  | .updateSetEnd .table cells =>
    match decodeEnd .table cells with
    | .ok (.table t', _) => if t = t' then some .ended else none
    | _ => none
  | _ => none

/-- The event of a row at column `c` of table `t`. -/
def columnEvent (t c : Nat) : RowOperation → Option ColumnEvent
  | .insert .column cells =>
    match decodeColumn cells with
    | .ok value => if t = value.tableId ∧ c = value.columnId then some (.version value) else none
    | .error _ => none
  | .insert .columnTag cells =>
    match decodeColumnTagRow cells with
    | .ok ((t', c'), entry) => if t = t' ∧ c = c' then some (.tagged entry) else none
    | .error _ => none
  | .updateSetEnd .column cells =>
    match decodeEnd .column cells with
    | .ok (.column t' c', _) => if t = t' ∧ c = c' then some .ended else none
    | _ => none
  | .updateSetEnd .columnTag cells =>
    match decodeColumnTagEnd cells with
    | .ok (t', c', key, _) => if t = t' ∧ c = c' then some (.tagEnded key) else none
    | .error _ => none
  | .delete .columnTag cells =>
    match decodeColumnTagDelete cells with
    | .ok (t', c', key, beginSnapshot) =>
      if t = t' ∧ c = c' then some (.tagDeleted key beginSnapshot) else none
    | .error _ => none
  | _ => none

/-- The deletions a row stages past the diff. -/
def directWrites : RowOperation → List StagedWrite
  | .delete .snapshot cells =>
    match Cursor.row .snapshot cells Cursor.u64 with
    | .ok snapshotId => [.snapshot snapshotId none]
    | .error _ => []
  | .delete .schemaVersions cells =>
    match decodeSchemaVersionRow cells with
    | .ok (tableId, beginSnapshot, _) => [.schemaVersion tableId beginSnapshot none]
    | .error _ => []
  | .delete kind cells =>
    match decodeHardDelete kind cells with
    | .ok (entity, some ended) => [.history ⟨entity, ended⟩ none]
    | .ok (entity, none) => [.current (.entity entity) none]
    | .error _ => []
  | _ => []

/-- The rows that may have an event at a table or a column. -/
def isFollowed : RowOperation → Bool
  | .insert .table _ | .insert .column _ | .insert .columnTag _ | .updateSetEnd .table _ | .updateSetEnd .column _
  | .updateSetEnd .columnTag _ | .delete .columnTag _ => true
  | _ => false

/-- A row's effect on the followed parts of the working state. -/
structure Follows (op : RowOperation) (a a' : Applied) : Prop where
  keyed : a.state.WellKeyed → a'.state.WellKeyed
  table : ∀ t, a'.state.tables[t]? = (tableEvent base t op).elim a.state.tables[t]? (·.apply a.state.tables[t]?)
  column : ∀ t c, getNested a'.state.columns t c =
    (columnEvent t c op).elim (getNested a.state.columns t c) (·.apply base newId (getNested a.state.columns t c))
  /-- A row that ends a tag finds it. -/
  found : ∀ t c key, columnEvent t c op = some (.tagEnded key) →
    (getNested a.state.columns t c).bind (endColumnTag key newId) ≠ none
  indexes : a'.state.indexes = a.state.indexes
  mapping : ∀ t m value, getNested a.state.mappings t m = some value → getNested a'.state.mappings t m = some value
  direct : a'.direct = a.direct ++ directWrites op

end Events

section Rows

variable {base : CatalogSnapshot} {newId : Nat} {hardDeleted : List EntityKey} {op : RowOperation}
  {v w : CatalogSnapshot} {a a' : Applied} {kind : TableKind} {cells : List Cell}

theorem wellKeyed_of_get (hv : v.WellKeyed) (h : ∀ k r, w.get k = some r → v.get k = some r) : w.WellKeyed :=
  fun k r hr => hv k r (h k r hr)

theorem no_event (h : isFollowed op = false) :
    (∀ t, tableEvent base t op = none) ∧ ∀ t c, columnEvent t c op = none := by
  cases op
  case insert kind _ | delete kind _ | updateSetEnd kind _ | updateSetBegin kind _ =>
    cases kind <;> first | exact ⟨fun _ => rfl, fun _ _ => rfl⟩ | cases h
  all_goals exact ⟨fun _ => rfl, fun _ _ => rfl⟩

/-- A row without an event at a table or a column. -/
theorem Follows.frame (hop : isFollowed op = false) (hdirect : a'.direct = a.direct ++ directWrites op)
    (hkept : (a'.state.tables, a'.state.columns, a'.state.indexes, a'.state.mappings) =
      (a.state.tables, a.state.columns, a.state.indexes, a.state.mappings))
    (hkeyed : a.state.WellKeyed → a'.state.WellKeyed) : Follows base newId op a a' := by
  have ⟨htable, hcolumn⟩ : (∀ t, tableEvent base t op = none) ∧ _ := no_event hop
  simp only [Prod.mk.injEq] at hkept
  obtain ⟨htables, hcolumns, hindexes, hmappings⟩ := hkept
  exact {
    keyed := hkeyed
    table := fun t => by rw [htable, htables]; rfl
    column := fun t c => by rw [hcolumn, hcolumns]; rfl
    found := fun t c key h => by rw [hcolumn] at h; cases h
    indexes := hindexes
    mapping := fun t m value h => by rwa [hmappings]
    direct := hdirect }

/-- A row that puts one record, or removes some, and has no event. -/
theorem Follows.quiet (hop : isFollowed op = false) (hdirect : directWrites op = [])
    (hkept : (a'.direct, a'.state.tables, a'.state.columns, a'.state.indexes, a'.state.mappings) =
      (a.direct, a.state.tables, a.state.columns, a.state.indexes, a.state.mappings))
    (hkeyed : a.state.WellKeyed → a'.state.WellKeyed) : Follows base newId op a a' := by
  obtain ⟨ha, hkept⟩ := Prod.mk.inj hkept
  exact .frame hop (by rw [hdirect, List.append_nil, ha]) hkept hkeyed

/-- A row that leaves the view as it is. -/
theorem Follows.refl (hop : isFollowed op = false) (hdirect : a'.direct = a.direct ++ directWrites op)
    (hstate : a'.state = a.state) : Follows base newId op a a' :=
  .frame hop hdirect (by rw [hstate]) fun hv => hstate ▸ hv

theorem keyed_column (hv : v.WellKeyed) {t c : Nat} {column : ColumnValue}
    (h : getNested v.columns t c = some column) : column.tableId = t ∧ column.columnId = c := by
  have hkey := hv (.entity (.column t c)) (.column column) (by simp [CatalogSnapshot.get, h])
  simpa [EntityRecord.key] using hkey

/-- A row whose event changes one column. -/
theorem Follows.atColumn {t c : Nat} {e : ColumnEvent} {columns : Nested Nat Nat ColumnValue}
    (htable : ∀ t, tableEvent base t op = none) (hdirect : directWrites op = [])
    (hevent : ∀ t' c', columnEvent t' c' op = if t' = t ∧ c' = c then some e else none)
    (hcolumns : ∀ t' c', getNested columns t' c' =
      if t' = t ∧ c' = c then e.apply base newId (getNested a.state.columns t c)
      else getNested a.state.columns t' c')
    (hkey : ∀ value, a.state.WellKeyed → e.apply base newId (getNested a.state.columns t c) = some value →
      value.tableId = t ∧ value.columnId = c)
    (hfound : ∀ key, e = .tagEnded key → e.apply base newId (getNested a.state.columns t c) ≠ none) :
    Follows base newId op a { a with state := { a.state with columns } } where
  keyed hv k r h := by
    rcases k with (_ | _ | _ | ⟨t', c'⟩ | _ | _ | _ | _ | _ | _ | _ | _ | _ | _ | _ | _) | _
    case entity.column =>
      simp only [CatalogSnapshot.get, hcolumns, Option.map_eq_some_iff] at h
      obtain ⟨value, hvalue, rfl⟩ := h
      split at hvalue
      · next heq =>
        obtain ⟨ht, hc⟩ := hkey value hv hvalue
        simp [EntityRecord.key, ht, hc, heq]
      · exact hv (.entity (.column t' c')) (.column value) (by simp [CatalogSnapshot.get, hvalue])
    all_goals exact hv _ r h
  table t' := by rw [htable]; rfl
  column t' c' := by
    rw [hevent, hcolumns]
    split
    · next heq => obtain ⟨rfl, rfl⟩ := heq; rfl
    · rfl
  found t' c' key h := by
    rw [hevent] at h
    split at h
    · next heq =>
      obtain ⟨rfl, rfl⟩ := heq
      cases h
      exact hfound key rfl
    · cases h
  indexes := rfl
  mapping _ _ _ h := h
  direct := by rw [hdirect, List.append_nil]

theorem keyed_tag (hv : v.WellKeyed) {objectId : Nat} {container : TagValue}
    (h : v.tags[objectId]? = some container) : container.objectId = objectId := by
  have hkey := hv (.entity (.tag objectId)) (.tag container) (by simp [CatalogSnapshot.get, h])
  simpa [EntityRecord.key] using hkey

theorem keyed_container (hv : v.WellKeyed) (objectId : Nat) :
    ((v.tags[objectId]?).getD ⟨objectId, []⟩).objectId = objectId := by
  cases h : v.tags[objectId]? with
  | none => rfl
  | some container => exact keyed_tag hv h

theorem wellKeyed_insertTag (hv : v.WellKeyed) {objectId : Nat} {container : TagValue}
    (h : container.objectId = objectId) :
    CatalogSnapshot.WellKeyed { v with tags := v.tags.insert objectId container } := by
  subst h
  exact hv.putRecord (.tag container)

/-- A row whose event changes one table. -/
theorem Follows.atTable {t : Nat} {e : TableEvent}
    (hevent : ∀ t', tableEvent base t' op = if t' = t then some e else none)
    (hcolumn : ∀ t c, columnEvent t c op = none)
    (htables : ∀ t', w.tables[t']? = if t' = t then e.apply a.state.tables[t]? else a.state.tables[t']?)
    (hdirect : directWrites op = []) (hkeyed : a.state.WellKeyed → w.WellKeyed)
    (hcolumns : w.columns = a.state.columns) (hindexes : w.indexes = a.state.indexes)
    (hmappings : w.mappings = a.state.mappings) : Follows base newId op a { a with state := w } where
  keyed := hkeyed
  table t' := by
    rw [hevent, htables]
    split
    · next heq => subst heq; rfl
    · rfl
  column t c := by rw [hcolumn, hcolumns]; rfl
  found t c key h := by rw [hcolumn] at h; cases h
  indexes := hindexes
  mapping t m value h := by rwa [hmappings]
  direct := by rw [hdirect, List.append_nil]

/-! ## Inserts -/

theorem carryTags_key (base : CatalogSnapshot) (value : ColumnValue) :
    (carryTags base value).tableId = value.tableId ∧ (carryTags base value).columnId = value.columnId := by
  unfold carryTags
  split <;> exact ⟨rfl, rfl⟩

theorem applyPut_eq_ok {V : Type} {decoded : Except Error V} {put : CatalogSnapshot → V → CatalogSnapshot}
    (h : applyPut decoded put a = .ok a') :
    ∃ value, decoded = .ok value ∧ a' = { a with state := put a.state value } := by
  obtain ⟨value, hvalue, h⟩ := bind_eq_ok.mp h
  cases h
  exact ⟨value, hvalue, rfl⟩

theorem applyMacroInsert_eq_ok (h : applyMacroInsert a cells = .ok a') :
    ∃ value children, a' = { a with state := a.state.putMacro value, children } := by
  obtain ⟨value, -, h⟩ := bind_eq_ok.mp h
  split at h
  · cases h
  · obtain ⟨_, -, h⟩ := bind_eq_ok.mp h
    obtain ⟨⟨implementations, _⟩, -, h⟩ := bind_eq_ok.mp h
    cases h
    exact ⟨_, _, rfl⟩

theorem applyMappingInsert_eq_ok (h : applyMappingInsert a cells = .ok a') :
    ∃ value children, getNested a.state.mappings value.tableId value.mappingId = none ∧
      a' = { a with state := a.state.putMapping value, children } := by
  obtain ⟨value, -, h⟩ := bind_eq_ok.mp h
  split at h
  · cases h
  · next first rest _ =>
    obtain ⟨_, -, h⟩ := bind_eq_ok.mp h
    split at h
    · cases h
    · next habsent =>
      cases h
      exact ⟨{ value with nameMappings := first :: rest }, _, by simpa using habsent, rfl⟩

theorem applyMappingInsert_follows (h : applyMappingInsert a cells = .ok a') :
    Follows base newId (.insert .columnMapping cells) a a' := by
  obtain ⟨value, children, habsent, rfl⟩ := applyMappingInsert_eq_ok h
  exact {
    direct := (List.append_nil _).symm
    keyed := fun hv => hv.putRecord (.mapping value)
    table := fun _ => rfl
    column := fun _ _ => rfl
    found := fun _ _ _ h => by cases h
    indexes := rfl
    mapping := fun t m value' h => by
      simp only [putMapping, getNested_putNested]
      split
      · next hkey => simp_all
      · exact h }

theorem applyColumnInsert_follows (h : applyColumnInsert base a cells = .ok a') :
    Follows base newId (.insert .column cells) a a' := by
  obtain ⟨value, hvalue, h⟩ := bind_eq_ok.mp h
  obtain ⟨_, -, h⟩ := bind_eq_ok.mp h
  cases h
  have hkey := carryTags_key base value
  refine .atColumn (t := value.tableId) (c := value.columnId) (e := .version value) (fun _ => rfl) rfl ?_ ?_ ?_
    (by simp)
  · intro t c
    simp only [columnEvent, hvalue]
  · intro t c
    simp only [getNested_putNested, hkey, ColumnEvent.apply]
  · rintro _ - ⟨⟩
    exact hkey

theorem applyColumnTagInsert_follows (h : applyColumnTagInsert a cells = .ok a') :
    Follows base newId (.insert .columnTag cells) a a' := by
  obtain ⟨⟨⟨t, c⟩, entry⟩, hrow, h⟩ := bind_eq_ok.mp h
  cases hcolumn : getNested a.state.columns t c with
  | none => simp only [hcolumn] at h; cases h
  | some column =>
    simp only [hcolumn] at h
    cases h
    refine .atColumn (t := t) (c := c) (e := .tagged entry) (fun _ => rfl) rfl ?_ ?_ ?_ (by simp)
    · intro t' c'
      simp only [columnEvent, hrow]
    · intro t' c'
      simp only [getNested_putNested, hcolumn, ColumnEvent.apply, Option.map_some]
    · rintro _ hv heq
      simp only [ColumnEvent.apply, hcolumn, Option.map_some, Option.some.injEq] at heq
      have hkey := keyed_column hv hcolumn
      subst heq
      exact hkey

theorem applyTagInsert_follows (h : applyTagInsert a cells = .ok a') :
    Follows base newId (.insert .tag cells) a a' := by
  obtain ⟨⟨objectId, entry⟩, -, h⟩ := bind_eq_ok.mp h
  cases h
  refine .quiet rfl rfl rfl fun hv => ?_
  exact wellKeyed_insertTag hv (keyed_container hv objectId)

theorem applyInsert_follows (h : applyInsert base a kind cells = .ok a') :
    Follows base newId (.insert kind cells) a a' := by
  cases kind
  case snapshot | snapshotChanges | schemaVersions | partitionColumn | sortExpression | filePartitionValue
      | macroImpl | macroParameters | nameMapping =>
    cases h
    exact .refl rfl (List.append_nil _).symm rfl
  case metadata =>
    obtain ⟨⟨components, key, value⟩, -, h⟩ := bind_eq_ok.mp h
    cases h
    exact .quiet rfl rfl rfl fun hv => hv.putRecord (.option components.1 components.2 _)
  case schema =>
    obtain ⟨value, -, h⟩ := bind_eq_ok.mp h
    obtain ⟨_, -, h⟩ := bind_eq_ok.mp h
    cases h
    exact .quiet rfl rfl rfl fun hv => hv.putRecord (.schema value)
  case table =>
    obtain ⟨value, hvalue, rfl⟩ := applyPut_eq_ok h
    obtain ⟨row, hrow, rfl⟩ := map_eq_ok.mp hvalue
    refine .atTable (t := row.tableId) (e := .version (tableValue base row)) ?_ (fun _ _ => rfl) ?_
      rfl (fun hv => hv.putRecord (.table (tableValue base row))) rfl rfl rfl
    · intro t
      simp only [tableEvent, hrow]
    · intro t
      simp only [putTable, getElem?_putNamed]
      rfl
  case view =>
    obtain ⟨value, -, rfl⟩ := applyPut_eq_ok h
    exact .quiet rfl rfl rfl fun hv => hv.putRecord (.view value)
  case column => exact applyColumnInsert_follows h
  case dataFile =>
    obtain ⟨value, -, h⟩ := bind_eq_ok.mp h
    obtain ⟨_, -, h⟩ := bind_eq_ok.mp h
    cases h
    exact .quiet rfl rfl rfl fun hv => hv.putRecord (.file _)
  case deleteFile =>
    obtain ⟨value, -, h⟩ := bind_eq_ok.mp h
    obtain ⟨_, -, h⟩ := bind_eq_ok.mp h
    cases h
    exact .quiet rfl rfl rfl fun hv => hv.putRecord (.deleteFile _)
  case partitionInfo =>
    obtain ⟨value, -, h⟩ := bind_eq_ok.mp h
    cases h
    exact .quiet rfl rfl rfl fun hv => hv.putRecord (.partition _)
  case sortInfo =>
    obtain ⟨value, -, h⟩ := bind_eq_ok.mp h
    cases h
    exact .quiet rfl rfl rfl fun hv => hv.putRecord (.sort _)
  case macroDef =>
    obtain ⟨value, children, rfl⟩ := applyMacroInsert_eq_ok h
    exact .quiet rfl rfl rfl fun hv => hv.putRecord (.macroDef value)
  case columnMapping => exact applyMappingInsert_follows h
  case tableStats =>
    obtain ⟨value, -, rfl⟩ := applyPut_eq_ok h
    exact .quiet rfl rfl rfl fun hv => hv.putRecord (.tableStats value)
  case tableColumnStats =>
    obtain ⟨value, -, rfl⟩ := applyPut_eq_ok h
    exact .quiet rfl rfl rfl fun hv => hv.putRecord (.tableColumnStats value)
  case fileColumnStats =>
    obtain ⟨value, -, rfl⟩ := applyPut_eq_ok h
    exact .quiet rfl rfl rfl fun hv => hv.putRecord (.fileColumnStats value)
  case filesScheduledForDeletion =>
    obtain ⟨value, -, rfl⟩ := applyPut_eq_ok h
    exact .quiet rfl rfl rfl fun hv => hv.putRecord (.gcFile value)
  case tag => exact applyTagInsert_follows h
  case columnTag => exact applyColumnTagInsert_follows h

/-! ## Ends -/

theorem removeRow_get (v : CatalogSnapshot) (key : EntityKey) (k : CurrentKey) (r : EntityRecord)
    (h : (removeRow v key).get k = some r) : v.get k = some r := by
  cases key <;> rcases k with ⟨⟨⟩⟩ | _ <;>
    first
    | exact h
    | revert h; simp +contextual [removeRow, deletePartition, deleteSort, CatalogSnapshot.get]

theorem endColumnTag_key {key : String} {column ended : ColumnValue} (h : endColumnTag key newId column = some ended) :
    ended.tableId = column.tableId ∧ ended.columnId = column.columnId := by
  obtain ⟨tags, -, rfl⟩ := Option.map_eq_some_iff.mp h
  exact ⟨rfl, rfl⟩

theorem applyColumnTagSetEnd_follows (h : applyColumnTagSetEnd a cells newId = .ok a') :
    Follows base newId (.updateSetEnd .columnTag cells) a a' := by
  obtain ⟨⟨t, c, key, endSnapshot⟩, hrow, h⟩ := bind_eq_ok.mp h
  obtain ⟨_, -, h⟩ := bind_eq_ok.mp h
  cases hended : (getNested a.state.columns t c).bind (endColumnTag key newId) with
  | none => simp only [hended] at h; cases h
  | some column =>
    simp only [hended] at h
    cases h
    refine .atColumn (t := t) (c := c) (e := .tagEnded key) (fun _ => rfl) rfl ?_ ?_ ?_
      (by simp [ColumnEvent.apply, hended])
    · intro t' c'
      simp only [columnEvent, hrow]
    · intro t' c'
      simp only [getNested_putNested, ColumnEvent.apply, hended]
    · intro value hv heq
      obtain ⟨old, hold, hvalue⟩ := Option.bind_eq_some_iff.mp heq
      have hkey := endColumnTag_key hvalue
      have hown := keyed_column hv hold
      exact ⟨hkey.1.trans hown.1, hkey.2.trans hown.2⟩

theorem applyTagSetEnd_follows (h : applyTagSetEnd a cells newId = .ok a') :
    Follows base newId (.updateSetEnd .tag cells) a a' := by
  obtain ⟨⟨objectId, key, endSnapshot⟩, -, h⟩ := bind_eq_ok.mp h
  obtain ⟨_, -, h⟩ := bind_eq_ok.mp h
  dsimp only at h
  split at h
  · next container hcontainer =>
    cases h
    refine .quiet rfl rfl rfl fun hv => wellKeyed_insertTag hv ?_
    obtain ⟨old, hold, hended⟩ := Option.bind_eq_some_iff.mp hcontainer
    obtain ⟨entries, -, rfl⟩ := Option.map_eq_some_iff.mp hended
    have hkey := keyed_tag hv hold
    exact hkey
  · cases h

/-- A row reader ends where its program ends with no cell left. -/
theorem row_eq_ok {α : Type} {c : Cursor α} {value : α} (h : Cursor.row kind cells c = .ok value) :
    c kind cells = .ok (value, []) := by
  unfold Cursor.row at h
  split at h
  · cases h
  · next hc => cases h; exact hc
  · cases h

theorem cursor_bind_eq_ok {α β : Type} {x : Cursor α} {f : α → Cursor β} {b : β} {rest : List Cell}
    (h : (x >>= f) kind cells = .ok (b, rest)) :
    ∃ a mid, x kind cells = .ok (a, mid) ∧ f a kind mid = .ok (b, rest) := by
  obtain ⟨⟨a, mid⟩, hx, hf⟩ := bind_eq_ok.mp h
  exact ⟨a, mid, hx, hf⟩

/-- The table whose rows have a key of this sort. -/
def tableKind : EntityKey → Option TableKind
  | .schema _ => some .schema
  | .table _ => some .table
  | .view _ => some .view
  | .column _ _ => some .column
  | .file _ _ => some .dataFile
  | .deleteFile _ _ => some .deleteFile
  | .partition _ _ => some .partitionInfo
  | .sort _ _ => some .sortInfo
  | .macroDef _ => some .macroDef
  | .mapping _ _ => some .columnMapping
  | _ => none

theorem versionedKey_kind {c : Cursor EntityKey} (hc : versionedKey kind = some c) {key : EntityKey}
    {rest : List Cell} (h : c kind cells = .ok (key, rest)) : tableKind key = some kind := by
  cases kind <;> cases hc
  case schema | table | view | macroDef =>
    obtain ⟨_, _, -, h⟩ := cursor_bind_eq_ok h
    cases h
    rfl
  case column | dataFile | deleteFile | partitionInfo | sortInfo =>
    obtain ⟨_, _, -, h⟩ := cursor_bind_eq_ok h
    obtain ⟨_, _, -, h⟩ := cursor_bind_eq_ok h
    cases h
    rfl

/-- The key a decoded end carries is of the row's kind. -/
theorem decodeEnd_kind {key : EntityKey} {ended : Nat} (h : decodeEnd kind cells = .ok (key, ended)) :
    tableKind key = some kind := by
  unfold decodeEnd at h
  split at h
  · next readKey hread =>
    obtain ⟨key', _, hkey, h⟩ := cursor_bind_eq_ok (row_eq_ok h)
    obtain ⟨_, _, -, h⟩ := cursor_bind_eq_ok h
    cases h
    exact versionedKey_kind hread hkey
  · cases h

theorem applyVersionedSetEnd_follows {key : EntityKey} {ended : Nat} (hkey : decodeEnd kind cells = .ok (key, ended)) :
    Follows base newId (.updateSetEnd kind cells) a { a with state := removeRow a.state key } := by
  have hkind := decodeEnd_kind hkey
  have hkeyed : a.state.WellKeyed → (removeRow a.state key).WellKeyed :=
    fun hv => wellKeyed_of_get hv (removeRow_get a.state key)
  cases key
  case table t =>
    cases hkind
    refine .atTable (t := t) (e := .ended) ?_ (fun _ _ => rfl) ?_ rfl hkeyed rfl rfl rfl
    · intro t'
      simp only [tableEvent, hkey]
    · intro t'
      simp [removeRow, TableEvent.apply, eq_comm]
  case column t c =>
    cases hkind
    refine .atColumn (t := t) (c := c) (e := .ended) (fun _ => rfl) rfl ?_ ?_ ?_ (by simp)
    · intro t' c'
      simp only [columnEvent, hkey]
    · intro t' c'
      simp [ColumnEvent.apply]
    · intro value _ h
      cases h
  case schema | view | file | deleteFile | partition | sort | macroDef | mapping =>
    cases hkind
    exact .quiet rfl rfl rfl hkeyed
  all_goals cases hkind

theorem applyUpdateSetEnd_follows (h : applyUpdateSetEnd a kind cells newId = .ok a') :
    Follows base newId (.updateSetEnd kind cells) a a' := by
  unfold applyUpdateSetEnd at h
  split at h
  · exact applyTagSetEnd_follows h
  · exact applyColumnTagSetEnd_follows h
  · obtain ⟨⟨key, ended⟩, hkey, h⟩ := bind_eq_ok.mp h
    obtain ⟨_, -, h⟩ := bind_eq_ok.mp h
    split at h
    · cases h
      exact applyVersionedSetEnd_follows hkey
    · cases h

theorem applyUpdateSetBegin_follows (h : applyUpdateSetBegin base a kind cells newId = .ok a') :
    Follows base newId (.updateSetBegin kind cells) a a' := by
  unfold applyUpdateSetBegin at h
  split at h
  · cases h
  obtain ⟨⟨t, f, begun⟩, -, h⟩ := bind_eq_ok.mp h
  dsimp only at h
  split at h
  · cases h
  split at h
  · cases h
  split at h
  · cases h
  · next file hfile =>
    cases h
    refine .quiet rfl rfl rfl fun hv => ?_
    have hkey := hv (.entity (.file t f)) (.file file) (by simp [CatalogSnapshot.get, hfile])
    obtain ⟨rfl, rfl⟩ : file.tableId = t ∧ file.dataFileId = f := by simpa [EntityRecord.key] using hkey
    exact hv.putRecord (.file { file with beginSnapshot := begun })

/-! ## Deletes -/

theorem applyColumnTagDelete_follows (h : applyColumnTagDelete a cells = .ok a') :
    Follows base newId (.delete .columnTag cells) a a' := by
  obtain ⟨⟨t, c, key, beginSnapshot⟩, hrow, h⟩ := bind_eq_ok.mp h
  cases hcolumn : getNested a.state.columns t c with
  | none =>
    simp only [hcolumn] at h
    cases h
    refine .atColumn (t := t) (c := c) (e := .tagDeleted key beginSnapshot) (fun _ => rfl) rfl ?_ ?_ ?_ (by simp)
    · intro t' c'
      simp only [columnEvent, hrow]
    · intro t' c'
      split
      · next heq => obtain ⟨rfl, rfl⟩ := heq; rw [hcolumn]; rfl
      · rfl
    · intro value _ heq
      rw [hcolumn] at heq
      cases heq
  | some column =>
    simp only [hcolumn] at h
    cases h
    refine .atColumn (t := t) (c := c) (e := .tagDeleted key beginSnapshot) (fun _ => rfl) rfl ?_ ?_ ?_ (by simp)
    · intro t' c'
      simp only [columnEvent, hrow]
    · intro t' c'
      simp only [getNested_putNested, hcolumn, ColumnEvent.apply, Option.map_some]
    · intro value hv heq
      rw [hcolumn] at heq
      have hkey := keyed_column hv hcolumn
      cases heq
      exact hkey

theorem applyTagDelete_follows (h : applyTagDelete a cells = .ok a') :
    Follows base newId (.delete .tag cells) a a' := by
  obtain ⟨⟨objectId, key, beginSnapshot⟩, -, h⟩ := bind_eq_ok.mp h
  dsimp only at h
  split at h
  · cases h
  · next container hcontainer =>
    split at h
    · split at h
      · cases h
        refine .quiet rfl rfl rfl fun hv => wellKeyed_of_get hv ?_
        intro k r
        rcases k with ⟨⟨⟩⟩ | _ <;>
          simp +contextual [removeTag, CatalogSnapshot.get]
      · cases h
        refine .quiet rfl rfl rfl fun hv => wellKeyed_insertTag hv ?_
        have hkey := keyed_tag hv hcontainer
        exact hkey
    · cases h

theorem applyStatsDelete_follows (hop : isFollowed (.delete kind cells) = false)
    (hdirect : directWrites (.delete kind cells) = []) (h : applyStatsDelete a kind cells = .ok a') :
    Follows base newId (.delete kind cells) a a' := by
  obtain ⟨key, -, h⟩ := bind_eq_ok.mp h
  split at h
  all_goals
    cases h
    refine .quiet hop hdirect rfl fun hv => wellKeyed_of_get hv ?_
    intro k r
    rcases k with ⟨⟨⟩⟩ | _ <;>
      simp +contextual [removeTableStats, removeTableColumnStats, removeFileColumnStats, CatalogSnapshot.get]

theorem applyDelete_follows (h : applyDelete a kind cells hardDeleted = .ok a') :
    Follows base newId (.delete kind cells) a a' := by
  cases kind
  case tableStats | tableColumnStats | fileColumnStats => exact applyStatsDelete_follows rfl rfl h
  case filesScheduledForDeletion =>
    obtain ⟨dataFileId, -, h⟩ := bind_eq_ok.mp h
    split at h
    · cases h
      refine .quiet rfl rfl rfl fun hv => wellKeyed_of_get hv ?_
      intro k r
      rcases k with ⟨⟨⟩⟩ | _ <;>
        simp +contextual [removeGcFile, CatalogSnapshot.get]
    · cases h
  case snapshot =>
    obtain ⟨snapshotId, hrow, h⟩ := bind_eq_ok.mp h
    split at h <;> cases h
    exact .refl rfl (by simp only [directWrites, hrow]) rfl
  case snapshotChanges =>
    obtain ⟨_, -, rfl⟩ := map_eq_ok.mp h
    exact .refl rfl (List.append_nil _).symm rfl
  case metadata =>
    obtain ⟨⟨components, key⟩, -, h⟩ := bind_eq_ok.mp h
    dsimp only at h
    split at h
    · cases h
      exact .refl rfl (List.append_nil _).symm rfl
    · split at h
      · cases h
        exact .quiet rfl rfl rfl fun hv =>
          wellKeyed_of_get hv fun _ _ => get_of_ite (get_removeOptionRecord _ components)
      · cases h
        exact .quiet rfl rfl rfl fun hv => hv.putRecord (.option components.1 components.2 _)
  case schema | table | view | column | dataFile | deleteFile | partitionInfo | sortInfo | macroDef
      | columnMapping =>
    obtain ⟨⟨entity, ended⟩, hrow, h⟩ := bind_eq_ok.mp h
    cases ended <;> cases h <;>
      exact .refl rfl (by simp only [directWrites, hrow]) rfl
  case tag => exact applyTagDelete_follows h
  case columnTag => exact applyColumnTagDelete_follows h
  case partitionColumn | sortExpression | filePartitionValue | macroImpl | macroParameters | nameMapping =>
    obtain ⟨⟨current, parent⟩, -, h⟩ := bind_eq_ok.mp h
    dsimp only at h
    split at h <;> cases h
    exact .refl rfl (List.append_nil _).symm rfl
  case schemaVersions =>
    obtain ⟨⟨tableId, beginSnapshot, version⟩, hrow, h⟩ := bind_eq_ok.mp h
    cases h
    exact .refl rfl (by simp only [directWrites, hrow]) rfl

/-! ## Batches -/

theorem applyOp_follows (h : applyOp base newId hardDeleted a op = .ok a') :
    Follows base newId op a a' := by
  cases op with
  | insert kind cells => exact applyInsert_follows h
  | delete kind cells => exact applyDelete_follows h
  | updateSetEnd kind cells => exact applyUpdateSetEnd_follows h
  | updateSetBegin kind cells => exact applyUpdateSetBegin_follows h
  | _ =>
    cases h
    exact .refl rfl (List.append_nil _).symm rfl

end Rows

/-- The rows in the order they are applied: ends and deletes, inserts, begin rebases. -/
def passes (ops : List RowOperation) : List RowOperation :=
  (ops.filter fun op => !op.isInline && !op.isInsert && !op.isSetBegin) ++ ops.filter RowOperation.isInsert ++
    ops.filter RowOperation.isSetBegin

section Batches

variable (base : CatalogSnapshot) (newId : Nat)

/-- A table after the rows' events. -/
def tableAfter (ops : List RowOperation) (t : Nat) (table : Option TableValue) : Option TableValue :=
  (ops.filterMap (tableEvent base t)).foldl (fun table e => e.apply table) table

/-- A column after the rows' events. -/
def columnAfter (ops : List RowOperation) (t c : Nat) (column : Option ColumnValue) : Option ColumnValue :=
  (ops.filterMap (columnEvent t c)).foldl (fun column e => e.apply base newId column) column

/-- Each event that ends a tag finds it. -/
def EndsFound : List ColumnEvent → Option ColumnValue → Prop
  | [], _ => True
  | e :: es, column => (∀ key, e = .tagEnded key → column.bind (endColumnTag key newId) ≠ none) ∧
      EndsFound es (e.apply base newId column)

/-- The rows' effect on the followed parts of the working state. -/
structure FollowsAll (ops : List RowOperation) (a a' : Applied) : Prop where
  keyed : a.state.WellKeyed → a'.state.WellKeyed
  table : ∀ t, a'.state.tables[t]? = tableAfter base ops t a.state.tables[t]?
  column : ∀ t c, getNested a'.state.columns t c = columnAfter base newId ops t c (getNested a.state.columns t c)
  found : ∀ t c, EndsFound base newId (ops.filterMap (columnEvent t c)) (getNested a.state.columns t c)
  indexes : a'.state.indexes = a.state.indexes
  mapping : ∀ t m value, getNested a.state.mappings t m = some value → getNested a'.state.mappings t m = some value
  direct : a'.direct = a.direct ++ ops.flatMap directWrites

variable {base newId} {hardDeleted : List EntityKey}

theorem FollowsAll.nil (a : Applied) : FollowsAll base newId [] a a :=
  ⟨id, fun _ => rfl, fun _ _ => rfl, fun _ _ => trivial, rfl, fun _ _ _ h => h, (List.append_nil _).symm⟩

theorem FollowsAll.cons {op : RowOperation} {ops : List RowOperation} {a b c : Applied}
    (h : Follows base newId op a b) (hrest : FollowsAll base newId ops b c) :
    FollowsAll base newId (op :: ops) a c where
  keyed := hrest.keyed ∘ h.keyed
  table t := by
    rw [hrest.table, h.table, tableAfter, tableAfter, List.filterMap_cons]
    cases tableEvent base t op <;> rfl
  column t i := by
    rw [hrest.column, h.column, columnAfter, columnAfter, List.filterMap_cons]
    cases columnEvent t i op <;> rfl
  found t i := by
    have hnext := hrest.found t i
    rw [h.column] at hnext
    rw [List.filterMap_cons]
    cases hevent : columnEvent t i op with
    | none => rwa [hevent] at hnext
    | some e =>
      rw [hevent] at hnext
      exact ⟨fun key heq => h.found t i key (heq ▸ hevent), hnext⟩
  indexes := hrest.indexes.trans h.indexes
  mapping t m value hm := hrest.mapping t m value (h.mapping t m value hm)
  direct := by rw [hrest.direct, h.direct, List.flatMap_cons, List.append_assoc]

theorem followsAll_of_foldlM {ops : List RowOperation} {a a' : Applied}
    (h : ops.foldlM (applyOp base newId hardDeleted) a = .ok a') : FollowsAll base newId ops a a' := by
  induction ops generalizing a with
  | nil => cases h; exact .nil _
  | cons op ops ih =>
    rw [List.foldlM_cons] at h
    obtain ⟨b, hop, hrest⟩ := bind_eq_ok.mp h
    exact .cons (applyOp_follows hop) (ih hrest)

theorem applyRows_eq (children : ChildRows) (ops : List RowOperation) :
    applyRows base newId hardDeleted children ops =
      (passes ops).foldlM (applyOp base newId hardDeleted) { state := base, children } := by
  simp only [applyRows, passes, List.foldlM_append, bind_assoc]

end Batches

/-! ## Counters, poison and deferral -/

/-- A table without its field-id counter. -/
def bareTable (value : TableValue) : TableValue := { value with nextColumnId := 0 }

/-- Floating the counters changes tables only, and of those only the counter. -/
theorem floatCounters_eq (v : CatalogSnapshot) :
    ∃ tables, floatCounters v = { v with tables } ∧
      ∀ t : Nat, tables[t]?.map bareTable = v.tables[t]?.map bareTable := by
  unfold floatCounters
  generalize v.columns.toList = columns
  suffices h : ∀ w : CatalogSnapshot, (∃ tables, w = { v with tables } ∧
      ∀ t : Nat, tables[t]?.map bareTable = v.tables[t]?.map bareTable) →
      ∃ tables, (columns.foldl _ w) = { v with tables } ∧
        ∀ t : Nat, tables[t]?.map bareTable = v.tables[t]?.map bareTable from h v ⟨v.tables, rfl, fun _ => rfl⟩
  induction columns with
  | nil => exact fun w hw => hw
  | cons x columns ih =>
    rintro _ ⟨tables, rfl, htables⟩
    refine ih _ ?_
    dsimp only
    split
    · next maxId table _ htable =>
      split
      · refine ⟨_, rfl, fun t => ?_⟩
        rw [ExtTreeMap.getElem?_insert]
        split
        · next heq =>
          have heq := Nat.compare_eq_eq.mp heq
          rw [← htables, ← heq, htable]
          rfl
        · exact htables t
      · exact ⟨tables, rfl, htables⟩
    · exact ⟨tables, rfl, htables⟩

theorem wellKeyed_floatCounters {v : CatalogSnapshot} (hv : v.WellKeyed) : (floatCounters v).WellKeyed := by
  obtain ⟨tables, heq, htables⟩ := floatCounters_eq v
  rw [heq]
  intro k r h
  rcases k with (_ | t | _ | _ | _ | _ | _ | _ | _ | _ | _ | _ | _ | _ | _ | _) | _
  case entity.table =>
    obtain ⟨value, hvalue, rfl⟩ := Option.map_eq_some_iff.mp h
    have hbare := htables t
    rw [hvalue] at hbare
    obtain ⟨old, hold, heq⟩ := Option.map_eq_some_iff.mp hbare.symm
    have hkey := hv (.entity (.table t)) (.table old) (by simp [CatalogSnapshot.get, hold])
    have hid : old.tableId = value.tableId := by
      have hbareId := congrArg TableValue.tableId heq
      exact hbareId
    simpa [EntityRecord.key, hid] using hkey
  all_goals exact hv _ r h

section Deferral

variable (base : CatalogSnapshot) (newSnapshot : Nat)

/-- What deferral makes of an index of table `t`. -/
def deferredIndex (deferred : List Nat) (t i : Nat) (value : IndexValue) : IndexValue :=
  if i ∈ deferred ∧ value.buildState = none then awaitRepair base newSnapshot t value else value

theorem getNested_deferOne (v : CatalogSnapshot) (indexId t i : Nat) :
    getNested (deferOne base newSnapshot v indexId).indexes t i =
      (getNested v.indexes t i).map (deferredIndex base newSnapshot [indexId] t i) := by
  simp only [deferOne, getNested, ExtTreeMap.getElem?_map]
  cases v.indexes[t]? with
  | none => rfl
  | some perTable =>
    simp only [Option.map_some, Option.bind_some]
    cases h : perTable[indexId]? with
    | none =>
      by_cases hi : i = indexId
      · simp [hi, h]
      · cases hget : perTable[i]? <;> simp [deferredIndex, hi]
    | some value =>
      by_cases hi : i = indexId
      · by_cases hstate : value.buildState = none <;> simp [hi, h, hstate, deferredIndex]
      · by_cases hstate : value.buildState = none <;>
          cases hget : perTable[i]? <;> simp [deferredIndex, hi, hstate, hget]

theorem getNested_applyDeferredMaintenance (v : CatalogSnapshot) (deferred : List Nat) (t i : Nat) :
    getNested (applyDeferredMaintenance base v deferred newSnapshot).indexes t i =
      (getNested v.indexes t i).map (deferredIndex base newSnapshot deferred t i) := by
  induction deferred generalizing v with
  | nil =>
    have hid : deferredIndex base newSnapshot [] t i = id := by
      funext value
      simp [deferredIndex]
    simp [applyDeferredMaintenance, hid]
  | cons indexId deferred ih =>
    rw [applyDeferredMaintenance, List.foldl_cons, ← applyDeferredMaintenance, ih, getNested_deferOne,
      Option.map_map]
    congr 1
    funext value
    by_cases hstate : value.buildState = none
    · by_cases hi : i = indexId
      · simp [deferredIndex, hi, hstate, awaitRepair]
      · simp [deferredIndex, hi, hstate]
    · simp [deferredIndex, hstate]

/-- Deferral changes index definitions only. -/
theorem applyDeferredMaintenance_eq (v : CatalogSnapshot) (deferred : List Nat) :
    ∃ indexes, applyDeferredMaintenance base v deferred newSnapshot = { v with indexes } := by
  induction deferred generalizing v with
  | nil => exact ⟨v.indexes, rfl⟩
  | cons indexId deferred ih =>
    obtain ⟨indexes, h⟩ := ih (deferOne base newSnapshot v indexId)
    exact ⟨indexes, h⟩

end Deferral

/-! ## Translated views -/

theorem wellKeyed_of_indexes {v : CatalogSnapshot} {indexes : Nested Nat Nat IndexValue} (hv : v.WellKeyed)
    (h : ∀ t i value, getNested indexes t i = some value → value.tableId = t ∧ value.indexId = i) :
    CatalogSnapshot.WellKeyed { v with indexes } := by
  intro k r hr
  rcases k with (_ | _ | _ | _ | _ | _ | _ | _ | _ | _ | _ | _ | _ | _ | _ | ⟨t, i⟩) | _
  case entity.index =>
    obtain ⟨value, hvalue, rfl⟩ := Option.map_eq_some_iff.mp hr
    obtain ⟨ht, hi⟩ := h t i value hvalue
    simp [EntityRecord.key, ht, hi]
  all_goals exact hv _ r hr

section Translated

variable {base state : CatalogSnapshot} {ops : List RowOperation} {poisoned deferred : List Nat} {newId : Nat}
  {direct : List StagedWrite}

/-- What a commit with a snapshot row makes of an index of table `t`. -/
def translatedIndex (base : CatalogSnapshot) (newId : Nat) (poisoned deferred : List Nat) (t i : Nat)
    (value : IndexValue) : IndexValue :=
  deferredIndex base newId deferred t i (if i ∈ poisoned then { value with poisoned := some true } else value)

theorem translatedIndex_fixed (base : CatalogSnapshot) (newId : Nat) (poisoned deferred : List Nat) (t i : Nat)
    (value : IndexValue) :
    let index := translatedIndex base newId poisoned deferred t i value
    index.tableId = value.tableId ∧ index.indexId = value.indexId ∧ index.columnIds = value.columnIds ∧
      index.endSnapshot = value.endSnapshot := by
  dsimp only [translatedIndex, deferredIndex, awaitRepair]
  split <;> split <;> exact ⟨rfl, rfl, rfl, rfl⟩

/-- The view a batch with a snapshot row leads to. -/
structure Translated (base : CatalogSnapshot) (ops : List RowOperation) (poisoned deferred : List Nat) (newId : Nat)
    (state : CatalogSnapshot) : Prop where
  keyed : base.WellKeyed → state.WellKeyed
  table : ∀ t : Nat, state.tables[t]?.map bareTable =
    (tableAfter base (passes ops) t base.tables[t]?).map bareTable
  column : ∀ t c, getNested state.columns t c =
    columnAfter base newId (passes ops) t c (getNested base.columns t c)
  found : ∀ t c, EndsFound base newId ((passes ops).filterMap (columnEvent t c)) (getNested base.columns t c)
  index : ∀ t i, getNested state.indexes t i =
    (getNested base.indexes t i).map (translatedIndex base newId poisoned deferred t i)
  mapping : ∀ t m value, getNested base.mappings t m = some value → getNested state.mappings t m = some value

theorem translated_of_translateState
    (h : translateState base ops poisoned deferred newId = .ok (state, direct)) :
    Translated base ops poisoned deferred newId state := by
  obtain ⟨children, -, h⟩ := bind_eq_ok.mp h
  obtain ⟨hardDeleted, -, h⟩ := bind_eq_ok.mp h
  obtain ⟨a, ha, h⟩ := bind_eq_ok.mp h
  obtain ⟨_, -, h⟩ := bind_eq_ok.mp h
  obtain ⟨rfl, -⟩ := Prod.mk.inj (Except.ok.inj h)
  rw [applyRows_eq] at ha
  have hrows := followsAll_of_foldlM ha
  obtain ⟨tables, hfloat, htables⟩ := floatCounters_eq a.state
  obtain ⟨indexes, hpoison⟩ := applyPoison_eq (floatCounters a.state) poisoned
  obtain ⟨indexes', hdefer⟩ :=
    applyDeferredMaintenance_eq base newId (applyPoison (floatCounters a.state) poisoned) deferred
  have hindex : ∀ t i, getNested indexes' t i =
      (getNested base.indexes t i).map (translatedIndex base newId poisoned deferred t i) := by
    intro t i
    have hget := getNested_applyDeferredMaintenance base newId (applyPoison (floatCounters a.state) poisoned)
      deferred t i
    rw [hdefer, getNested_applyPoison, hfloat, hrows.indexes, Option.map_map] at hget
    exact hget
  rw [hdefer, hpoison, hfloat]
  exact {
    keyed := fun hbase => by
      have hkeyed := wellKeyed_floatCounters (hrows.keyed hbase)
      rw [hfloat] at hkeyed
      refine wellKeyed_of_indexes (v := { a.state with tables }) hkeyed fun t i value hvalue => ?_
      rw [hindex] at hvalue
      obtain ⟨old, hold, rfl⟩ := Option.map_eq_some_iff.mp hvalue
      obtain ⟨ht, hi, -, -⟩ := translatedIndex_fixed base newId poisoned deferred t i old
      have hkey := hbase (.entity (.index t i)) (.index old) (by simp [CatalogSnapshot.get, hold])
      have hown : old.tableId = t ∧ old.indexId = i := by simpa [EntityRecord.key] using hkey
      exact ⟨ht.trans hown.1, hi.trans hown.2⟩
    table := fun t => (htables t).trans (congrArg _ (hrows.table t))
    column := hrows.column
    found := hrows.found
    index := hindex
    mapping := hrows.mapping }

/-- Rows of a batch without a snapshot row, in the order they were staged. -/
theorem followsAll_of_maintenance {hardDeleted : List EntityKey} {a a' : Applied}
    (h : ops.foldlM (applyMaintenanceOp base hardDeleted) a = .ok a') :
    FollowsAll base base.snapshot.snapshotId ops a a' := by
  induction ops generalizing a with
  | nil => cases h; exact .nil _
  | cons op ops ih =>
    rw [List.foldlM_cons] at h
    obtain ⟨b, hop, hrest⟩ := bind_eq_ok.mp h
    unfold applyMaintenanceOp at hop
    split at hop
    · exact .cons (applyOp_follows hop) (ih hrest)
    · cases hop

end Translated

end Moraine.StagedRows
