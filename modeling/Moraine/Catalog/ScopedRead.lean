-- SUMMARY: Index definitions as readers see them, and the entries derived from the rows of files and chunks.
import Moraine.Base.Results
import Moraine.Catalog.Inline
import Moraine.Transaction.IndexMaintenance

/-!
# Scoped reads

A scoped read takes from a data file, or from an inline chunk, the columns an index covers and the id of
each row. A file's rows have the ids of its embedded row-id column if it carries one, and dense ids from
its recorded start otherwise. `IndexInfo.rowEntry` is the entry one row gets; every derivation of entries
is a list of those.
-/

namespace Moraine

open Std (ExtTreeMap ExtTreeSet)
open OrdMap

/-- The values of a row by physical column position. `none` is SQL NULL. -/
abbrev Row := List (Option IndexKeyValue)

/-- One row of a data file, with its id if the file carries a row-id column. -/
structure FileRow where
  rowId : Option Nat
  values : Row
  deriving DecidableEq

/-- The decoded contents of a data file. -/
structure DataObject where
  path : String
  /-- Whether the file carries the embedded row-id column. -/
  hasRowIds : Bool
  rows : List FileRow
  deriving DecidableEq

structure ScopedReadEntry where
  rowId : Nat
  values : List (Option IndexKeyValue)
  deriving DecidableEq

/-- How a scoped read resolves each row's id. -/
inductive RowIdSource where
  | resolve (rowIdStart : Option Nat)
  | ordinal

/-- Which of a file's rows a scoped read decodes. -/
inductive ScopedRows where
  | all
  | selected (positions : ExtTreeSet Nat)

/-- The dense start of the row ids, or `none` if they come from the embedded column. -/
def resolveRowIdSource (object : DataObject) : RowIdSource → Except Error (Option Nat)
  | .ordinal =>
    if object.hasRowIds then
      .error (.constraint
        s!"scoped read: {object.path} carries an embedded row-id column and cannot be read by ordinal")
    else .ok (some 0)
  | .resolve rowIdStart =>
    if object.hasRowIds then .ok none
    else match rowIdStart with
      | some start => .ok (some start)
      | none => .error (.corruption
          s!"scoped read: {object.path} is recorded as carrying per-row ids but has no embedded row-id column")

/-- The id of the row at an ordinal. -/
def rowIdAt (dense : Option Nat) (ordinal : Nat) (row : FileRow) : Except Error Nat :=
  match dense with
  | some start => .ok (saturatingAdd start ordinal)
  | none => match row.rowId with
    | some id => .ok id
    | none => .error (.corruption "scoped read: row-id column holds a NULL")

/-- The values at the indexed positions, in order. A position past the row's columns fails. -/
def indexedValues (positions : List Nat) (row : Row) : Except Error (List (Option IndexKeyValue)) :=
  Results.each (fun p => match row[p]? with
    | some value => .ok value
    | none => .error (.corruption "scoped read: projected column vanished")) positions

/-- The entry of the row at an ordinal. -/
def recordEntry (positions : List Nat) (dense : Option Nat) (ordinal : Nat) (row : FileRow) :
    Except Error ScopedReadEntry :=
  match indexedValues positions row.values with
  | .error e => .error e
  | .ok values => (rowIdAt dense ordinal row).map fun rowId => { rowId, values }

/-- The entries of a file's rows, in file order. -/
def scopedReadEntries (object : DataObject) (positions : List Nat) (rows : ScopedRows) (source : RowIdSource) :
    Except Error (List ScopedReadEntry) :=
  match rows with
  | .all =>
    match resolveRowIdSource object source with
    | .error e => .error e
    | .ok dense => Results.each (fun x => recordEntry positions dense x.2 x.1) object.rows.zipIdx
  | .selected wanted =>
    -- A selection that names no row is answered without reading anything.
    if wanted.isEmpty then .ok []
    else match resolveRowIdSource object source with
      | .error e => .error e
      | .ok dense => Results.each (fun p => match object.rows[p]? with
          | some row => recordEntry positions dense p row
          | none => .error (.corruption
              s!"scoped read: selected row {p} is past the file's {object.rows.length} rows")) wanted.toList

/-- The row at a position of a file, with its id. -/
def DataObject.rowAt (object : DataObject) (source : RowIdSource) (position : Nat) : Option (Nat × Row) :=
  match resolveRowIdSource object source with
  | .error _ => none
  | .ok dense => object.rows[position]?.bind fun row =>
    (rowIdAt dense position row).toOption.map (·, row.values)

theorem DataObject.lt_length_of_rowAt {object : DataObject} {source : RowIdSource} {p : Nat} {x : Nat × Row}
    (h : object.rowAt source p = some x) : p < object.rows.length := by
  by_contra hlen
  have hnone : object.rows[p]? = none := List.getElem?_eq_none (by omega)
  unfold rowAt at h
  split at h
  · cases h
  · rw [hnone] at h
    cases h

/-- The entries of an inline chunk's rows. -/
def inlineBatchEntries (chunk : InlineChunkValue Row) (positions : List Nat) : Except Error (List ScopedReadEntry) :=
  Results.each (fun x => (indexedValues positions x.2).map fun values => { rowId := x.1, values }) chunk.rows

/-! ## Index definitions -/

/-- An index definition as a reader sees it. -/
structure IndexInfo where
  id : Nat
  tableId : Nat
  name : String
  columns : List Nat
  directions : List Direction
  nulls : List NullOrder
  unique : Bool
  maintenance : IndexMaintenance
  state : IndexState
  buildCursor : Option Nat
  buildFileCursor : Option Nat
  buildPositionCursor : Option Nat
  deriving DecidableEq

def indexInfo (value : IndexValue) : IndexInfo :=
  { id := value.indexId
    tableId := value.tableId
    name := value.indexName
    columns := value.columnIds
    directions := (Transaction.columnOrders value).map ColumnOrder.direction
    nulls := (Transaction.columnOrders value).map ColumnOrder.nulls
    unique := value.unique
    maintenance := if value.deferredMaintenance = some true then .deferred else .synchronous
    state :=
      if value.poisoned = some true then .poisoned
      else if value.buildState = some "maintaining" then .maintaining
      else if value.buildState.isSome then .building
      else .ready
    buildCursor := value.buildCursorRowId
    buildFileCursor := value.buildCursorFile
    buildPositionCursor := value.buildCursorPosition }

/-- The physical positions of an index's columns: their ranks among the table's live columns. -/
def indexPositions (liveColumns : List Nat) (index : IndexInfo) (table : Nat) : Except Error (List Nat) :=
  Results.each (fun column => match liveColumns.idxOf? column with
    | some position => .ok position
    | none => .error (.notFound s!"indexed column {column} of table {table}")) index.columns

/-- The staged entry of one scoped-read entry. A row with a NULL indexed value is stored as a non-unique
    entry, so that a unique index admits any number of them. -/
def stagedEntry (index : IndexInfo) (delete : Bool) (entry : ScopedReadEntry) : Except Error StagedIndexEntry :=
  let hasNull := entry.values.any Option.isNone
  (encodeOrderedValues entry.values index.directions index.nulls).map fun key =>
    { indexId := index.id
      unique := index.unique && !hasNull
      key
      rowId := entry.rowId
      delete
      building := index.state ≠ .ready }

/-- Turns scoped-read entries into staged puts or removals. -/
def pushIndexEntries (index : IndexInfo) (entries : List ScopedReadEntry) (delete : Bool) :
    Except Error (List StagedIndexEntry) :=
  Results.each (stagedEntry index delete) entries

/-! ## Entries row by row -/

namespace IndexInfo

variable (index : IndexInfo) (liveColumns : List Nat) (table : Nat)

/-- The key of a row, and whether one of its indexed values is NULL. -/
def rowKey (row : Row) : Except Error (CanonicalKey × Bool) :=
  match indexPositions liveColumns index table with
  | .error e => .error e
  | .ok positions =>
    match indexedValues positions row with
    | .error e => .error e
    | .ok values =>
      (encodeOrderedValues values index.directions index.nulls).map (·, values.any Option.isNone)

/-- The entry of a row. -/
def rowEntry (delete : Bool) (rowId : Nat) (row : Row) : Except Error StagedIndexEntry :=
  (index.rowKey liveColumns table row).map fun x =>
    { indexId := index.id
      unique := index.unique && !x.2
      key := x.1
      rowId
      delete
      building := index.state ≠ .ready }

/-- The key of a row none of whose indexed values is NULL. -/
def valueKey (row : Row) : Option CanonicalKey :=
  match index.rowKey liveColumns table row with
  | .ok (key, false) => some key
  | _ => none

end IndexInfo

/-- A scoped-read entry is that of the row. -/
def ScopedReadEntry.IsOf (positions : List Nat) (x : Nat × Row) (entry : ScopedReadEntry) : Prop :=
  entry.rowId = x.1 ∧ indexedValues positions x.2 = .ok entry.values

theorem ScopedReadEntry.IsOf.stagedEntry_eq {positions : List Nat} {x : Nat × Row} {entry : ScopedReadEntry}
    (h : entry.IsOf positions x) {index : IndexInfo} {liveColumns : List Nat} {table : Nat}
    (hpositions : indexPositions liveColumns index table = .ok positions) (delete : Bool) :
    stagedEntry index delete entry = index.rowEntry liveColumns table delete x.1 x.2 := by
  unfold stagedEntry IndexInfo.rowEntry IndexInfo.rowKey
  rw [hpositions, h.1]
  dsimp only
  rw [h.2]
  dsimp only
  cases encodeOrderedValues entry.values index.directions index.nulls <;> rfl

/-- The positions a read decodes, in order. -/
def ScopedRows.positions (object : DataObject) : ScopedRows → List Nat
  | .all => List.range object.rows.length
  | .selected wanted => wanted.toList

private theorem recordEntry_isOf {object : DataObject} {source : RowIdSource} {dense : Option Nat}
    (hdense : resolveRowIdSource object source = .ok dense) {positions : List Nat} {p : Nat} {row : FileRow}
    (hrow : object.rows[p]? = some row) {entry : ScopedReadEntry}
    (h : recordEntry positions dense p row = .ok entry) :
    ∃ x, object.rowAt source p = some x ∧ entry.IsOf positions x := by
  unfold recordEntry at h
  split at h
  · cases h
  next values hvalues =>
  cases hid : rowIdAt dense p row with
  | error e => rw [hid] at h; cases h
  | ok rowId =>
    rw [hid] at h
    cases h
    refine ⟨(rowId, row.values), ?_, rfl, hvalues⟩
    unfold DataObject.rowAt
    rw [hdense]
    simp [hrow, hid, Except.toOption]

/-- A scoped read returns the entry of each row it decodes. -/
theorem scopedReadEntries_isOf {object : DataObject} {positions : List Nat} {rows : ScopedRows}
    {source : RowIdSource} {entries : List ScopedReadEntry}
    (h : scopedReadEntries object positions rows source = .ok entries) :
    List.Forall₂ (fun p entry => ∃ x, object.rowAt source p = some x ∧ entry.IsOf positions x)
      (rows.positions object) entries := by
  unfold scopedReadEntries at h
  split at h
  · -- Every row, in file order.
    split at h
    · cases h
    next dense hdense =>
    have hsnd : object.rows.zipIdx.map Prod.snd = List.range object.rows.length := by
      rw [List.zipIdx_map_snd, List.range_eq_range']
    rw [ScopedRows.positions, ← hsnd, List.forall₂_map_left_iff]
    refine (Results.each_forall₂ h).imp fun x entry hentry => ?_
    exact recordEntry_isOf hdense (List.mem_zipIdx_iff_getElem?.mp hentry.1) hentry.2
  · next wanted =>
    split at h
    · next hempty =>
      cases h
      have hnil : wanted.toList = [] := by simpa using hempty
      rw [ScopedRows.positions, hnil]
      exact .nil
    · split at h
      · cases h
      next dense hdense =>
      refine (Results.each_forall₂ h).imp fun p entry ⟨_, hentry⟩ => ?_
      split at hentry
      · next row hrow => exact recordEntry_isOf hdense hrow hentry
      · cases hentry

/-- An inline chunk is read row by row. -/
theorem inlineBatchEntries_isOf {chunk : InlineChunkValue Row} {positions : List Nat}
    {entries : List ScopedReadEntry} (h : inlineBatchEntries chunk positions = .ok entries) :
    List.Forall₂ (fun x entry => entry.IsOf positions x) chunk.rows entries := by
  refine (Results.each_forall₂ h).imp fun x entry ⟨_, hentry⟩ => ?_
  cases hvalues : indexedValues positions x.2 with
  | error e => rw [hvalues] at hentry; cases hentry
  | ok values =>
    rw [hvalues] at hentry
    cases hentry
    exact ⟨rfl, hvalues⟩

end Moraine
