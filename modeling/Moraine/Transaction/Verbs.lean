-- SUMMARY: The mutation handle of a commit closure and its verbs.
import Moraine.Store.IndexEncoding

/-!
# Transaction verbs

A commit closure works on a `Transaction`: the catalog view it mutates, the operations it records, and
the index entries and inline records it stages. Each verb is a command over that state which either
returns or fails with an error. A failing verb keeps whatever it did before it failed.

A fresh uuid is an argument of the verb that draws it. Ids and counters are natural numbers; where the
source saturates or checks a 64-bit sum, so does the model.
-/

namespace Moraine

open Std OrdMap

def u64Max : Nat := 2 ^ 64 - 1

def saturatingAdd (a b : Nat) : Nat := min (a + b) u64Max

theorem saturatingAdd_eq {a b : Nat} (h : a + b ≤ u64Max) : saturatingAdd a b = a + b := Nat.min_eq_left h

def checkedAdd (a b : Nat) : Option Nat := if a + b ≤ u64Max then some (a + b) else none

/-! ## Arguments of the verbs -/

/-- A column to create, with the fields nested in it. -/
inductive ColumnDef where
  | mk (name columnType : String) (nullsAllowed : Bool) (defaultValue : Option String)
      (children : List ColumnDef)

namespace ColumnDef

def name : ColumnDef → String
  | .mk name _ _ _ _ => name

def columnType : ColumnDef → String
  | .mk _ columnType _ _ _ => columnType

end ColumnDef

/-- A change to a column. A field left out is kept. -/
structure ColumnAlteration where
  columnType : Option String
  nullsAllowed : Option Bool
  defaultValue : Option (Option String)

structure PartitionColumnDef where
  column : Nat
  transform : String

structure SortKeyDef where
  expression : String
  dialect : String
  sortDirection : String
  nullOrder : String

structure ColumnOrder where
  direction : Direction
  nulls : NullOrder
  deriving DecidableEq

inductive IndexMaintenance where
  | synchronous | deferred
  deriving DecidableEq

inductive IndexState where
  | ready | building | maintaining | poisoned
  deriving DecidableEq

structure IndexDef where
  name : String
  columns : List Nat
  unique : Bool

/-- A writer-supplied entry: a row and its indexed values. -/
structure IndexEntry where
  rowId : Nat
  values : List (Option IndexKeyValue)

/-- An entry of a new file or chunk, placed by the row's ordinal in it. -/
structure FileIndexEntry where
  index : Nat
  ordinal : Nat
  values : List (Option IndexKeyValue)

/-- An entry a delete removes: the killed row's id and the values it was indexed under. -/
structure FileIndexRemoval where
  index : Nat
  rowId : Nat
  values : List (Option IndexKeyValue)

structure FileColumnStats where
  columnId : Nat
  columnSizeBytes : Nat
  valueCount : Nat
  nullCount : Nat
  minValue : Option String
  maxValue : Option String
  containsNan : Option Bool
  extraStats : Option String

structure DataFile where
  path : String
  pathIsRelative : Bool
  fileFormat : String
  recordCount : Nat
  fileSizeBytes : Nat
  footerSize : Nat
  encryptionKey : Option String
  partitionValues : List String
  columnStats : List FileColumnStats

structure DeleteFile where
  dataFileId : Nat
  path : String
  pathIsRelative : Bool
  format : String
  deleteCount : Nat
  fileSizeBytes : Nat
  footerSize : Nat
  encryptionKey : Option String

structure ColumnStats where
  containsNull : Option Bool
  containsNan : Option Bool
  minValue : Option String
  maxValue : Option String
  extraStats : Option String

structure MacroParameterDef where
  name : String
  parameterType : String
  defaultValue : Option String
  defaultValueType : String

structure MacroImplementationDef where
  dialect : String
  sql : String
  macroType : String
  parameters : List MacroParameterDef

structure InlineChunk where
  schemaVersion : Nat
  arrowSchema : List UInt8
  arrowBody : List UInt8
  rowCount : Nat

/-- A file the caller wrote from inlined rows: its rows keep their ids, its record is backdated. -/
structure FlushedDataFile where
  file : DataFile
  rowIdStart : Nat
  beginSnapshot : Nat
  partialMax : Option Nat

inductive TagTarget where
  | schema (id : Nat)
  | table (id : Nat)
  | view (id : Nat)

def TagTarget.objectId : TagTarget → Nat
  | .schema id | .table id | .view id => id

inductive OptionScope where
  | global
  | schema (id : Nat)
  | table (id : Nat)
  deriving DecidableEq

def OptionScope.keyComponents : OptionScope → Nat × Nat
  | .global => (0, 0)
  | .schema id => (1, id)
  | .table id => (2, id)

/-! ## What a transaction accumulates -/

/-- A recorded change. The recorded list is what conflict detection and the change set are built from. -/
inductive Operation where
  | createSchema (schemaId : Nat) (name : String)
  | dropSchema (schemaId : Nat)
  | alterSchema (schemaId : Nat)
  | createTable (schemaId tableId : Nat) (schemaName tableName : String)
  | alterTable (tableId : Nat)
  | alterTableSorting (tableId : Nat)
  | advanceIndexBuild (tableId : Nat)
  | finishIndexMaintenance (tableId : Nat)
  | dropTable (tableId : Nat)
  | registerDataFile (tableId : Nat)
  | registerDeleteFile (tableId dataFileId : Nat)
  | expireDataFile (tableId : Nat)
  | expireDeleteFile (tableId : Nat)
  | updateStats (tableId : Nat)
  | createView (schemaId viewId : Nat) (schemaName viewName : String)
  | alterView (viewId : Nat)
  | dropView (viewId : Nat)
  | createMacro (schemaId macroId : Nat) (schemaName macroName macroType : String)
  | dropMacro (macroId : Nat) (macroType : String)
  | inlineInsert (tableId : Nat)
  | inlineDelete (tableId : Nat)
  | flushInlinedData (tableId : Nat)
  deriving DecidableEq

/-- One index-entry mutation, resolved against the store when the batch is staged. -/
structure StagedIndexEntry where
  indexId : Nat
  unique : Bool
  key : CanonicalKey
  rowId : Nat
  delete : Bool
  building : Bool
  deriving DecidableEq

/-- One mutation of the inlined-data subspace. -/
inductive InlineStage where
  | schema (tableId schemaVersion : Nat) (arrowSchema : List UInt8)
  | insert (tableId schemaVersion beginSnapshot chunkSeq rowIdStart rowCount : Nat)
      (arrowBody : List UInt8)
  | tombstone (tableId rowId endSnapshot : Nat)
  | flush (tableId schemaVersion flushSnapshot : Nat)
  deriving DecidableEq

/-- The mutation handle a commit closure receives. -/
structure Transaction where
  state : CatalogSnapshot
  ops : List Operation := []
  indexEntries : List StagedIndexEntry := []
  inlineOps : List InlineStage := []
  /-- Next `chunkSeq` per table and schema version. -/
  chunkSeqs : ExtTreeMap (Nat × Nat) Nat := ∅
  /-- The row ids a table had allocated before this commit allocated its own. -/
  inheritedRowIds : ExtTreeMap Nat Nat := ∅
  nextCatalogId : Nat
  nextFileId : Nat
  newSnapshotId : Nat

/-- A command over a transaction. -/
abbrev Verb := EStateM Error Transaction

namespace Transaction

def new (state : CatalogSnapshot) (newSnapshotId : Nat) : Transaction :=
  { state
    nextCatalogId := state.snapshot.nextCatalogId
    nextFileId := state.snapshot.nextFileId
    newSnapshotId }

/-! ## Steps every verb is made of -/

/-- Applies one mutator to the working view. -/
def mutate (f : CatalogSnapshot → CatalogSnapshot) : Verb Unit :=
  modify fun tx => { tx with state := f tx.state }

/-- Inserts a record into the working view: the `put_` mutator of its kind. -/
def putRecord (r : EntityRecord) : Verb Unit := mutate (·.putRecord r)

def record (op : Operation) : Verb Unit := modify fun tx => { tx with ops := tx.ops ++ [op] }

def allocCatalogId : Verb Nat :=
  modifyGet fun tx => (tx.nextCatalogId, { tx with nextCatalogId := tx.nextCatalogId + 1 })

def allocFileId : Verb Nat :=
  modifyGet fun tx => (tx.nextFileId, { tx with nextFileId := tx.nextFileId + 1 })

def markAltered (tableId : Nat) : Verb Unit := record (.alterTable tableId)

/-- Refuses with `e` when the check fails. -/
def require (ok : Bool) (e : Error) : Verb Unit := if ok then return () else throw e

/-- The value, or the error in its absence. -/
def orError {α : Type} (value : Option α) (e : Error) : Verb α :=
  match value with
  | some a => return a
  | none => throw e

def nonemptyName (what name : String) : Verb Unit :=
  require (name ≠ "") (.constraint s!"{what} name must not be empty")

/-- A string as the debug format prints it, for the printable characters. -/
def quoted (s : String) : String :=
  let escaped := s.toList.map fun
    | '"' => "\\\""
    | '\\' => "\\\\"
    | c => c.toString
  "\"" ++ String.join escaped ++ "\""

/-- Refuses a name unsafe in the storage path derived from it. -/
def pathSafeName (what name : String) : Verb Unit := do
  nonemptyName what name
  require (!(name.toList.any (fun c => c == '/' || c == '\\') || name == "." || name == ".."))
    (.constraint s!"{what} name {quoted name} is unsafe in a storage path")

/-- The base name of a column type, uppercased: `DECIMAL` of `DECIMAL(18,3)`. -/
def ducklakeBaseType (columnType : String) : String :=
  let base := columnType.toList.takeWhile (· ≠ '(')
  let trimmed := ((base.dropWhile isWhitespace).reverse.dropWhile isWhitespace).reverse
  String.ofList (trimmed.map Char.toUpper)
where
  /-- The characters with the Unicode `White_Space` property. -/
  isWhitespace (c : Char) : Bool :=
    let n := c.toNat
    (9 ≤ n && n ≤ 13) || n == 0x20 || n == 0x85 || n == 0xa0 || n == 0x1680 ||
      (0x2000 ≤ n && n ≤ 0x200a) || n == 0x2028 || n == 0x2029 || n == 0x202f || n == 0x205f ||
      n == 0x3000

/-- Refuses a column whose rows cannot be inlined. -/
def ensureInlinable (columnName columnType : String) : Verb Unit :=
  require (ducklakeBaseType columnType ≠ "VARIANT") (.unsupported
    (s!"moraine: column {columnName} is {columnType}, which moraine cannot store — " ++
      "its inline data is serialized through Arrow, and DuckDB's Arrow format has no VARIANT support. " ++
      "Use JSON (or another type) instead."))

/-- Refuses a column whose stored form is lossy. -/
def ensureIndexable (columnName columnType : String) : Verb Unit :=
  require (ducklakeBaseType columnType ∉ ["HUGEINT", "UHUGEINT", "INT128", "UINT128"])
    (.constraint
      (s!"column {columnName} is {columnType}; " ++
        "a 128-bit integer is not indexable because DuckDB stores it as a lossy double in Parquet"))

/-! ## Schemas and tables -/

def createSchema (name uuid : String) : Verb Nat := do
  pathSafeName "schema" name
  require (!(← get).state.schemaNames.contains name) (.alreadyExists s!"schema {name}")
  let schemaId ← allocCatalogId
  putRecord (.schema
    { schemaId
      schemaUuid := uuid
      beginSnapshot := (← get).newSnapshotId
      endSnapshot := none
      schemaName := name
      path := s!"{name}/"
      pathIsRelative := true })
  record (.createSchema schemaId name)
  return schemaId

/-- The first kind of relation `schema` still contains. -/
def occupied (v : CatalogSnapshot) (schema : Nat) : Option String :=
  if v.tables.values.any (·.schemaId == schema) then some "tables"
  else if v.views.values.any (·.schemaId == schema) then some "views"
  else if v.macros.values.any (·.schemaId == schema) then some "macros"
  else none

/-- Drops an empty schema. Schema 0 is the bootstrap `main`. -/
def dropSchema (schema : Nat) : Verb Unit := do
  require (schema ≠ 0) (.constraint "the bootstrap `main` schema cannot be dropped")
  require ((← get).state.schemas.contains schema) (.notFound s!"schema {schema}")
  if let some kind := occupied (← get).state schema then
    throw (.constraint s!"schema {schema} still contains {kind}")
  mutate (·.deleteSchema schema)
  record (.dropSchema schema)

def liveTable (table : Nat) : Verb TableValue := do
  orError (← get).state.tables[table]? (.notFound s!"table {table}")

/-- Tables and views share one name namespace per schema. -/
def relationNameFree (schemaId : Nat) (name : String) : Verb Unit := do
  let v := (← get).state
  require (!((scopedName v.tableNames schemaId name).isSome || (scopedName v.viewNames schemaId name).isSome))
    (.alreadyExists s!"relation {name}")

mutual

/-- Every node in pre-order: names non-empty and unique among siblings, types storable. `seen` holds the
    names of the siblings already passed. -/
def validateColumnDefs : List ColumnDef → List String → Verb Unit
  | [], _ => return ()
  | column :: defs, seen => do
    nonemptyName "column" column.name
    ensureInlinable column.name column.columnType
    require (!seen.contains column.name) (.constraint s!"duplicate column {column.name}")
    validateChildren column
    validateColumnDefs defs (column.name :: seen)

def validateChildren : ColumnDef → Verb Unit
  | .mk _ _ _ _ children => validateColumnDefs children []

end

mutual

/-- How many column records the columns become: one per node of every tree. -/
def columnNodeCount : List ColumnDef → Nat
  | [] => 0
  | column :: defs => nodeCount column + columnNodeCount defs

def nodeCount : ColumnDef → Nat
  | .mk _ _ _ _ children => 1 + columnNodeCount children

end

def newColumn (tableId columnId columnOrder beginSnapshot : Nat) (parentColumn : Option Nat)
    (name columnType : String) (nullsAllowed : Bool) (defaultValue : Option String) : ColumnValue :=
  { columnId, beginSnapshot, endSnapshot := none, tableId, columnOrder
    columnName := name
    columnType
    initialDefault := none
    defaultValue
    nullsAllowed
    parentColumn
    defaultValueType := none
    defaultValueDialect := none
    tags := [] }

mutual

/-- Stages columns and, depth first, every field beneath them, each taking the next field id and the next
    position from two shared counters. Returns the counters after the last field. -/
def stageColumnTrees (tableId : Nat) : List ColumnDef → Option Nat → Nat → Nat → Verb (Nat × Nat)
  | [], _, nextId, nextOrder => return (nextId, nextOrder)
  | column :: defs, parentColumn, nextId, nextOrder => do
    let (nextId', nextOrder') ← stageColumnTree tableId column parentColumn nextId nextOrder
    stageColumnTrees tableId defs parentColumn nextId' nextOrder'

def stageColumnTree (tableId : Nat) : ColumnDef → Option Nat → Nat → Nat → Verb (Nat × Nat)
  | .mk name columnType nullsAllowed defaultValue children, parentColumn, columnId, columnOrder => do
    putRecord (.column (newColumn tableId columnId columnOrder (← get).newSnapshotId parentColumn name
      columnType nullsAllowed defaultValue))
    stageColumnTrees tableId children (some columnId) (columnId + 1) (columnOrder + 1)

end

/-- Creates a table with its columns and its statistics record. Field ids and positions start at 1. -/
def createTable (schema : Nat) (name : String) (columns : List ColumnDef) (uuid : String) : Verb Nat := do
  let schemaRec ← orError (← get).state.schemas[schema]? (.notFound s!"schema {schema}")
  pathSafeName "table" name
  relationNameFree schema name
  require (!columns.isEmpty) (.constraint s!"table {name} needs at least one column")
  validateColumnDefs columns []
  let tableId ← allocCatalogId
  putRecord (.table
    { tableId
      tableUuid := uuid
      beginSnapshot := (← get).newSnapshotId
      endSnapshot := none
      schemaId := schema
      tableName := name
      path := s!"{name}/"
      pathIsRelative := true
      nextColumnId := columnNodeCount columns + 1 })
  let _ ← stageColumnTrees tableId columns none 1 1
  putRecord (.tableStats { tableId, recordCount := 0, nextRowId := 0, fileSizeBytes := 0 })
  record (.createTable schema tableId schemaRec.schemaName name)
  return tableId

/-- Renames a table within its schema. -/
def renameTable (table : Nat) (newName : String) : Verb Unit := do
  pathSafeName "table" newName
  let value ← liveTable table
  relationNameFree value.schemaId newName
  putRecord (.table { value with tableName := newName, beginSnapshot := (← get).newSnapshotId })
  markAltered table

/-- Moves a table to another schema. -/
def setTableSchema (table newSchema : Nat) : Verb Unit := do
  require ((← get).state.schemas.contains newSchema) (.notFound s!"schema {newSchema}")
  let value ← liveTable table
  relationNameFree newSchema value.tableName
  putRecord (.table { value with schemaId := newSchema, beginSnapshot := (← get).newSnapshotId })
  markAltered table

def dropTable (table : Nat) : Verb Unit := do
  let _ ← liveTable table
  mutate (·.deleteTable table)
  record (.dropTable table)

/-! ## Columns -/

/-- The live columns of a table, in id order. -/
def columnsOf (v : CatalogSnapshot) (table : Nat) : List ColumnValue :=
  (v.columns.getD table ∅).values

/-- Refuses a name already taken among `parent`'s fields, or among the top-level columns. -/
def siblingNameFree (table : Nat) (parent : Option Nat) (name : String) : Verb Unit := do
  let taken := (columnsOf (← get).state table).any fun c => c.parentColumn == parent && c.columnName == name
  require (!taken) (.alreadyExists s!"column {name}")

/-- Adds a column. Its field id comes from the table's counter, floored above every live id; its position
    continues past the highest live one. -/
def addColumn (table : Nat) (column : ColumnDef) : Verb Nat := do
  validateColumnDefs [column] []
  let value ← liveTable table
  siblingNameFree table none column.name
  let live := columnsOf (← get).state table
  let liveMaxId := ((((← get).state.columns.getD table ∅).keys).max?).getD 0
  let nextId := max value.nextColumnId (liveMaxId + 1)
  let nextOrder := ((live.map ColumnValue.columnOrder).max?).elim 1 (· + 1)
  let (nextId', _) ← stageColumnTree table column none nextId nextOrder
  putRecord (.table { value with nextColumnId := nextId', beginSnapshot := (← get).newSnapshotId })
  markAltered table
  return nextId

def liveColumn (table column : Nat) : Verb ColumnValue := do
  orError (getNested (← get).state.columns table column) (.notFound s!"column {column} of table {table}")

/-- Whether a live index of the table references this column by field id. -/
def columnIsIndexed (v : CatalogSnapshot) (table column : Nat) : Bool :=
  (v.indexes.getD table ∅).values.any (·.columnIds.contains column)

def renameColumn (table column : Nat) (newName : String) : Verb Unit := do
  nonemptyName "column" newName
  let current ← liveColumn table column
  siblingNameFree table current.parentColumn newName
  putRecord (.column { current with columnName := newName, beginSnapshot := (← get).newSnapshotId })
  markAltered table

/-- Alters a column's type, nullability and default. The type of an indexed column is fixed. -/
def alterColumn (table column : Nat) (alteration : ColumnAlteration) : Verb Unit := do
  let value ← liveColumn table column
  if let some newType := alteration.columnType then
    ensureInlinable value.columnName newType
  require (!(alteration.columnType.isSome && columnIsIndexed (← get).state table column)) (.constraint
    s!"column {column} of table {table} is indexed; drop the index before changing its type")
  putRecord (.column { value with
    columnType := alteration.columnType.getD value.columnType
    nullsAllowed := alteration.nullsAllowed.getD value.nullsAllowed
    defaultValue := alteration.defaultValue.getD value.defaultValue
    beginSnapshot := (← get).newSnapshotId })
  markAltered table

/-- The fields directly beneath `parent`. -/
def childrenOf (v : CatalogSnapshot) (table parent : Nat) : List Nat :=
  ((columnsOf v table).filter (·.parentColumn == some parent)).map ColumnValue.columnId

/-- The subtree walk. `visited` are the columns whose children are already listed, `pending` those still
    to expand. The walk of a forest ends within as many steps as there are columns; a walk that runs into
    a parent cycle never ends, and is cut off with `none`. -/
def subtreeWalk (v : CatalogSnapshot) (table : Nat) : Nat → List Nat → List Nat → Option (List Nat)
  | _, visited, [] => some visited
  | 0, _, _ :: _ => none
  | fuel + 1, visited, parent :: pending =>
    subtreeWalk v table fuel (visited ++ [parent]) (pending ++ childrenOf v table parent)

/-- `column` and every field beneath it, parents before their children. -/
def columnSubtree (v : CatalogSnapshot) (table column : Nat) : Option (List Nat) :=
  subtreeWalk v table ((columnsOf v table).length + 1) [] [column]

/-- Drops a column with every field beneath it. A subtree walk that does not end is a verb that does not
    return; it is no success. -/
def dropColumn (table column : Nat) : Verb Unit := do
  let value ← liveColumn table column
  let doomed ← orError (columnSubtree (← get).state table column)
    (.corruption s!"column {column} of table {table} is its own ancestor")
  if let some indexed := doomed.find? (columnIsIndexed (← get).state table) then
    throw (.constraint s!"column {indexed} of table {table} is indexed; drop the index first")
  let liveTopLevel := ((columnsOf (← get).state table).filter (·.parentColumn.isNone)).length
  require (!(value.parentColumn.isNone && decide (liveTopLevel ≤ 1))) (.constraint
    s!"column {column} is the last column of table {table}")
  mutate fun v => doomed.foldl (fun v id => v.deleteColumn table id) v
  markAltered table

/-! ## Partition and sort specs -/

/-- The table's live partition spec, if it has one. -/
def livePartitionId (v : CatalogSnapshot) (table : Nat) : Option Nat :=
  (v.partitions.getD table ∅).minKey?

/-- Refuses a spec that names a column twice or names one that is not live. -/
def partitionColumnsLive (table : Nat) (seen : List Nat) : List PartitionColumnDef → Verb Unit
  | [] => return ()
  | key :: keys => do
    let _ ← liveColumn table key.column
    require (!seen.contains key.column) (.constraint
      s!"partition spec for table {table} names column {key.column} twice")
    partitionColumnsLive table (key.column :: seen) keys

/-- Sets a table's partition spec, replacing the live one. -/
def setPartitioning (table : Nat) (columns : List PartitionColumnDef) : Verb Nat := do
  let _ ← liveTable table
  require (!columns.isEmpty) (.constraint
    s!"partition spec for table {table} needs at least one column; use clear_partitioning to unpartition")
  partitionColumnsLive table [] columns
  if let some partitionId := livePartitionId (← get).state table then
    mutate (·.deletePartition table partitionId)
  let partitionId ← allocCatalogId
  putRecord (.partition
    { partitionId
      tableId := table
      beginSnapshot := (← get).newSnapshotId
      endSnapshot := none
      columns := columns.zipIdx.map fun (key, index) =>
        { partitionKeyIndex := index, columnId := key.column, transform := key.transform } })
  markAltered table
  return partitionId

def clearPartitioning (table : Nat) : Verb Unit := do
  let _ ← liveTable table
  let partitionId ← orError (livePartitionId (← get).state table)
    (.notFound s!"partition spec of table {table}")
  mutate (·.deletePartition table partitionId)
  markAltered table

/-- The table's live sort spec, if it has one. -/
def liveSortId (v : CatalogSnapshot) (table : Nat) : Option Nat :=
  (v.sorts.getD table ∅).minKey?

/-- Sets a table's sort spec, replacing the live one. -/
def setSorting (table : Nat) (keys : List SortKeyDef) : Verb Nat := do
  let _ ← liveTable table
  require (!keys.isEmpty) (.constraint
    s!"sort spec for table {table} needs at least one key; use clear_sorting to unsort")
  if let some sortId := liveSortId (← get).state table then
    mutate (·.deleteSort table sortId)
  let sortId ← allocCatalogId
  putRecord (.sort
    { sortId
      tableId := table
      beginSnapshot := (← get).newSnapshotId
      endSnapshot := none
      expressions := keys.zipIdx.map fun (key, index) =>
        { sortKeyIndex := index, expression := key.expression, dialect := key.dialect
          sortDirection := key.sortDirection, nullOrder := key.nullOrder } })
  record (.alterTableSorting table)
  return sortId

def clearSorting (table : Nat) : Verb Unit := do
  let _ ← liveTable table
  let sortId ← orError (liveSortId (← get).state table) (.notFound s!"sort spec of table {table}")
  mutate (·.deleteSort table sortId)
  record (.alterTableSorting table)

/-! ## Indexes -/

def indexNameFree (table : Nat) (name : String) : Verb Unit := do
  let taken := ((← get).state.indexes.getD table ∅).values.any (·.indexName == name)
  require (!taken) (.alreadyExists s!"index {name}")

/-- What staging an entry against an index needs to know about it. -/
structure IndexShape where
  unique : Bool
  columnCount : Nat
  orders : List ColumnOrder
  building : Bool

/-- Encodes one entry and stages it. A row with a NULL indexed column is stored under its row id and
    collides with nothing. -/
def stageIndexEntry (indexId : Nat) (shape : IndexShape) (entry : IndexEntry) (delete : Bool) :
    Verb Unit := do
  require (entry.values.length == shape.columnCount) (.constraint
    s!"index entry has {entry.values.length} values, expected {shape.columnCount}")
  let hasNull := entry.values.any Option.isNone
  match encodeOrderedValues entry.values (shape.orders.map ColumnOrder.direction)
      (shape.orders.map ColumnOrder.nulls) with
  | .error e => throw e
  | .ok key =>
    modify fun tx => { tx with
      indexEntries := tx.indexEntries ++
        [{ indexId, unique := shape.unique && !hasNull, key, rowId := entry.rowId, delete
           building := shape.building }] }

/-- Stages a list of entries, up to the first that is refused. -/
def stageIndexEntries (indexId : Nat) (shape : IndexShape) (delete : Bool) : List IndexEntry → Verb Unit
  | [] => return ()
  | entry :: entries => do
    stageIndexEntry indexId shape entry delete
    stageIndexEntries indexId shape delete entries

/-- The per-column orders of a stored definition, ascending with NULLs last where it omits them. -/
def columnOrders (value : IndexValue) : List ColumnOrder :=
  (List.range value.columnIds.length).map fun i =>
    { direction := if value.columnDescending[i]?.getD false then .descending else .ascending
      nulls := if value.columnNullsFirst[i]?.getD false then .first else .last }

def indexableColumns (table : Nat) : List Nat → Verb Unit
  | [] => return ()
  | column :: columns => do
    let live ← liveColumn table column
    ensureIndexable live.columnName live.columnType
    indexableColumns table columns

/-- Validates an index definition and stages its record. A definition built in steps carries a build
    state. Orders are recorded only where they differ from the default. -/
def insertIndexDefinition (table : Nat) (index : IndexDef) (maintenance : IndexMaintenance)
    (buildState : Option String) (orders : List ColumnOrder) : Verb Nat := do
  nonemptyName "index" index.name
  let _ ← liveTable table
  require (!index.columns.isEmpty) (.constraint s!"index {index.name} needs at least one column")
  indexableColumns table index.columns
  indexNameFree table index.name
  require (!(maintenance == .deferred && index.unique)) (.constraint
    "deferred maintenance is supported only for non-unique indexes")
  require (orders.isEmpty || orders.length == index.columns.length) (.constraint
    s!"index {index.name} has {index.columns.length} columns but {orders.length} sort orders")
  let columnDescending :=
    if orders.all (·.direction == .ascending) then [] else orders.map (·.direction == .descending)
  let columnNullsFirst :=
    if orders.all (·.nulls == .last) then [] else orders.map (·.nulls == .first)
  let indexId ← allocCatalogId
  putRecord (.index
    { indexId
      tableId := table
      beginSnapshot := (← get).newSnapshotId
      endSnapshot := none
      indexName := index.name
      columnIds := index.columns
      unique := index.unique
      columnDescending
      columnNullsFirst
      buildState
      buildCursorFile := none
      buildCursorRowId := none
      buildCursorPosition := none
      buildDeletesScanned := none
      poisoned := none
      ducklakeIndexId := none
      deferredMaintenance := if maintenance == .deferred then some true else none })
  return indexId

def createIndexOrderedWithMaintenance (table : Nat) (index : IndexDef) (orders : List ColumnOrder)
    (maintenance : IndexMaintenance) (backfill : List IndexEntry) : Verb Nat := do
  let indexId ← insertIndexDefinition table index maintenance none orders
  stageIndexEntries indexId ⟨index.unique, index.columns.length, orders, false⟩ false backfill
  markAltered table
  return indexId

def createIndex (table : Nat) (index : IndexDef) (backfill : List IndexEntry) : Verb Nat := do
  let indexId ← insertIndexDefinition table index .synchronous none []
  stageIndexEntries indexId ⟨index.unique, index.columns.length, [], false⟩ false backfill
  markAltered table
  return indexId

/-- The owning table and the definition of a live index: the first table, in id order, that holds it. -/
def findIndex (v : CatalogSnapshot) (index : Nat) : Option (Nat × IndexValue) :=
  v.indexes.toList.findSome? fun (tableId, perTable) => perTable[index]?.map (tableId, ·)

def liveIndex (index : Nat) : Verb (Nat × IndexValue) := do
  orError (findIndex (← get).state index) (.notFound s!"index {index}")

def dropIndex (index : Nat) : Verb Unit := do
  let (tableId, _) ← liveIndex index
  mutate (·.deleteIndex tableId index)
  markAltered tableId

def createIndexStagedOrderedWithMaintenance (table : Nat) (index : IndexDef) (orders : List ColumnOrder)
    (maintenance : IndexMaintenance) : Verb Nat := do
  let indexId ← insertIndexDefinition table index maintenance (some "building") orders
  markAltered table
  return indexId

/-- Moves the file cursor to `source`, only forwards. -/
def coverSource (value : IndexValue) : Option (Nat × Nat) → IndexValue
  | none => value
  | some (fileId, position) =>
    let ahead := match value.buildCursorFile, value.buildCursorPosition with
      | some f, some p => decide (f < fileId) || (f == fileId && decide (p < position))
      | _, _ => true
    if ahead then { value with buildCursorFile := some fileId, buildCursorPosition := some position }
    else value

/-- The definition after a build step: the row cursor at the largest row id of the batch, the file cursor
    at the source position, and no build state after the final step. -/
def advanceBuild (value : IndexValue) (batch : List IndexEntry) (isFinal : Bool)
    (source : Option (Nat × Nat)) (newSnapshotId : Nat) : IndexValue :=
  let cursor := batch.foldl (fun c entry => max c entry.rowId) (value.buildCursorRowId.getD 0)
  let value := coverSource { value with
    beginSnapshot := newSnapshotId
    buildCursorRowId := if batch.isEmpty then value.buildCursorRowId else some cursor } source
  { value with buildState := if isFinal then none else value.buildState }

/-- Advances a staged build by one batch of entries, persisting the cursors it has covered. A duplicate the
    backfill discovers poisons the build, as a writer's would. -/
def buildIndexStepAt (index : Nat) (batch : List IndexEntry) (isFinal : Bool)
    (source : Option (Nat × Nat)) : Verb IndexState := do
  let (tableId, value) ← liveIndex index
  require (value.buildState == some "building" || value.buildState == some "maintaining")
    (.constraint s!"index {index} is not building")
  let maintenanceRepair := value.buildState == some "maintaining"
  stageIndexEntries index ⟨value.unique, value.columnIds.length, columnOrders value, true⟩ false batch
  putRecord (.index (advanceBuild value batch isFinal source (← get).newSnapshotId))
  if isFinal then
    if maintenanceRepair then record (.finishIndexMaintenance tableId) else markAltered tableId
    return .ready
  else
    record (.advanceIndexBuild tableId)
    return if maintenanceRepair then .maintaining else .building

/-- A step that also persists the physical source position it has covered. -/
def buildIndexSourceStep (index : Nat) (batch : List IndexEntry) (isFinal : Bool)
    (source : Option (Nat × Nat)) : Verb IndexState :=
  buildIndexStepAt index batch isFinal source

/-! ## Data files and delete files -/

def liveTableStats (table : Nat) : Verb TableStatsValue := do
  orError (← get).state.tableStats[table]? (.corruption s!"table {table} has no statistics record")

/-- The first row id the table has left to mint, recording where its counter stood before this commit. -/
def allocateRowIds (table : Nat) (tstat : TableStatsValue) : Verb Nat := do
  modify fun tx => { tx with
    inheritedRowIds := tx.inheritedRowIds.insertIfNew table tstat.nextRowId }
  return tstat.nextRowId

/-- The row ids the table had allocated before this commit ran. -/
def inheritedRowIdsOf (table : Nat) (tstat : TableStatsValue) : Verb Nat :=
  return (← get).inheritedRowIds.getD table tstat.nextRowId

/-- The live partition spec a file falls under, after checking it carries one value per key. -/
def resolveFilePartition (table : Nat) (values : List String) : Verb (Option Nat) := do
  match ((← get).state.partitions.getD table ∅).values.head? with
  | none =>
    require values.isEmpty (.constraint
      s!"register_data_file: {values.length} partition values on table {table}, which has no live partition spec")
    return none
  | some spec =>
    require (values.length == spec.columns.length) (.constraint
      (s!"register_data_file: {values.length} partition values on table {table}, " ++
        s!"whose live spec has {spec.columns.length} keys"))
    return some spec.partitionId

def filePartitionValues (values : List String) : List FilePartitionValue :=
  values.zipIdx.map fun (value, index) => { partitionKeyIndex := index, partitionValue := value }

def liveIndexCount (v : CatalogSnapshot) (table : Nat) : Nat := (v.indexes.getD table ∅).size

/-- A live index's uniqueness, column count and orders. -/
def liveIndexShape (table index : Nat) : Verb IndexShape := do
  let value ← orError (getNested (← get).state.indexes table index)
    (.notFound s!"index {index} on table {table}")
  return ⟨value.unique, value.columnIds.length, columnOrders value, value.buildState.isSome⟩

/-- Stages file-supplied entries, each for the row at `rowIdStart + ordinal`. -/
def stageFileIndexEntries (table rowIdStart : Nat) : List FileIndexEntry → Verb Unit
  | [] => return ()
  | entry :: entries => do
    let shape ← liveIndexShape table entry.index
    let rowId ← orError (checkedAdd rowIdStart entry.ordinal) (.constraint
      s!"index entry ordinal {entry.ordinal} overflows the row-id range on table {table}")
    stageIndexEntry entry.index shape ⟨rowId, entry.values⟩ false
    stageFileIndexEntries table rowIdStart entries

/-- Stages the entry removals a delete names, each under its writer-supplied row id. -/
def stageDeleteFileIndexEntries (table : Nat) : List FileIndexRemoval → Verb Unit
  | [] => return ()
  | entry :: entries => do
    let shape ← liveIndexShape table entry.index
    stageIndexEntry entry.index shape ⟨entry.rowId, entry.values⟩ true
    stageDeleteFileIndexEntries table entries

def statsColumnsLive (table : Nat) : List FileColumnStats → Verb Unit
  | [] => return ()
  | entry :: entries => do
    let _ ← liveColumn table entry.columnId
    statsColumnsLive table entries

def putFileColumnStats (table dataFileId : Nat) : List FileColumnStats → Verb Unit
  | [] => return ()
  | entry :: entries => do
    putRecord (.fileColumnStats
      { dataFileId
        tableId := table
        columnId := entry.columnId
        columnSizeBytes := entry.columnSizeBytes
        valueCount := entry.valueCount
        nullCount := entry.nullCount
        minValue := entry.minValue
        maxValue := entry.maxValue
        containsNan := entry.containsNan
        extraStats := entry.extraStats
        variantStats := [] })
    putFileColumnStats table dataFileId entries

def dataFileRecord (dataFileId table beginSnapshot : Nat) (file : DataFile) (rowIdStart : Nat)
    (partitionId partialMax : Option Nat) : DataFileValue :=
  { dataFileId
    tableId := table
    beginSnapshot
    endSnapshot := none
    fileOrder := none
    path := file.path
    pathIsRelative := file.pathIsRelative
    fileFormat := file.fileFormat
    recordCount := file.recordCount
    fileSizeBytes := file.fileSizeBytes
    footerSize := file.footerSize
    rowIdStart := some rowIdStart
    partitionId
    encryptionKey := file.encryptionKey
    mappingId := none
    partialMax
    partitionValues := filePartitionValues file.partitionValues }

/-- What a registration does once the file has its id. -/
def registerAllocated (table : Nat) (file : DataFile) (indexEntries : List FileIndexEntry)
    (partitionId : Option Nat) (dataFileId : Nat) : Verb Nat := do
  let tstat ← liveTableStats table
  let rowIdStart ← allocateRowIds table tstat
  putRecord (.tableStats { tstat with
    nextRowId := saturatingAdd tstat.nextRowId file.recordCount
    recordCount := saturatingAdd tstat.recordCount file.recordCount
    fileSizeBytes := saturatingAdd tstat.fileSizeBytes file.fileSizeBytes })
  putRecord (.file (dataFileRecord dataFileId table (← get).newSnapshotId file rowIdStart partitionId none))
  putFileColumnStats table dataFileId file.columnStats
  stageFileIndexEntries table rowIdStart indexEntries
  record (.registerDataFile table)
  return dataFileId

/-- Registers a data file: allocates its row-id range, folds its size into the table's statistics and
    stages the index entries of its rows. -/
def registerDataFile (table : Nat) (file : DataFile) (indexEntries : List FileIndexEntry) : Verb Nat := do
  let _ ← liveTable table
  statsColumnsLive table file.columnStats
  require (!(decide (liveIndexCount (← get).state table > 0) && decide (file.recordCount > 0)
      && indexEntries.isEmpty))
    (.constraint s!"register_data_file on indexed table {table} must supply index entries")
  if let some entry := indexEntries.find? (fun e => decide (e.ordinal ≥ file.recordCount)) then
    throw (.constraint
      (s!"register_data_file: index entry ordinal {entry.ordinal} " ++
        s!"is outside file record count {file.recordCount} on table {table}"))
  let partitionId ← resolveFilePartition table file.partitionValues
  let dataFileId ← allocFileId
  registerAllocated table file indexEntries partitionId dataFileId

/-- Expires a data file with the delete files that target it, and takes its size off the statistics. -/
def expireDataFile (table file : Nat) : Verb Unit := do
  let dataFile ← orError (getNested (← get).state.dataFiles table file)
    (.notFound s!"data file {file} of table {table}")
  let cascaded := (((← get).state.deleteFiles.getD table ∅).values.filter (·.dataFileId == file)).map
    DeleteFileValue.deleteFileId
  mutate fun v => cascaded.foldl (fun v id => v.deleteDeleteFile table id) v
  mutate (·.deleteDataFile table file)
  let tstat ← liveTableStats table
  putRecord (.tableStats { tstat with
    recordCount := tstat.recordCount - dataFile.recordCount
    fileSizeBytes := tstat.fileSizeBytes - dataFile.fileSizeBytes })
  record (.expireDataFile table)

/-- Registers the one live delete file of a data file, with the entry removals of the rows it kills. A
    removal names its row by id, inside a dense target's range. -/
def registerDeleteFile (table : Nat) (file : DeleteFile) (indexEntries : List FileIndexRemoval) :
    Verb Nat := do
  let _ ← liveTable table
  let dataFile ← orError (getNested (← get).state.dataFiles table file.dataFileId)
    (.notFound s!"data file {file.dataFileId} of table {table}")
  let alreadyTargeted :=
    ((← get).state.deleteFiles.getD table ∅).values.any (·.dataFileId == file.dataFileId)
  require (!alreadyTargeted) (.constraint
    s!"data file {file.dataFileId} of table {table} already has a live delete file; expire it first")
  require (!(decide (liveIndexCount (← get).state table > 0) && decide (file.deleteCount > 0)
      && indexEntries.isEmpty))
    (.constraint s!"register_delete_file on indexed table {table} must supply index entries")
  require (!(file.deleteCount == 0 && !indexEntries.isEmpty)) (.constraint
    s!"register_delete_file on table {table} supplies index entries but deletes no rows")
  if let some start := dataFile.rowIdStart then
    let end_ ← orError (checkedAdd start dataFile.recordCount) (.constraint
      s!"register_delete_file: target data file {file.dataFileId}'s row-id range overflows u64 on table {table}")
    if let some entry := indexEntries.find? (fun e => decide (e.rowId < start) || decide (e.rowId ≥ end_)) then
      throw (.constraint
        (s!"register_delete_file: index entry row id {entry.rowId} " ++
          s!"is outside the target file's row-id range on table {table}"))
  let deleteFileId ← allocFileId
  putRecord (.deleteFile
    { deleteFileId
      tableId := table
      beginSnapshot := (← get).newSnapshotId
      endSnapshot := none
      dataFileId := file.dataFileId
      path := file.path
      pathIsRelative := file.pathIsRelative
      format := file.format
      deleteCount := file.deleteCount
      fileSizeBytes := file.fileSizeBytes
      footerSize := file.footerSize
      encryptionKey := file.encryptionKey
      partialMax := none })
  stageDeleteFileIndexEntries table indexEntries
  record (.registerDeleteFile table file.dataFileId)
  return deleteFileId

def expireDeleteFile (table file : Nat) : Verb Unit := do
  require (getNested (← get).state.deleteFiles table file).isSome
    (.notFound s!"delete file {file} of table {table}")
  mutate (·.deleteDeleteFile table file)
  record (.expireDeleteFile table)

/-! ## Statistics -/

/-- Overrides a table's row count and size. The row-id counter is kept. -/
def updateTableStats (table recordCount fileSizeBytes : Nat) : Verb Unit := do
  let _ ← liveTable table
  let tstat ← liveTableStats table
  putRecord (.tableStats { tstat with recordCount, fileSizeBytes })
  record (.updateStats table)

def updateColumnStats (table column : Nat) (stats : ColumnStats) : Verb Unit := do
  let _ ← liveColumn table column
  putRecord (.tableColumnStats
    { tableId := table
      columnId := column
      containsNull := stats.containsNull
      containsNan := stats.containsNan
      minValue := stats.minValue
      maxValue := stats.maxValue
      extraStats := stats.extraStats })
  record (.updateStats table)

/-! ## Views and macros -/

def createView (schema : Nat) (name dialect sql uuid : String) : Verb Nat := do
  pathSafeName "view" name
  let schemaRec ← orError (← get).state.schemas[schema]? (.notFound s!"schema {schema}")
  relationNameFree schema name
  let viewId ← allocCatalogId
  putRecord (.view
    { viewId
      viewUuid := uuid
      beginSnapshot := (← get).newSnapshotId
      endSnapshot := none
      schemaId := schema
      viewName := name
      dialect
      sql
      columnAliases := none })
  record (.createView schema viewId schemaRec.schemaName name)
  return viewId

/-- Replaces a view's definition as a new version. -/
def alterView (view : Nat) (dialect sql : String) : Verb Unit := do
  let value ← orError (← get).state.views[view]? (.notFound s!"view {view}")
  putRecord (.view { value with dialect, sql, beginSnapshot := (← get).newSnapshotId })
  record (.alterView view)

def dropView (view : Nat) : Verb Unit := do
  require ((← get).state.views.contains view) (.notFound s!"view {view}")
  mutate (·.deleteView view)
  record (.dropView view)

def macroImplementation (impl : MacroImplementationDef) (implId : Nat) : MacroImplementation :=
  { implId
    dialect := impl.dialect
    sql := impl.sql
    macroType := impl.macroType
    parameters := impl.parameters.zipIdx.map fun (p, columnId) =>
      { columnId, parameterName := p.name, parameterType := p.parameterType
        defaultValue := p.defaultValue, defaultValueType := p.defaultValueType } }

/-- Creates a macro. Its name must be free among the schema's macros of the same type. -/
def createMacro (schema : Nat) (name : String) (implementations : List MacroImplementationDef) :
    Verb Nat := do
  let schemaRec ← orError (← get).state.schemas[schema]? (.notFound s!"schema {schema}")
  let first ← orError implementations.head? (.constraint s!"macro {name} needs at least one implementation")
  require (!implementations.any (·.macroType ≠ first.macroType)) (.constraint
    s!"macro {name}: all implementations must share one macro_type")
  let nameTaken := (← get).state.macros.values.any fun m =>
    m.schemaId == schema && m.macroName == name
      && m.implementations.head?.any (·.macroType == first.macroType)
  require (!nameTaken) (.alreadyExists s!"macro {name}")
  let macroId ← allocCatalogId
  putRecord (.macroDef
    { macroId
      beginSnapshot := (← get).newSnapshotId
      endSnapshot := none
      schemaId := schema
      macroName := name
      implementations := implementations.zipIdx.map fun (impl, id) => macroImplementation impl id })
  record (.createMacro schema macroId schemaRec.schemaName name first.macroType)
  return macroId

def dropMacro (macroId : Nat) : Verb Unit := do
  let value ← orError (← get).state.macros[macroId]? (.notFound s!"macro {macroId}")
  mutate (·.deleteMacro macroId)
  record (.dropMacro macroId ((value.implementations.head?.map (·.macroType)).getD ""))

/-! ## Options and tags -/

def liveScope : OptionScope → Verb Unit
  | .global => return ()
  | .schema s => do require ((← get).state.schemas.contains s) (.notFound s!"schema {s}")
  | .table t => do require ((← get).state.tables.contains t) (.notFound s!"table {t}")

/-- Whether data files are encrypted is fixed when the catalog is created. -/
def reservedOption (scope : OptionScope) (key : String) : Verb Unit :=
  require (!(scope == .global && key == "encrypted")) (.constraint
    "the global `encrypted` option is fixed at catalog creation")

/-- Sets an option in a scope. No operation is recorded: a commit of options alone mints no snapshot. -/
def setOption (scope : OptionScope) (key value : String) : Verb Unit := do
  nonemptyName "option key" key
  liveScope scope
  reservedOption scope key
  let old := ((← get).state.options[scope.keyComponents]?).getD ⟨∅⟩
  mutate (·.setOptionRecord scope.keyComponents ⟨old.options.insert key value⟩)

/-- Removes an option; an absent one is no error. -/
def unsetOption (scope : OptionScope) (key : String) : Verb Unit := do
  liveScope scope
  reservedOption scope key
  match (← get).state.options[scope.keyComponents]? with
  | none => return ()
  | some old =>
    if old.options.contains key then
      let options := old.options.erase key
      if options.isEmpty then mutate (·.removeOptionRecord scope.keyComponents)
      else mutate (·.setOptionRecord scope.keyComponents ⟨options⟩)

/-- Records the mutation of a live tag target. -/
def markTagged : TagTarget → Verb Unit
  | .schema schema => do
    require ((← get).state.schemas.contains schema) (.notFound s!"schema {schema}")
    record (.alterSchema schema)
  | .table table => do
    let _ ← liveTable table
    record (.alterTable table)
  | .view view => do
    require ((← get).state.views.contains view) (.notFound s!"view {view}")
    record (.alterView view)

/-- Ends the first live entry for `key`, if there is one. -/
def endEntry (key : String) (newSnapshotId : Nat) : List TagEntry → Option (List TagEntry)
  | [] => none
  | entry :: entries =>
    if entry.key == key && entry.endSnapshot.isNone then
      some ({ entry with endSnapshot := some newSnapshotId } :: entries)
    else (endEntry key newSnapshotId entries).map (entry :: ·)

/-- Ends the live entry for `key` on the object, and says whether there was one. -/
def endLiveTag (objectId : Nat) (key : String) : Verb Bool := do
  match (← get).state.tags[objectId]? with
  | none => return false
  | some container =>
    match endEntry key (← get).newSnapshotId container.entries with
    | none => return false
    | some entries =>
      mutate fun v => { v with tags := v.tags.insert objectId { container with entries } }
      return true

/-- Sets a tag: an existing value ends and the new one begins at this commit's snapshot. -/
def setTag (target : TagTarget) (key value : String) : Verb Unit := do
  nonemptyName "tag key" key
  markTagged target
  let _ ← endLiveTag target.objectId key
  let entry : TagEntry := { beginSnapshot := (← get).newSnapshotId, endSnapshot := none, key, value }
  let container := ((← get).state.tags[target.objectId]?).getD { objectId := target.objectId, entries := [] }
  mutate fun v => { v with
    tags := v.tags.insert target.objectId { container with entries := container.entries ++ [entry] } }

def removeTag (target : TagTarget) (key : String) : Verb Unit := do
  markTagged target
  let ended ← endLiveTag target.objectId key
  require ended (.notFound s!"tag {quoted key} on object {target.objectId}")

/-! ## Inlined data -/

def stageInline (stage : InlineStage) : Verb Unit :=
  modify fun tx => { tx with inlineOps := tx.inlineOps ++ [stage] }

def allocateChunkSeq (table schemaVersion : Nat) : Verb Nat :=
  modifyGet fun tx =>
    let seq := tx.chunkSeqs.getD (table, schemaVersion) 0
    (seq, { tx with chunkSeqs := tx.chunkSeqs.insert (table, schemaVersion) (seq + 1) })

/-- Inlines a chunk of rows. Their ids come from the table's row-id counter. -/
def inlineInsert (table : Nat) (chunk : InlineChunk) (indexEntries : List FileIndexEntry) : Verb Nat := do
  let _ ← liveTable table
  require (chunk.rowCount ≠ 0) (.constraint s!"inline_insert on table {table} carries no rows")
  require (!(decide (liveIndexCount (← get).state table > 0) && indexEntries.isEmpty)) (.constraint
    s!"inline_insert on indexed table {table} must supply index entries")
  if let some entry := indexEntries.find? (fun e => decide (e.ordinal ≥ chunk.rowCount)) then
    throw (.constraint
      (s!"inline_insert: index entry ordinal {entry.ordinal} " ++
        s!"is outside the chunk's {chunk.rowCount} rows on table {table}"))
  let tstat ← liveTableStats table
  let rowIdStart ← allocateRowIds table tstat
  putRecord (.tableStats { tstat with
    nextRowId := saturatingAdd tstat.nextRowId chunk.rowCount
    recordCount := saturatingAdd tstat.recordCount chunk.rowCount })
  let chunkSeq ← allocateChunkSeq table chunk.schemaVersion
  stageInline (.schema table chunk.schemaVersion chunk.arrowSchema)
  stageInline (.insert table chunk.schemaVersion (← get).newSnapshotId chunkSeq rowIdStart chunk.rowCount
    chunk.arrowBody)
  stageFileIndexEntries table rowIdStart indexEntries
  record (.inlineInsert table)
  return rowIdStart

/-- Tombstones one inlined row. -/
def inlineDelete (table rowId : Nat) (indexEntries : List FileIndexRemoval) : Verb Unit := do
  let _ ← liveTable table
  require (!(decide (liveIndexCount (← get).state table > 0) && indexEntries.isEmpty)) (.constraint
    s!"inline_delete on indexed table {table} must supply index entries")
  if let some entry := indexEntries.find? (·.rowId ≠ rowId) then
    throw (.constraint
      s!"inline_delete: index entry names row {entry.rowId} but the tombstoned row is {rowId} on table {table}")
  stageInline (.tombstone table rowId (← get).newSnapshotId)
  stageDeleteFileIndexEntries table indexEntries
  record (.inlineDelete table)

/-- What a flush does with a file once it has its id. -/
def flushAllocated (table : Nat) (flush : FlushedDataFile) (partitionId : Option Nat) (dataFileId : Nat) :
    Verb Nat := do
  let tstat ← liveTableStats table
  putRecord (.tableStats { tstat with
    fileSizeBytes := saturatingAdd tstat.fileSizeBytes flush.file.fileSizeBytes })
  putRecord (.file (dataFileRecord dataFileId table flush.beginSnapshot flush.file flush.rowIdStart
    partitionId flush.partialMax))
  putFileColumnStats table dataFileId flush.file.columnStats
  return dataFileId

/-- Registers one flushed file: row ids kept, record backdated, only its bytes added to the statistics.
    `ceiling` bounds the row ids it may claim. -/
def registerFlushedFile (table : Nat) (flush : FlushedDataFile) (ceiling : Nat) : Verb Nat := do
  let newSnapshotId := (← get).newSnapshotId
  require (flush.beginSnapshot < newSnapshotId) (.constraint
    (s!"flush_inlined_data: file {flush.file.path} is backdated to snapshot {flush.beginSnapshot}, " ++
      s!"which is not below this commit's {newSnapshotId} — the rows it carries were inlined before it"))
  if let some partialMax := flush.partialMax then
    require (decide (flush.beginSnapshot ≤ partialMax) && decide (partialMax < newSnapshotId)) (.constraint
      (s!"flush_inlined_data: file {flush.file.path}'s partial_max {partialMax} is outside the snapshots " ++
        s!"its rows were inlined at ({flush.beginSnapshot} to below {newSnapshotId})"))
  let end_ ← orError (checkedAdd flush.rowIdStart flush.file.recordCount) (.constraint
    s!"flush_inlined_data: file {flush.file.path}'s row-id range overflows u64")
  require (end_ ≤ ceiling) (.constraint
    (s!"flush_inlined_data: file {flush.file.path} covers row ids up to {end_}, " ++
      s!"past the {ceiling} table {table} had allocated when this commit began"))
  statsColumnsLive table flush.file.columnStats
  let partitionId ← resolveFilePartition table flush.file.partitionValues
  let dataFileId ← allocFileId
  flushAllocated table flush partitionId dataFileId

def registerFlushedFiles (table ceiling : Nat) : List FlushedDataFile → Verb (List Nat)
  | [] => return []
  | flush :: flushes => do
    let id ← registerFlushedFile table flush ceiling
    let ids ← registerFlushedFiles table ceiling flushes
    return id :: ids

/-- Drains a table's inlined rows of one schema version into files the caller already wrote. -/
def flushInlinedData (table schemaVersion : Nat) (flushed : List FlushedDataFile) : Verb (List Nat) := do
  let _ ← liveTable table
  let tstat ← liveTableStats table
  let ceiling ← inheritedRowIdsOf table tstat
  let ids ← registerFlushedFiles table ceiling flushed
  stageInline (.flush table schemaVersion (← get).newSnapshotId)
  record (.flushInlinedData table)
  return ids

end Transaction

end Moraine
