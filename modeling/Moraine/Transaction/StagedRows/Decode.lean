-- SUMMARY: Staged row operations and the decoders from their cells to record values and keys.
import Moraine.Store.Store

/-!
# Staged rows

A staged transaction collects row operations as DuckLake wrote them: a table, and the cells of one row in
the table's column order. A decoder reads the cells one by one through a cursor and refuses a row with a
cell of the wrong type, too few cells or too many.
-/

namespace Moraine.StagedRows

/-! ## Rows and operations -/

/-- The table a staged row belongs to. -/
inductive TableKind where
  | snapshot | snapshotChanges | schema | table | view | column | dataFile | deleteFile
  | tableStats | tableColumnStats | fileColumnStats | schemaVersions
  | partitionInfo | partitionColumn | filePartitionValue | sortInfo | sortExpression
  | tag | columnTag | filesScheduledForDeletion
  | macroDef | macroImpl | macroParameters | columnMapping | nameMapping | metadata
  deriving DecidableEq

/-- How a kind is written in an error message. -/
def TableKind.debug : TableKind → String
  | .snapshot => "Snapshot"
  | .snapshotChanges => "SnapshotChanges"
  | .schema => "Schema"
  | .table => "Table"
  | .view => "View"
  | .column => "Column"
  | .dataFile => "DataFile"
  | .deleteFile => "DeleteFile"
  | .tableStats => "TableStats"
  | .tableColumnStats => "TableColumnStats"
  | .fileColumnStats => "FileColumnStats"
  | .schemaVersions => "SchemaVersions"
  | .partitionInfo => "PartitionInfo"
  | .partitionColumn => "PartitionColumn"
  | .filePartitionValue => "FilePartitionValue"
  | .sortInfo => "SortInfo"
  | .sortExpression => "SortExpression"
  | .tag => "Tag"
  | .columnTag => "ColumnTag"
  | .filesScheduledForDeletion => "FilesScheduledForDeletion"
  | .macroDef => "Macro"
  | .macroImpl => "MacroImpl"
  | .macroParameters => "MacroParameters"
  | .columnMapping => "ColumnMapping"
  | .nameMapping => "NameMapping"
  | .metadata => "Metadata"

/-- One column value of a staged row. -/
inductive Cell where
  | null
  | u64 (value : Nat)
  | i64 (value : Int)
  | bool (value : Bool)
  | str (value : String)
  deriving DecidableEq

/-- How a cell is written in an error message. -/
def Cell.debug : Cell → String
  | .null => "Null"
  | .u64 value => s!"U64({value})"
  | .i64 value => s!"I64({value})"
  | .bool value => s!"Bool({value})"
  | .str value => s!"Str({value.quote})"

/-- One staged row mutation. A chunk's body is opaque here. -/
inductive RowOperation where
  | insert (kind : TableKind) (cells : List Cell)
  | delete (kind : TableKind) (cells : List Cell)
  | updateSetEnd (kind : TableKind) (cells : List Cell)
  | updateSetBegin (kind : TableKind) (cells : List Cell)
  | inlineSchema (tableId schemaVersion : Nat) (arrowSchema : List UInt8)
  | inlineInsert (tableId schemaVersion beginSnapshot rowIdStart rowCount : Nat) (arrowBody : List UInt8)
  | inlineInlineDelete (tableId rowId endSnapshot : Nat)
  | inlineFileDelete (tableId dataFileId rowId beginSnapshot : Nat)
  | inlineFileDeleteRemove (tableId dataFileId rowId : Nat)
  | inlineFlushDelete (tableId schemaVersion flushSnapshot : Nat)
  | inlineDrop (tableId : Nat)
  | inlineSchemaDrop (tableId schemaVersion : Nat)
  deriving DecidableEq

namespace RowOperation

def isInsert : RowOperation → Bool
  | .insert .. => true
  | _ => false

def isSetBegin : RowOperation → Bool
  | .updateSetBegin .. => true
  | _ => false

/-- The operations on inlined data, which are translated apart from the catalog rows. -/
def isInline : RowOperation → Bool
  | .insert .. | .delete .. | .updateSetEnd .. | .updateSetBegin .. => false
  | _ => true

end RowOperation

def corruptRow (kind : TableKind) (detail : String) : Error :=
  .corruption s!"staged row for {kind.debug}: {detail}"

/-! ## Cursors -/

/-- A reader of the cells of one row, with the row's table for its errors. -/
abbrev Cursor := ReaderT TableKind (StateT (List Cell) (Except Error))

namespace Cursor

def next : Cursor Cell := fun kind cells =>
  match cells with
  | [] => .error (corruptRow kind "too few cells")
  | cell :: rest => .ok (cell, rest)

/-- Reads a cell of the expected type. -/
def typed {α : Type} (expected : String) (read : Cell → Option α) : Cursor α := do
  let cell ← next
  match read cell with
  | some value => return value
  | none => throw (corruptRow (← readThe TableKind) s!"expected {expected}, got {cell.debug}")

def u64 : Cursor Nat := typed "u64" fun
  | .u64 v => some v
  | _ => none

def optU64 : Cursor (Option Nat) := typed "optional u64" fun
  | .null => some none
  | .u64 v => some (some v)
  | _ => none

def i64 : Cursor Int := typed "i64" fun
  | .i64 v => some v
  | _ => none

def bool : Cursor Bool := typed "bool" fun
  | .bool v => some v
  | _ => none

def optBool : Cursor (Option Bool) := typed "optional bool" fun
  | .null => some none
  | .bool v => some (some v)
  | _ => none

def string : Cursor String := typed "string" fun
  | .str v => some v
  | _ => none

def optString : Cursor (Option String) := typed "optional string" fun
  | .null => some none
  | .str v => some (some v)
  | _ => none

/-- Reads one row of a table, whose cells must all be read. -/
def row {α : Type} (kind : TableKind) (cells : List Cell) (c : Cursor α) : Except Error α :=
  match c kind cells with
  | .error e => .error e
  | .ok (value, []) => .ok value
  | .ok (_, _ :: _) => .error (corruptRow kind "too many cells")

/-- Reads the first cells of a row; what follows is not looked at. -/
def rowStart {α : Type} (kind : TableKind) (cells : List Cell) (c : Cursor α) : Except Error α :=
  (c kind cells).map Prod.fst

end Cursor

open Cursor

/-! ## Rows that are records -/

def decodeSchema (cells : List Cell) : Except Error SchemaValue := row .schema cells do
  return {
    schemaId := ← u64
    schemaUuid := ← string
    beginSnapshot := ← u64
    endSnapshot := ← optU64
    schemaName := ← string
    path := ← string
    pathIsRelative := ← bool }

/-- A table row, which has no field-id counter: that is carried over from the base view. -/
structure TableCells where
  tableId : Nat
  tableUuid : String
  beginSnapshot : Nat
  endSnapshot : Option Nat
  schemaId : Nat
  tableName : String
  path : String
  pathIsRelative : Bool

def decodeTable (cells : List Cell) : Except Error TableCells := row .table cells do
  return {
    tableId := ← u64
    tableUuid := ← string
    beginSnapshot := ← u64
    endSnapshot := ← optU64
    schemaId := ← u64
    tableName := ← string
    path := ← string
    pathIsRelative := ← bool }

/-- The full record: the counter of the table's prior version in `base`, or 1 for a new id. -/
def tableValue (base : CatalogSnapshot) (cells : TableCells) : TableValue :=
  { tableId := cells.tableId
    tableUuid := cells.tableUuid
    beginSnapshot := cells.beginSnapshot
    endSnapshot := cells.endSnapshot
    schemaId := cells.schemaId
    tableName := cells.tableName
    path := cells.path
    pathIsRelative := cells.pathIsRelative
    nextColumnId := base.tables[cells.tableId]?.elim 1 (·.nextColumnId) }

def decodeView (cells : List Cell) : Except Error ViewValue := row .view cells do
  return {
    viewId := ← u64
    viewUuid := ← string
    beginSnapshot := ← u64
    endSnapshot := ← optU64
    schemaId := ← u64
    viewName := ← string
    dialect := ← string
    sql := ← string
    columnAliases := ← optString }

def decodeColumn (cells : List Cell) : Except Error ColumnValue := row .column cells do
  return {
    columnId := ← u64
    beginSnapshot := ← u64
    endSnapshot := ← optU64
    tableId := ← u64
    columnOrder := ← u64
    columnName := ← string
    columnType := ← string
    initialDefault := ← optString
    defaultValue := ← optString
    nullsAllowed := ← bool
    parentColumn := ← optU64
    defaultValueType := ← optString
    defaultValueDialect := ← optString
    tags := [] }

def decodeDataFile (cells : List Cell) : Except Error DataFileValue := row .dataFile cells do
  return {
    dataFileId := ← u64
    tableId := ← u64
    beginSnapshot := ← u64
    endSnapshot := ← optU64
    fileOrder := ← optU64
    path := ← string
    pathIsRelative := ← bool
    fileFormat := ← string
    recordCount := ← u64
    fileSizeBytes := ← u64
    footerSize := ← u64
    rowIdStart := ← optU64
    partitionId := ← optU64
    encryptionKey := ← optString
    mappingId := ← optU64
    partialMax := ← optU64
    partitionValues := [] }

def decodeDeleteFile (cells : List Cell) : Except Error DeleteFileValue := row .deleteFile cells do
  return {
    deleteFileId := ← u64
    tableId := ← u64
    beginSnapshot := ← u64
    endSnapshot := ← optU64
    dataFileId := ← u64
    path := ← string
    pathIsRelative := ← bool
    format := ← string
    deleteCount := ← u64
    fileSizeBytes := ← u64
    footerSize := ← u64
    encryptionKey := ← optString
    partialMax := ← optU64 }

def decodeTableStats (cells : List Cell) : Except Error TableStatsValue := row .tableStats cells do
  return {
    tableId := ← u64
    recordCount := ← u64
    nextRowId := ← u64
    fileSizeBytes := ← u64 }

def decodeTableColumnStats (cells : List Cell) : Except Error TableColumnStatsValue :=
  row .tableColumnStats cells do
    return {
      tableId := ← u64
      columnId := ← u64
      containsNull := ← optBool
      containsNan := ← optBool
      minValue := ← optString
      maxValue := ← optString
      extraStats := ← optString }

def decodeFileColumnStats (cells : List Cell) : Except Error FileColumnStatsValue :=
  row .fileColumnStats cells do
    return {
      dataFileId := ← u64
      tableId := ← u64
      columnId := ← u64
      columnSizeBytes := ← u64
      valueCount := ← u64
      nullCount := ← u64
      minValue := ← optString
      maxValue := ← optString
      containsNan := ← optBool
      extraStats := ← optString
      variantStats := [] }

def decodePartitionInfo (cells : List Cell) : Except Error PartitionValue := row .partitionInfo cells do
  return {
    partitionId := ← u64
    tableId := ← u64
    beginSnapshot := ← u64
    endSnapshot := ← optU64
    columns := [] }

def decodeSortInfo (cells : List Cell) : Except Error SortValue := row .sortInfo cells do
  return {
    sortId := ← u64
    tableId := ← u64
    beginSnapshot := ← u64
    endSnapshot := ← optU64
    expressions := [] }

def decodeGcFileRow (cells : List Cell) : Except Error GcFileValue := row .filesScheduledForDeletion cells do
  return {
    dataFileId := ← u64
    path := ← string
    pathIsRelative := ← bool
    scheduleStartMicros := ← i64 }

def decodeMacro (cells : List Cell) : Except Error MacroValue := row .macroDef cells do
  let schemaId ← u64
  let macroId ← u64
  let macroName ← string
  let beginSnapshot ← u64
  let endSnapshot ← optU64
  return { macroId, beginSnapshot, endSnapshot, schemaId, macroName, implementations := [] }

def decodeColumnMapping (cells : List Cell) : Except Error MappingValue := row .columnMapping cells do
  let mappingId ← u64
  let tableId ← u64
  let mapType ← string
  return { mappingId, tableId, mapType, nameMappings := [] }

/-! ## Rows that go into a parent's record -/

def decodePartitionColumn (cells : List Cell) : Except Error (Nat × PartitionColumn) :=
  row .partitionColumn cells do
    let partitionId ← u64
    let _tableId ← u64
    return (partitionId, { partitionKeyIndex := ← u64, columnId := ← u64, transform := ← string })

def decodeFilePartitionValue (cells : List Cell) : Except Error ((Nat × Nat) × FilePartitionValue) :=
  row .filePartitionValue cells do
    let dataFileId ← u64
    let tableId ← u64
    return ((tableId, dataFileId), { partitionKeyIndex := ← u64, partitionValue := ← string })

def decodeSortExpression (cells : List Cell) : Except Error (Nat × SortExpression) :=
  row .sortExpression cells do
    let sortId ← u64
    let _tableId ← u64
    return (sortId,
      { sortKeyIndex := ← u64
        expression := ← string
        dialect := ← string
        sortDirection := ← string
        nullOrder := ← string })

def decodeMacroImpl (cells : List Cell) : Except Error (Nat × MacroImplementation) :=
  row .macroImpl cells do
    let macroId ← u64
    return (macroId,
      { implId := ← u64, dialect := ← string, sql := ← string, macroType := ← string, parameters := [] })

def decodeMacroParameter (cells : List Cell) : Except Error ((Nat × Nat) × MacroParameter) :=
  row .macroParameters cells do
    let macroId ← u64
    let implId ← u64
    return ((macroId, implId),
      { columnId := ← u64
        parameterName := ← string
        parameterType := ← string
        defaultValue := ← optString
        defaultValueType := ← string })

def decodeNameMapping (cells : List Cell) : Except Error (Nat × NameMapping) := row .nameMapping cells do
  let mappingId ← u64
  return (mappingId,
    { columnId := ← u64
      sourceName := ← string
      targetFieldId := ← u64
      parentColumn := ← optU64
      isPartition := ← bool })

def decodeTagRow (cells : List Cell) : Except Error (Nat × TagEntry) := row .tag cells do
  let objectId ← u64
  return (objectId, { beginSnapshot := ← u64, endSnapshot := ← optU64, key := ← string, value := ← string })

def decodeColumnTagRow (cells : List Cell) : Except Error ((Nat × Nat) × ColumnTag) :=
  row .columnTag cells do
    let tableId ← u64
    let columnId ← u64
    return ((tableId, columnId),
      { beginSnapshot := ← u64, endSnapshot := ← optU64, key := ← string, value := ← string })

/-! ## Keys -/

/-- The key columns of a versioned kind. -/
def versionedKey : TableKind → Option (Cursor EntityKey)
  | .schema => some do return .schema (← u64)
  | .table => some do return .table (← u64)
  | .view => some do return .view (← u64)
  | .column => some do return .column (← u64) (← u64)
  | .dataFile => some do return .file (← u64) (← u64)
  | .deleteFile => some do return .deleteFile (← u64) (← u64)
  | .partitionInfo => some do return .partition (← u64) (← u64)
  | .sortInfo => some do return .sort (← u64) (← u64)
  | .macroDef => some do return .macroDef (← u64)
  | _ => none

/-- The ended entity and its new end. -/
def decodeEnd (kind : TableKind) (cells : List Cell) : Except Error (EntityKey × Nat) :=
  match versionedKey kind with
  | some readKey => row kind cells do return (← readKey, ← u64)
  | none => .error (.constraint s!"update_set_end is not defined for {kind.debug}")

/-- The deleted row of a versioned kind, or a column mapping. The end a versioned row carries names a history
    record; without one it names the current record. -/
def decodeHardDelete (kind : TableKind) (cells : List Cell) : Except Error (EntityKey × Option Nat) :=
  if kind = .columnMapping then
    row kind cells do
      let mappingId ← u64
      let tableId ← u64
      return (.mapping tableId mappingId, none)
  else
    match versionedKey kind with
    | some readKey => row kind cells do return (← readKey, ← optU64)
    | none => .error (corruptRow kind "not a versioned kind")

/-- The key of a statistics row. -/
def decodeDeleteKey (kind : TableKind) (cells : List Cell) : Except Error EntityKey :=
  match kind with
  | .tableStats => row kind cells do return .tableStats (← u64)
  | .tableColumnStats => row kind cells do return .tableColumnStats (← u64) (← u64)
  | .fileColumnStats => row kind cells do
    let dataFileId ← u64
    let tableId ← u64
    let columnId ← u64
    return .fileColumnStats tableId dataFileId columnId
  | _ => .error (.constraint s!"delete is not defined for {kind.debug}")

/-- The scope of an option row. A global option carries no id, whatever the row says. -/
def optionScope (scope : Option String) (scopeId : Nat) : Except Error (Nat × Nat) :=
  match scope with
  | none => .ok (0, 0)
  | some "schema" => .ok (1, scopeId)
  | some "table" => .ok (2, scopeId)
  | some other => .error (corruptRow .metadata s!"unknown option scope `{other}`")

/-- An option row: its scope, key and value. -/
def decodeMetadata (cells : List Cell) : Except Error ((Nat × Nat) × String × String) := do
  let (key, value, scope, scopeId) ← row .metadata cells do
    return (← string, ← optString, ← optString, ← optU64)
  return (← optionScope scope (scopeId.getD 0), key, value.getD "")

/-- The option a removal names: three cells, without the value. -/
def decodeMetadataKey (cells : List Cell) : Except Error ((Nat × Nat) × String) := do
  let (key, scope, scopeId) ← row .metadata cells do
    return (← string, ← optString, ← optU64)
  return (← optionScope scope (scopeId.getD 0), key)

/-- A schema-version row: its table, begin snapshot and version. -/
def decodeSchemaVersionRow (cells : List Cell) : Except Error (Nat × Nat × Nat) :=
  row .schemaVersions cells do
    let beginSnapshot ← u64
    let schemaVersion ← u64
    let tableId ← u64
    return (tableId, beginSnapshot, schemaVersion)

/-- The live tag entry a row ends: its object, key and new end. -/
def decodeTagEnd (cells : List Cell) : Except Error (Nat × String × Nat) := row .tag cells do
  return (← u64, ← string, ← u64)

/-- The live column tag a row ends: its table, column, key and new end. -/
def decodeColumnTagEnd (cells : List Cell) : Except Error (Nat × Nat × String × Nat) :=
  row .columnTag cells do
    return (← u64, ← u64, ← string, ← u64)

end Moraine.StagedRows
