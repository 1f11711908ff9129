-- SUMMARY: The value messages of the store, one structure per key kind.
import Mathlib

/-!
# Value messages

One structure per message of `moraine.proto`, with the message's fields in declaration order. A 64-bit
counter or id is a `Nat`: nothing below depends on wrap-around. Messages of the inlined-data subspace
are in the modules that read them.
-/

namespace Moraine

/-- `ducklake_schema`. -/
structure SchemaValue where
  schemaId : Nat
  schemaUuid : String
  beginSnapshot : Nat
  endSnapshot : Option Nat
  schemaName : String
  path : String
  pathIsRelative : Bool
  deriving DecidableEq, Inhabited

/-- `ducklake_table`. `nextColumnId` is the table's field-id counter, internal bookkeeping whose change
    alone is not a version transition. -/
structure TableValue where
  tableId : Nat
  tableUuid : String
  beginSnapshot : Nat
  endSnapshot : Option Nat
  schemaId : Nat
  tableName : String
  path : String
  pathIsRelative : Bool
  nextColumnId : Nat
  deriving DecidableEq, Inhabited

/-- `ducklake_view`. -/
structure ViewValue where
  viewId : Nat
  viewUuid : String
  beginSnapshot : Nat
  endSnapshot : Option Nat
  schemaId : Nat
  viewName : String
  dialect : String
  sql : String
  columnAliases : Option String
  deriving DecidableEq, Inhabited

/-- `ducklake_macro_parameters`, embedded in `MacroImplementation`. -/
structure MacroParameter where
  columnId : Nat
  parameterName : String
  parameterType : String
  defaultValue : Option String
  defaultValueType : String
  deriving DecidableEq, Inhabited

/-- `ducklake_macro_impl`, embedded in `MacroValue`. -/
structure MacroImplementation where
  implId : Nat
  dialect : String
  sql : String
  macroType : String
  parameters : List MacroParameter
  deriving DecidableEq, Inhabited

/-- `ducklake_macro` with its implementations. -/
structure MacroValue where
  macroId : Nat
  beginSnapshot : Nat
  endSnapshot : Option Nat
  schemaId : Nat
  macroName : String
  implementations : List MacroImplementation
  deriving DecidableEq, Inhabited

/-- `ducklake_column_tag`, embedded in `ColumnValue`. -/
structure ColumnTag where
  beginSnapshot : Nat
  endSnapshot : Option Nat
  key : String
  value : String
  deriving DecidableEq, Inhabited

/-- `ducklake_column`, nested fields included. -/
structure ColumnValue where
  columnId : Nat
  beginSnapshot : Nat
  endSnapshot : Option Nat
  tableId : Nat
  columnOrder : Nat
  columnName : String
  columnType : String
  initialDefault : Option String
  defaultValue : Option String
  nullsAllowed : Bool
  parentColumn : Option Nat
  defaultValueType : Option String
  defaultValueDialect : Option String
  tags : List ColumnTag
  deriving DecidableEq, Inhabited

/-- `ducklake_partition_column`, embedded in `PartitionValue`. -/
structure PartitionColumn where
  partitionKeyIndex : Nat
  columnId : Nat
  transform : String
  deriving DecidableEq, Inhabited

/-- `ducklake_partition_info` with its columns. -/
structure PartitionValue where
  partitionId : Nat
  tableId : Nat
  beginSnapshot : Nat
  endSnapshot : Option Nat
  columns : List PartitionColumn
  deriving DecidableEq, Inhabited

/-- `ducklake_sort_expression`, embedded in `SortValue`. -/
structure SortExpression where
  sortKeyIndex : Nat
  expression : String
  dialect : String
  sortDirection : String
  nullOrder : String
  deriving DecidableEq, Inhabited

/-- `ducklake_sort_info` with its expressions. -/
structure SortValue where
  sortId : Nat
  tableId : Nat
  beginSnapshot : Nat
  endSnapshot : Option Nat
  expressions : List SortExpression
  deriving DecidableEq, Inhabited

/-- An equality-index definition. No `buildState` means a ready index. -/
structure IndexValue where
  indexId : Nat
  tableId : Nat
  beginSnapshot : Nat
  endSnapshot : Option Nat
  indexName : String
  columnIds : List Nat
  unique : Bool
  columnDescending : List Bool
  columnNullsFirst : List Bool
  buildState : Option String
  buildCursorFile : Option Nat
  buildCursorRowId : Option Nat
  buildCursorPosition : Option Nat
  buildDeletesScanned : Option Nat
  poisoned : Option Bool
  ducklakeIndexId : Option Nat
  deferredMaintenance : Option Bool
  deriving DecidableEq, Inhabited

/-- `ducklake_file_partition_value`, embedded in `DataFileValue`. -/
structure FilePartitionValue where
  partitionKeyIndex : Nat
  partitionValue : String
  deriving DecidableEq, Inhabited

/-- `ducklake_data_file` with its partition values. No `rowIdStart` means the rows carry explicit
    per-row ids. -/
structure DataFileValue where
  dataFileId : Nat
  tableId : Nat
  beginSnapshot : Nat
  endSnapshot : Option Nat
  fileOrder : Option Nat
  path : String
  pathIsRelative : Bool
  fileFormat : String
  recordCount : Nat
  fileSizeBytes : Nat
  footerSize : Nat
  rowIdStart : Option Nat
  partitionId : Option Nat
  encryptionKey : Option String
  mappingId : Option Nat
  partialMax : Option Nat
  partitionValues : List FilePartitionValue
  deriving DecidableEq, Inhabited

/-- `ducklake_delete_file`. -/
structure DeleteFileValue where
  deleteFileId : Nat
  tableId : Nat
  beginSnapshot : Nat
  endSnapshot : Option Nat
  dataFileId : Nat
  path : String
  pathIsRelative : Bool
  format : String
  deleteCount : Nat
  fileSizeBytes : Nat
  footerSize : Nat
  encryptionKey : Option String
  partialMax : Option Nat
  deriving DecidableEq, Inhabited

/-- `ducklake_name_mapping`, embedded in `MappingValue`. -/
structure NameMapping where
  columnId : Nat
  sourceName : String
  targetFieldId : Nat
  parentColumn : Option Nat
  isPartition : Bool
  deriving DecidableEq, Inhabited

/-- `ducklake_column_mapping` with its rows. Written once, never updated. -/
structure MappingValue where
  mappingId : Nat
  tableId : Nat
  mapType : String
  nameMappings : List NameMapping
  deriving DecidableEq, Inhabited

/-- `ducklake_file_variant_stats`, embedded in `FileColumnStatsValue`. -/
structure FileVariantStats where
  variantPath : String
  shreddedType : String
  columnSizeBytes : Nat
  valueCount : Nat
  nullCount : Nat
  minValue : Option String
  maxValue : Option String
  containsNan : Option Bool
  extraStats : Option String
  deriving DecidableEq, Inhabited

/-- `ducklake_file_column_stats` with its variant statistics. -/
structure FileColumnStatsValue where
  dataFileId : Nat
  tableId : Nat
  columnId : Nat
  columnSizeBytes : Nat
  valueCount : Nat
  nullCount : Nat
  minValue : Option String
  maxValue : Option String
  containsNan : Option Bool
  extraStats : Option String
  variantStats : List FileVariantStats
  deriving DecidableEq, Inhabited

/-- `ducklake_table_stats`. `nextRowId` is the table's row-id counter. -/
structure TableStatsValue where
  tableId : Nat
  recordCount : Nat
  nextRowId : Nat
  fileSizeBytes : Nat
  deriving DecidableEq, Inhabited

/-- `ducklake_table_column_stats`. -/
structure TableColumnStatsValue where
  tableId : Nat
  columnId : Nat
  containsNull : Option Bool
  containsNan : Option Bool
  minValue : Option String
  maxValue : Option String
  extraStats : Option String
  deriving DecidableEq, Inhabited

/-- One `ducklake_tag` row, embedded in its object's container. -/
structure TagEntry where
  beginSnapshot : Nat
  endSnapshot : Option Nat
  key : String
  value : String
  deriving DecidableEq, Inhabited

/-- The tags of one object. The container is overwritten in place. -/
structure TagValue where
  objectId : Nat
  entries : List TagEntry
  deriving DecidableEq, Inhabited

/-- `ducklake_metadata`, one record per scope. -/
structure OptionScopeValue where
  options : Std.ExtTreeMap String String
  deriving DecidableEq, Inhabited

/-- `ducklake_snapshot` and `ducklake_snapshot_changes`, merged. -/
structure SnapshotValue where
  snapshotId : Nat
  snapshotTimeMicros : Int
  schemaVersion : Nat
  nextCatalogId : Nat
  nextFileId : Nat
  changesMade : String
  author : Option String
  commitMessage : Option String
  commitExtraInfo : Option String
  schemaChangedTableIds : List Nat
  deletedDataFileIds : List Nat
  deriving DecidableEq, Inhabited

/-- `ducklake_files_scheduled_for_deletion`. -/
structure GcFileValue where
  dataFileId : Nat
  path : String
  pathIsRelative : Bool
  scheduleStartMicros : Int
  deriving DecidableEq, Inhabited

/-- The latest committed snapshot id and the count of batches that have landed. Every batch moves the
    count by one, also a batch that mints no snapshot. -/
structure HeadValue where
  snapshotId : Nat
  batchSeq : Nat
  deriving DecidableEq, Inhabited

end Moraine
