-- SUMMARY: Staged rows applied to the base view, and their translation into a commit's writes.
import Moraine.Base.Results
import Moraine.Transaction.Commit
import Moraine.Transaction.StagedRows.Decode

/-!
# Translating staged rows

A staged commit applies its rows to a copy of the base view: first the ends and deletes, then the inserts,
then the begin rebases, each in the order they were staged. The copy is then diffed against the base view as
a verb commit's is. A hard delete leaves the copy alone and stages a key deletion that joins the batch after
the diff. Rows of child tables are collected first and go into the record of the parent that the same batch
inserts.
-/

namespace Moraine.StagedRows

open Std (ExtTreeMap)
open OrdMap

/-! ## Child rows -/

/-- Child rows by the parent they name, each list in the order of the rows' own index. -/
structure ChildRows where
  partitionColumns : ExtTreeMap Nat (List PartitionColumn) := ∅
  sortExpressions : ExtTreeMap Nat (List SortExpression) := ∅
  filePartitionValues : ExtTreeMap (Nat × Nat) (List FilePartitionValue) := ∅
  macroImplementations : ExtTreeMap Nat (List MacroImplementation) := ∅
  macroParameters : ExtTreeMap (Nat × Nat) (List MacroParameter) := ∅
  nameMappings : ExtTreeMap Nat (List NameMapping) := ∅

section Collect

variable {K V : Type} [Ord K] [Std.TransOrd K]

/-- Adds a row to its parent's list. -/
def pushRow (rows : ExtTreeMap K (List V)) (parent : K) (row : V) : ExtTreeMap K (List V) :=
  rows.insert parent ((rows[parent]?).getD [] ++ [row])

/-- Sorts each list by an index; rows with one index keep their order. -/
def sortRows (rows : ExtTreeMap K (List V)) (index : V → Nat) : ExtTreeMap K (List V) :=
  rows.map fun _ list => list.insertionSort fun a b => index a ≤ index b

end Collect

/-- Collects one row, if it is a child row. -/
def collectChildRow (children : ChildRows) : RowOperation → Except Error ChildRows
  | .insert .partitionColumn cells => do
    let (partitionId, column) ← decodePartitionColumn cells
    return { children with partitionColumns := pushRow children.partitionColumns partitionId column }
  | .insert .sortExpression cells => do
    let (sortId, expression) ← decodeSortExpression cells
    return { children with sortExpressions := pushRow children.sortExpressions sortId expression }
  | .insert .filePartitionValue cells => do
    let (file, value) ← decodeFilePartitionValue cells
    return { children with filePartitionValues := pushRow children.filePartitionValues file value }
  | .insert .macroImpl cells => do
    let (macroId, implementation) ← decodeMacroImpl cells
    return { children with
      macroImplementations := pushRow children.macroImplementations macroId implementation }
  | .insert .macroParameters cells => do
    let (key, parameter) ← decodeMacroParameter cells
    return { children with macroParameters := pushRow children.macroParameters key parameter }
  | .insert .nameMapping cells => do
    let (mappingId, row) ← decodeNameMapping cells
    return { children with nameMappings := pushRow children.nameMappings mappingId row }
  | _ => return children

def collectChildRows (ops : List RowOperation) : Except Error ChildRows := do
  let children ← ops.foldlM collectChildRow {}
  return {
    partitionColumns := sortRows children.partitionColumns (·.partitionKeyIndex)
    sortExpressions := sortRows children.sortExpressions (·.sortKeyIndex)
    filePartitionValues := sortRows children.filePartitionValues (·.partitionKeyIndex)
    macroImplementations := sortRows children.macroImplementations (·.implId)
    macroParameters := sortRows children.macroParameters (·.columnId)
    nameMappings := sortRows children.nameMappings (·.columnId) }

/-- Refuses child rows left over after every parent was applied. -/
def refuseOrphanedChildren (children : ChildRows) : Except Error Unit := do
  refuse children.partitionColumns.isEmpty .partitionColumn
    "partition_column rows without a matching partition_info insert in this commit"
  refuse children.sortExpressions.isEmpty .sortExpression
    "sort_expression rows without a matching sort_info insert in this commit"
  refuse children.filePartitionValues.isEmpty .filePartitionValue
    "file_partition_value rows without a matching data_file insert in this commit"
  refuse children.macroImplementations.isEmpty .macroImpl
    "macro_impl rows without a matching macro insert in this commit"
  refuse children.macroParameters.isEmpty .macroParameters
    "macro_parameters rows without a matching macro_impl in this commit"
  refuse children.nameMappings.isEmpty .nameMapping
    "name_mapping rows without a matching column_mapping insert in this commit"
where
  refuse (applied : Bool) (kind : TableKind) (detail : String) : Except Error Unit :=
    if applied then .ok () else .error (corruptRow kind detail)

/-- The entity a hard delete names, `none` for the other operations. -/
def hardDelete? : RowOperation → Option (Except Error EntityKey)
  | .delete kind cells =>
    if kind = .columnMapping ∨ (versionedKey kind).isSome then
      some ((decodeHardDelete kind cells).map Prod.fst)
    else none
  | _ => none

/-- The entities the batch hard-deletes, gathered before anything is applied. -/
def collectHardDeletes (ops : List RowOperation) : Except Error (List EntityKey) :=
  Results.each id (ops.filterMap hardDelete?)

/-! ## Inserts -/

/-- The working state of a translation: the view the rows are applied to, the child rows not yet used, and
    the key deletions that skip the diff. -/
structure Applied where
  state : CatalogSnapshot
  children : ChildRows := {}
  direct : List StagedWrite := []

/-- A row whose id is already live is refused, for the kinds DuckLake declares a primary key on. -/
def refuseLiveId (kind : TableKind) (live : Bool) (named : String) : Except Error Unit :=
  if live then .error (.constraint
    (s!"{kind.debug}: {named} is already live; " ++
      "DuckLake authors this id and its own catalog would refuse the duplicate row"))
  else .ok ()

def applySchemaInsert (a : Applied) (cells : List Cell) : Except Error Applied := do
  let value ← decodeSchema cells
  refuseLiveId .schema (a.state.schemas[value.schemaId]?).isSome s!"schema_id {value.schemaId}"
  return { a with state := a.state.putSchema value }

def applyDataFileInsert (a : Applied) (cells : List Cell) : Except Error Applied := do
  let value ← decodeDataFile cells
  refuseLiveId .dataFile (getNested a.state.dataFiles value.tableId value.dataFileId).isSome
    s!"data_file_id {value.dataFileId}"
  let file := (value.tableId, value.dataFileId)
  let partitionValues := (a.children.filePartitionValues[file]?).getD []
  return { a with
    state := a.state.putDataFile { value with partitionValues }
    children := { a.children with filePartitionValues := a.children.filePartitionValues.erase file } }

def applyDeleteFileInsert (a : Applied) (cells : List Cell) : Except Error Applied := do
  let value ← decodeDeleteFile cells
  refuseLiveId .deleteFile (getNested a.state.deleteFiles value.tableId value.deleteFileId).isSome
    s!"delete_file_id {value.deleteFileId}"
  return { a with state := a.state.putDeleteFile value }

/-- The implementations' ordinals run from `index` on, and all have the macro's type. -/
def checkImplementations (macroType : String) : Nat → List MacroImplementation → Except Error Unit
  | _, [] => .ok ()
  | index, implementation :: rest =>
    if implementation.implId ≠ index then
      .error (corruptRow .macroImpl "impl_id values must be contiguous from zero")
    else if implementation.macroType ≠ macroType then
      .error (corruptRow .macroImpl "all implementations of one macro must share a type")
    else checkImplementations macroType (index + 1) rest

def checkParameters : Nat → List MacroParameter → Except Error Unit
  | _, [] => .ok ()
  | index, parameter :: rest =>
    if parameter.columnId ≠ index then
      .error (corruptRow .macroParameters "column_id values must be contiguous from zero")
    else checkParameters (index + 1) rest

/-- Moves the collected parameter rows into their implementations. -/
def attachParameters (macroId : Nat) (parameters : ExtTreeMap (Nat × Nat) (List MacroParameter)) :
    List MacroImplementation →
      Except Error (List MacroImplementation × ExtTreeMap (Nat × Nat) (List MacroParameter))
  | [] => .ok ([], parameters)
  | implementation :: rest => do
    let own := (parameters[(macroId, implementation.implId)]?).getD []
    checkParameters 0 own
    let (rest, parameters) ← attachParameters macroId (parameters.erase (macroId, implementation.implId)) rest
    return ({ implementation with parameters := own } :: rest, parameters)

def applyMacroInsert (a : Applied) (cells : List Cell) : Except Error Applied := do
  let value ← decodeMacro cells
  match (a.children.macroImplementations[value.macroId]?).getD [] with
  | [] => .error (corruptRow .macroDef
      "a macro insert requires at least one macro_impl row in the same commit")
  | first :: rest =>
    checkImplementations first.macroType 0 (first :: rest)
    let (implementations, macroParameters) ←
      attachParameters value.macroId a.children.macroParameters (first :: rest)
    return { a with
      state := a.state.putMacro { value with implementations }
      children := { a.children with
        macroImplementations := a.children.macroImplementations.erase value.macroId
        macroParameters } }

/-- The rows' ordinals are distinct, and a parent comes before its children. -/
def checkNameMappings : Option Nat → List NameMapping → Except Error Unit
  | _, [] => .ok ()
  | previous, row :: rest =>
    if previous = some row.columnId then
      .error (corruptRow .nameMapping "column_id values must be unique within a mapping")
    else if row.parentColumn.any (row.columnId ≤ ·) then
      .error (corruptRow .nameMapping "parent_column must reference an earlier column_id")
    else checkNameMappings (some row.columnId) rest

def applyMappingInsert (a : Applied) (cells : List Cell) : Except Error Applied := do
  let value ← decodeColumnMapping cells
  match (a.children.nameMappings[value.mappingId]?).getD [] with
  | [] => .error (corruptRow .columnMapping
      "a column_mapping insert requires name_mapping rows in the same commit")
  | first :: rest =>
    checkNameMappings none (first :: rest)
    if (getNested a.state.mappings value.tableId value.mappingId).isSome then
      .error (corruptRow .columnMapping "mapping_id already exists for this table")
    else
      .ok { a with
        state := a.state.putMapping { value with nameMappings := first :: rest }
        children := { a.children with nameMappings := a.children.nameMappings.erase value.mappingId } }

/-- Refuses a column type that cannot be inlined. -/
def ensureInlinable (columnName columnType : String) : Except Error Unit :=
  if Transaction.ducklakeBaseType columnType ≠ "VARIANT" then .ok ()
  else .error (.unsupported
    (s!"moraine: column {columnName} is {columnType}, which moraine cannot store — " ++
      "its inline data is serialized through Arrow, and DuckDB's Arrow format has no VARIANT support. " ++
      "Use JSON (or another type) instead."))

/-- A new column version carries the entries of the version the base view holds. -/
def carryTags (base : CatalogSnapshot) (value : ColumnValue) : ColumnValue :=
  match getNested base.columns value.tableId value.columnId with
  | some prior => { value with tags := prior.tags }
  | none => value

def applyColumnInsert (base : CatalogSnapshot) (a : Applied) (cells : List Cell) : Except Error Applied := do
  let value ← decodeColumn cells
  ensureInlinable value.columnName value.columnType
  return { a with state := a.state.putColumn (carryTags base value) }

def applyColumnTagInsert (a : Applied) (cells : List Cell) : Except Error Applied := do
  let ((tableId, columnId), tag) ← decodeColumnTagRow cells
  match getNested a.state.columns tableId columnId with
  | some column =>
    return { a with state := { a.state with
      columns := putNested a.state.columns tableId columnId { column with tags := column.tags ++ [tag] } } }
  | none => .error (corruptRow .columnTag s!"column tag names an absent column ({tableId}, {columnId})")

def applyTagInsert (a : Applied) (cells : List Cell) : Except Error Applied := do
  let (objectId, entry) ← decodeTagRow cells
  let container := (a.state.tags[objectId]?).getD ⟨objectId, []⟩
  return { a with state := { a.state with
    tags := a.state.tags.insert objectId { container with entries := container.entries ++ [entry] } } }

/-- An option row overwrites its key in the scope's record. -/
def applyOptionInsert (a : Applied) (cells : List Cell) : Except Error Applied := do
  let (components, key, value) ← decodeMetadata cells
  let record := (a.state.options[components]?).getD ⟨∅⟩
  return { a with state := a.state.setOptionRecord components ⟨record.options.insert key value⟩ }

def applyPartitionInsert (a : Applied) (cells : List Cell) : Except Error Applied := do
  let value ← decodePartitionInfo cells
  let columns := (a.children.partitionColumns[value.partitionId]?).getD []
  return { a with
    state := a.state.putPartition { value with columns }
    children := { a.children with
      partitionColumns := a.children.partitionColumns.erase value.partitionId } }

def applySortInsert (a : Applied) (cells : List Cell) : Except Error Applied := do
  let value ← decodeSortInfo cells
  let expressions := (a.children.sortExpressions[value.sortId]?).getD []
  return { a with
    state := a.state.putSort { value with expressions }
    children := { a.children with sortExpressions := a.children.sortExpressions.erase value.sortId } }

/-- Applies a row that overwrites the record it decodes to. -/
def applyPut {V : Type} (decoded : Except Error V) (put : CatalogSnapshot → V → CatalogSnapshot) (a : Applied) :
    Except Error Applied := do
  return { a with state := put a.state (← decoded) }

def applyInsert (base : CatalogSnapshot) (a : Applied) (kind : TableKind) (cells : List Cell) :
    Except Error Applied :=
  match kind with
  -- Snapshot rows make the snapshot record; child rows go into their parents' records.
  | .snapshot | .snapshotChanges | .schemaVersions | .partitionColumn | .sortExpression
  | .filePartitionValue | .macroImpl | .macroParameters | .nameMapping => .ok a
  | .metadata => applyOptionInsert a cells
  | .schema => applySchemaInsert a cells
  | .table => applyPut ((decodeTable cells).map (tableValue base)) .putTable a
  | .view => applyPut (decodeView cells) .putView a
  | .column => applyColumnInsert base a cells
  | .dataFile => applyDataFileInsert a cells
  | .deleteFile => applyDeleteFileInsert a cells
  | .partitionInfo => applyPartitionInsert a cells
  | .sortInfo => applySortInsert a cells
  | .macroDef => applyMacroInsert a cells
  | .columnMapping => applyMappingInsert a cells
  | .tableStats => applyPut (decodeTableStats cells) .putTableStats a
  | .tableColumnStats => applyPut (decodeTableColumnStats cells) .putTableColumnStats a
  | .fileColumnStats => applyPut (decodeFileColumnStats cells) .putFileColumnStats a
  | .filesScheduledForDeletion => applyPut (decodeGcFileRow cells) .putGcFile a
  | .tag => applyTagInsert a cells
  | .columnTag => applyColumnTagInsert a cells

/-! ## Ends -/

def checkEndSnapshot (kind : TableKind) (endSnapshot newId : Nat) : Except Error Unit :=
  if endSnapshot = newId then .ok ()
  else .error (corruptRow kind
    s!"end_snapshot {endSnapshot} does not match this commit's snapshot id {newId}")

/-- Changes the first matching entry, `none` if there is no match. -/
def endLiveEntry {E : Type} (isMatch : E → Bool) (setEnd : E → E) : List E → Option (List E)
  | [] => none
  | entry :: rest =>
    if isMatch entry then some (setEnd entry :: rest)
    else (endLiveEntry isMatch setEnd rest).map (entry :: ·)

/-- Ends a tag entry in its container. -/
def applyTagSetEnd (a : Applied) (cells : List Cell) (newId : Nat) : Except Error Applied := do
  let (objectId, key, endSnapshot) ← decodeTagEnd cells
  checkEndSnapshot .tag endSnapshot newId
  let ended := a.state.tags[objectId]?.bind fun container =>
    (endLiveEntry (fun e : TagEntry => e.key = key ∧ e.endSnapshot = none)
      (fun e => { e with endSnapshot := some newId }) container.entries).map fun entries =>
        { container with entries }
  match ended with
  | some container => return { a with state := { a.state with tags := a.state.tags.insert objectId container } }
  | none => .error (corruptRow .tag s!"no live tag entry ({objectId}, {key.quote}) to end")

/-- The column with its live entry for `key` ended, `none` if it has none. -/
def endColumnTag (key : String) (newId : Nat) (column : ColumnValue) : Option ColumnValue :=
  (endLiveEntry (fun t : ColumnTag => t.key = key ∧ t.endSnapshot = none)
    (fun t => { t with endSnapshot := some newId }) column.tags).map fun tags => { column with tags }

/-- Ends a column tag on the column the view holds. -/
def applyColumnTagSetEnd (a : Applied) (cells : List Cell) (newId : Nat) : Except Error Applied := do
  let (tableId, columnId, key, endSnapshot) ← decodeColumnTagEnd cells
  checkEndSnapshot .columnTag endSnapshot newId
  match (getNested a.state.columns tableId columnId).bind (endColumnTag key newId) with
  | some column =>
    return { a with state := { a.state with columns := putNested a.state.columns tableId columnId column } }
  | none => .error (corruptRow .columnTag
      s!"no live column tag ({tableId}, {columnId}, {key.quote}) to end")

/-- How an entity key is written in an error message. -/
def debugKey : EntityKey → String
  | .schema s => s!"Schema \x7b schema_id: {s} \x7d"
  | .table t => s!"Table \x7b table_id: {t} \x7d"
  | .view v => s!"View \x7b view_id: {v} \x7d"
  | .column t c => s!"Column \x7b table_id: {t}, column_id: {c} \x7d"
  | .file t f => s!"File \x7b table_id: {t}, data_file_id: {f} \x7d"
  | .deleteFile t d => s!"DeleteFile \x7b table_id: {t}, delete_file_id: {d} \x7d"
  | .partition t p => s!"Partition \x7b table_id: {t}, partition_id: {p} \x7d"
  | .sort t s => s!"Sort \x7b table_id: {t}, sort_id: {s} \x7d"
  | .macroDef m => s!"Macro \x7b macro_id: {m} \x7d"
  | _ => ""

/-- Takes one row of a versioned kind out of the view, and nothing that hangs on it. -/
def removeRow (state : CatalogSnapshot) : EntityKey → CatalogSnapshot
  | .schema s => { state with schemas := state.schemas.erase s }
  | .table t => { state with tables := state.tables.erase t }
  | .view v => { state with views := state.views.erase v }
  | .column t c => { state with columns := removeNested state.columns t c }
  | .file t f => { state with dataFiles := removeNested state.dataFiles t f }
  | .deleteFile t d => { state with deleteFiles := removeNested state.deleteFiles t d }
  | .partition t p => state.deletePartition t p
  | .sort t s => state.deleteSort t s
  | .macroDef m => { state with macros := state.macros.erase m }
  | _ => state

def applyUpdateSetEnd (a : Applied) (kind : TableKind) (cells : List Cell) (newId : Nat) :
    Except Error Applied :=
  match kind with
  | .tag => applyTagSetEnd a cells newId
  | .columnTag => applyColumnTagSetEnd a cells newId
  | _ => do
    let (key, endSnapshot) ← decodeEnd kind cells
    checkEndSnapshot kind endSnapshot newId
    if (a.state.get (.entity key)).isSome then .ok { a with state := removeRow a.state key }
    else .error (corruptRow kind s!"no live row to end for {debugKey key}")

/-- The file a begin rebase names and its new begin. -/
def decodeSetBegin (kind : TableKind) (cells : List Cell) : Except Error (Nat × Nat × Nat) :=
  Cursor.row kind cells do return (← Cursor.u64, ← Cursor.u64, ← Cursor.u64)

/-- Rebases a data file that this batch inserted. -/
def applyUpdateSetBegin (base : CatalogSnapshot) (a : Applied) (kind : TableKind) (cells : List Cell)
    (newId : Nat) : Except Error Applied :=
  if kind ≠ .dataFile then
    .error (.constraint s!"update_set_begin is not defined for {kind.debug}")
  else do
    let (tableId, dataFileId, beginSnapshot) ← decodeSetBegin kind cells
    if beginSnapshot ≠ newId then
      .error (corruptRow kind
        s!"begin_snapshot {beginSnapshot} does not match this commit's snapshot id {newId}")
    else if (getNested base.dataFiles tableId dataFileId).isSome then
      .error (corruptRow kind
        s!"file ({tableId}, {dataFileId}) predates this commit and cannot be rebased")
    else
      match getNested a.state.dataFiles tableId dataFileId with
      | none => .error (corruptRow kind s!"no data file ({tableId}, {dataFileId}) to rebase")
      | some file =>
        .ok { a with state := { a.state with
          dataFiles := putNested a.state.dataFiles tableId dataFileId { file with beginSnapshot } } }

/-! ## Deletes -/

/-- A statistics delete of an absent row does nothing. -/
def applyStatsDelete (a : Applied) (kind : TableKind) (cells : List Cell) : Except Error Applied := do
  match ← decodeDeleteKey kind cells with
  | .tableStats t => return { a with state := a.state.removeTableStats t }
  | .tableColumnStats t c => return { a with state := a.state.removeTableColumnStats t c }
  | .fileColumnStats t f c => return { a with state := a.state.removeFileColumnStats t f c }
  | _ => return a

def applyScheduleDelete (a : Applied) (kind : TableKind) (cells : List Cell) : Except Error Applied := do
  let dataFileId ← Cursor.row kind cells Cursor.u64
  if (a.state.gcFiles[dataFileId]?).isSome then
    .ok { a with state := a.state.removeGcFile dataFileId }
  else .error (corruptRow kind s!"no scheduled deletion for file {dataFileId}")

/-- Removes an option from its scope, and the scope's record with its last option. -/
def applyOptionDelete (a : Applied) (cells : List Cell) : Except Error Applied := do
  let (components, key) ← decodeMetadataKey cells
  match a.state.options[components]? with
  | none => return a
  | some record =>
    let options := record.options.erase key
    if options.isEmpty then return { a with state := a.state.removeOptionRecord components }
    else return { a with state := a.state.setOptionRecord components ⟨options⟩ }

def applySnapshotDelete (a : Applied) (cells : List Cell) : Except Error Applied := do
  let snapshotId ← Cursor.row .snapshot cells Cursor.u64
  if snapshotId = a.state.snapshot.snapshotId then
    .error (.constraint s!"snapshot {snapshotId} is the head and cannot be expired")
  else .ok { a with direct := a.direct ++ [.snapshot snapshotId none] }

/-- The deletion of one stored row, which leaves the working view alone. -/
def applyHardDelete (a : Applied) (kind : TableKind) (cells : List Cell) : Except Error Applied := do
  let (entity, endSnapshot) ← decodeHardDelete kind cells
  match endSnapshot with
  | some ended => return { a with direct := a.direct ++ [.history ⟨entity, ended⟩ none] }
  | none => return { a with direct := a.direct ++ [.current (.entity entity) none] }

def applySchemaVersionDelete (a : Applied) (cells : List Cell) : Except Error Applied := do
  let (tableId, beginSnapshot, _) ← decodeSchemaVersionRow cells
  return { a with direct := a.direct ++ [.schemaVersion tableId beginSnapshot none] }

/-- The entry a tag delete names: its object, key and begin. -/
def decodeTagDelete (cells : List Cell) : Except Error (Nat × String × Nat) :=
  Cursor.row .tag cells do return (← Cursor.u64, ← Cursor.string, ← Cursor.u64)

/-- Removes a tag entry from its container, and an emptied container. -/
def applyTagDelete (a : Applied) (cells : List Cell) : Except Error Applied := do
  let (objectId, key, beginSnapshot) ← decodeTagDelete cells
  match a.state.tags[objectId]? with
  | none => .error (corruptRow .tag
      s!"no tag entry ({objectId}, {key.quote}, {beginSnapshot}) to delete")
  | some container =>
    let entries := container.entries.filter fun e => ¬ (e.key = key ∧ e.beginSnapshot = beginSnapshot)
    if entries.length < container.entries.length then
      if entries.isEmpty then .ok { a with state := a.state.removeTag objectId }
      else .ok { a with state := { a.state with
        tags := a.state.tags.insert objectId { container with entries } } }
    else .error (corruptRow .tag
      s!"no tag entry ({objectId}, {key.quote}, {beginSnapshot}) to delete")

/-- The entry a column-tag delete names: its table, column, key and begin. -/
def decodeColumnTagDelete (cells : List Cell) : Except Error (Nat × Nat × String × Nat) :=
  Cursor.row .columnTag cells do
    return (← Cursor.u64, ← Cursor.u64, ← Cursor.string, ← Cursor.u64)

/-- Removes a column tag from the column, if the view still holds the column. -/
def applyColumnTagDelete (a : Applied) (cells : List Cell) : Except Error Applied := do
  let (tableId, columnId, key, beginSnapshot) ← decodeColumnTagDelete cells
  match getNested a.state.columns tableId columnId with
  | none => return a
  | some column =>
    let tags := column.tags.filter fun t => ¬ (t.key = key ∧ t.beginSnapshot = beginSnapshot)
    return { a with state := { a.state with
      columns := putNested a.state.columns tableId columnId { column with tags } } }

/-- The table that holds a mapping, the least one if there are several. -/
def mappingOwner (state : CatalogSnapshot) (mappingId : Nat) : Option Nat :=
  (state.mappings.toList.find? fun x => (x.2[mappingId]?).isSome).map Prod.fst

/-- The parent a child row names, and whether the view holds it. -/
def embeddedParent (state : CatalogSnapshot) (kind : TableKind) (cells : List Cell) :
    Except Error (Bool × EntityKey) :=
  let live (key : EntityKey) : Bool × EntityKey := ((state.get (.entity key)).isSome, key)
  match kind with
  | .partitionColumn => Cursor.rowStart kind cells do
    let partitionId ← Cursor.u64
    let tableId ← Cursor.u64
    return live (.partition tableId partitionId)
  | .sortExpression => Cursor.rowStart kind cells do
    let sortId ← Cursor.u64
    let tableId ← Cursor.u64
    return live (.sort tableId sortId)
  | .filePartitionValue => Cursor.rowStart kind cells do
    let dataFileId ← Cursor.u64
    let tableId ← Cursor.u64
    return live (.file tableId dataFileId)
  | .macroImpl | .macroParameters => Cursor.rowStart kind cells do
    return live (.macroDef (← Cursor.u64))
  | .nameMapping => Cursor.rowStart kind cells do
    let mappingId ← Cursor.u64
    let owner := mappingOwner state mappingId
    return (owner.isSome, .mapping (owner.getD 0) mappingId)
  | _ => .error (corruptRow kind "not an embedded kind")

/-- A child row may only be deleted with its parent. -/
def applyEmbeddedDelete (a : Applied) (kind : TableKind) (cells : List Cell) (hardDeleted : List EntityKey) :
    Except Error Applied := do
  let (parentIsCurrent, parent) ← embeddedParent a.state kind cells
  if parentIsCurrent ∧ parent ∉ hardDeleted then
    .error (corruptRow kind "embedded row deleted while its parent record is still live")
  else .ok a

def applyDelete (a : Applied) (kind : TableKind) (cells : List Cell) (hardDeleted : List EntityKey) :
    Except Error Applied :=
  match kind with
  | .tableStats | .tableColumnStats | .fileColumnStats => applyStatsDelete a kind cells
  | .filesScheduledForDeletion => applyScheduleDelete a kind cells
  | .snapshot => applySnapshotDelete a cells
  -- The record dies with the snapshot row; the paired row stages nothing.
  | .snapshotChanges => (Cursor.row kind cells Cursor.u64).map fun _ => a
  | .metadata => applyOptionDelete a cells
  | .schema | .table | .view | .column | .dataFile | .deleteFile | .partitionInfo | .sortInfo | .macroDef
  | .columnMapping => applyHardDelete a kind cells
  | .tag => applyTagDelete a cells
  | .columnTag => applyColumnTagDelete a cells
  | .partitionColumn | .sortExpression | .filePartitionValue | .macroImpl | .macroParameters
  | .nameMapping => applyEmbeddedDelete a kind cells hardDeleted
  | .schemaVersions => applySchemaVersionDelete a cells

/-! ## Translation -/

/-- Applies one staged row. -/
def applyOp (base : CatalogSnapshot) (newId : Nat) (hardDeleted : List EntityKey) (a : Applied) :
    RowOperation → Except Error Applied
  | .insert kind cells => applyInsert base a kind cells
  | .updateSetEnd kind cells => applyUpdateSetEnd a kind cells newId
  | .updateSetBegin kind cells => applyUpdateSetBegin base a kind cells newId
  | .delete kind cells => applyDelete a kind cells hardDeleted
  | _ => .ok a

/-- Applies the rows in three passes: ends and deletes, inserts, begin rebases. -/
def applyRows (base : CatalogSnapshot) (newId : Nat) (hardDeleted : List EntityKey) (children : ChildRows)
    (ops : List RowOperation) : Except Error Applied := do
  let a : Applied := { state := base, children }
  let a ← (ops.filter fun op => !op.isInline && !op.isInsert && !op.isSetBegin).foldlM
    (applyOp base newId hardDeleted) a
  let a ← (ops.filter RowOperation.isInsert).foldlM (applyOp base newId hardDeleted) a
  (ops.filter RowOperation.isSetBegin).foldlM (applyOp base newId hardDeleted) a

/-- Raises each table's field-id counter above its live columns. -/
def floatCounters (state : CatalogSnapshot) : CatalogSnapshot :=
  state.columns.toList.foldl (fun state x =>
    match x.2.keys.max?, state.tables[x.1]? with
    | some maxId, some table =>
      if table.nextColumnId ≤ maxId then
        { state with tables := state.tables.insert x.1 { table with nextColumnId := maxId + 1 } }
      else state
    | _, _ => state) state

/-- The live data file with the greatest id. -/
def lastFile (files : ExtTreeMap Nat DataFileValue) : Option DataFileValue :=
  files.toList.foldl (fun best x =>
    match best with
    | some file => if file.dataFileId ≤ x.2.dataFileId then some x.2 else best
    | none => some x.2) none

/-- A ready deferred definition set to await repair, from the rows and files the base view held. -/
def awaitRepair (base : CatalogSnapshot) (newSnapshot tableId : Nat) (value : IndexValue) : IndexValue :=
  let tail := base.dataFiles[tableId]?.bind lastFile
  { value with
    beginSnapshot := newSnapshot
    buildState := some "maintaining"
    buildCursorRowId := base.tableStats[tableId]?.bind fun stats =>
      if stats.nextRowId = 0 then none else some (stats.nextRowId - 1)
    -- The zero sentinel selects the resume by file also if the base held no file.
    buildCursorFile := some (tail.elim 0 (·.dataFileId))
    buildCursorPosition := some (tail.elim 0 (·.recordCount - 1)) }

/-- Sets one deferred definition to await repair. One that is being repaired keeps its cursor. -/
def deferOne (base : CatalogSnapshot) (newSnapshot : Nat) (state : CatalogSnapshot) (indexId : Nat) :
    CatalogSnapshot :=
  { state with
    indexes := state.indexes.map fun tableId perTable =>
      match perTable[indexId]? with
      | some value =>
        if value.buildState.isNone then perTable.insert indexId (awaitRepair base newSnapshot tableId value)
        else perTable
      | none => perTable }

def applyDeferredMaintenance (base : CatalogSnapshot) (state : CatalogSnapshot) (deferred : List Nat)
    (newSnapshot : Nat) : CatalogSnapshot :=
  deferred.foldl (deferOne base newSnapshot) state

/-- The view the rows of a batch lead to from the base view, and the key deletions that skip the diff. -/
def translateState (base : CatalogSnapshot) (ops : List RowOperation) (poisoned deferred : List Nat)
    (newId : Nat) : Except Error (CatalogSnapshot × List StagedWrite) := do
  let children ← collectChildRows ops
  let hardDeleted ← collectHardDeletes ops
  let a ← applyRows base newId hardDeleted children ops
  refuseOrphanedChildren a.children
  let state := applyPoison (floatCounters a.state) poisoned
  return (applyDeferredMaintenance base state deferred newId, a.direct)

/-- What a batch without a snapshot row may contain. -/
def allowedInMaintenance (op : RowOperation) : Bool :=
  match op with
  | .delete .. | .insert .filesScheduledForDeletion _ | .insert .metadata _ => true
  | op => op.isInline

def applyMaintenanceOp (base : CatalogSnapshot) (hardDeleted : List EntityKey) (a : Applied)
    (op : RowOperation) : Except Error Applied :=
  if allowedInMaintenance op then applyOp base base.snapshot.snapshotId hardDeleted a op
  else .error (.constraint
    ("a staged commit without a ducklake_snapshot insert may only reclaim state or set options " ++
      "(maintenance deletes, deletion-schedule inserts, and ducklake_metadata writes)"))

end Moraine.StagedRows
