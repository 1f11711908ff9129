-- SUMMARY: The materialized catalog view, its mutators, and the view a store scan builds.
import Moraine.Base.NameIndex
import Moraine.Store.Key

/-!
# Catalog views

`CatalogSnapshot` is the in-memory view of the catalog: one ordered map per record kind and one name
index per kind that is looked up by name. The mutators are those of `catalog/snapshot.rs`.

Over the maps stands the reading that everything else uses: a view is a partial map from `current` keys
to records (`get`) together with a name directory (`directory`). `get_putRecord`, `directory_putRecord`
and their counterparts for removal say what each mutator does to that reading, and no later proof
unfolds the maps.
-/

namespace Moraine

open Std OrdMap NameIndex

/-- A per-scope name index: schema or table id, then name, to entity id. -/
abbrev ScopedNames := Nested Nat String Nat

/-- An immutable catalog view at one snapshot. `batchSeq` is the head record's batch count when the view
    was built. -/
structure CatalogSnapshot where
  snapshot : SnapshotValue := default
  batchSeq : Nat := 0
  schemas : ExtTreeMap Nat SchemaValue := ∅
  tables : ExtTreeMap Nat TableValue := ∅
  views : ExtTreeMap Nat ViewValue := ∅
  macros : ExtTreeMap Nat MacroValue := ∅
  columns : Nested Nat Nat ColumnValue := ∅
  schemaNames : ExtTreeMap String Nat := ∅
  tableNames : ScopedNames := ∅
  viewNames : ScopedNames := ∅
  macroNames : ScopedNames := ∅
  dataFiles : Nested Nat Nat DataFileValue := ∅
  deleteFiles : Nested Nat Nat DeleteFileValue := ∅
  partitions : Nested Nat Nat PartitionValue := ∅
  sorts : Nested Nat Nat SortValue := ∅
  mappings : Nested Nat Nat MappingValue := ∅
  indexes : Nested Nat Nat IndexValue := ∅
  indexNames : ScopedNames := ∅
  tableStats : ExtTreeMap Nat TableStatsValue := ∅
  tableColumnStats : Nested Nat Nat TableColumnStatsValue := ∅
  fileColumnStats : Nested Nat (Nat × Nat) FileColumnStatsValue := ∅
  options : ExtTreeMap (Nat × Nat) OptionScopeValue := ∅
  tags : ExtTreeMap Nat TagValue := ∅
  gcFiles : ExtTreeMap Nat GcFileValue := ∅

/-- The id `name` resolves to inside `scope`, if any. -/
def scopedName (names : ScopedNames) (scope : Nat) (name : String) : Option Nat :=
  getNested names scope name

def removeScopedName (names : ScopedNames) (scope : Nat) (name : String) : ScopedNames :=
  removeNestedPruned names scope name

/-- Inserts a name-scoped entity, first unlinking the replaced version's name. `identity` gives a
    value's id, scope and name. -/
def putNamed {V : Type} (values : ExtTreeMap Nat V) (names : ScopedNames) (value : V)
    (identity : V → Nat × Nat × String) : ExtTreeMap Nat V × ScopedNames :=
  let (id, scope, name) := identity value
  let names := match values[id]? with
    | some old => removeScopedName names (identity old).2.1 (identity old).2.2
    | none => names
  (values.insert id value, putNested names scope name id)

/-- Removes a name-scoped entity and its name entry, if present. -/
def deleteNamed {V : Type} (values : ExtTreeMap Nat V) (names : ScopedNames) (id : Nat)
    (identity : V → Nat × Nat × String) : ExtTreeMap Nat V × ScopedNames :=
  match values[id]? with
  | some old => (values.erase id, removeScopedName names (identity old).2.1 (identity old).2.2)
  | none => (values, names)

section Named

variable {V : Type} (values : ExtTreeMap Nat V) (names : ScopedNames) (identity : V → Nat × Nat × String)

@[simp] theorem getElem?_putNamed (value : V) (j : Nat) :
    (putNamed values names value identity).1[j]? =
      if j = (identity value).1 then some value else values[j]? := by
  simp [putNamed]

@[simp] theorem scopedName_putNamed (value : V) (s : Nat) (name : String) :
    scopedName (putNamed values names value identity).2 s name =
      if (identity value).2 = (s, name) then some (identity value).1
      else if values[(identity value).1]?.map (fun old => (identity old).2) = some (s, name) then none
      else scopedName names s name := by
  cases h : values[(identity value).1]? <;>
    simp [putNamed, h, scopedName, removeScopedName, Prod.ext_iff, eq_comm]

@[simp] theorem getElem?_deleteNamed (id j : Nat) :
    (deleteNamed values names id identity).1[j]? = if j = id then none else values[j]? := by
  cases h : values[id]? with
  | none =>
    by_cases hj : j = id
    · simp [deleteNamed, hj, h]
    · simp [deleteNamed, hj, h]
  | some old => simp [deleteNamed, h]

@[simp] theorem scopedName_deleteNamed (id s : Nat) (name : String) :
    scopedName (deleteNamed values names id identity).2 s name =
      if values[id]?.map (fun old => (identity old).2) = some (s, name) then none
      else scopedName names s name := by
  cases h : values[id]? <;> simp [deleteNamed, h, scopedName, removeScopedName, Prod.ext_iff, eq_comm]

end Named

abbrev tableIdentity (value : TableValue) : Nat × Nat × String :=
  (value.tableId, value.schemaId, value.tableName)

abbrev viewIdentity (value : ViewValue) : Nat × Nat × String :=
  (value.viewId, value.schemaId, value.viewName)

abbrev macroIdentity (value : MacroValue) : Nat × Nat × String :=
  (value.macroId, value.schemaId, value.macroName)

abbrev indexIdentity (value : IndexValue) : Nat × Nat × String :=
  (value.indexId, value.tableId, value.indexName)

namespace CatalogSnapshot

/-! ## Mutators -/

def putTag (v : CatalogSnapshot) (value : TagValue) : CatalogSnapshot :=
  { v with tags := v.tags.insert value.objectId value }

def putGcFile (v : CatalogSnapshot) (value : GcFileValue) : CatalogSnapshot :=
  { v with gcFiles := v.gcFiles.insert value.dataFileId value }

def putSchema (v : CatalogSnapshot) (value : SchemaValue) : CatalogSnapshot :=
  let schemaNames := match v.schemas[value.schemaId]? with
    | some old => v.schemaNames.erase old.schemaName
    | none => v.schemaNames
  { v with
    schemaNames := schemaNames.insert value.schemaName value.schemaId
    schemas := v.schemas.insert value.schemaId value }

def putTable (v : CatalogSnapshot) (value : TableValue) : CatalogSnapshot :=
  let (tables, tableNames) := putNamed v.tables v.tableNames value tableIdentity
  { v with tables, tableNames }

def putView (v : CatalogSnapshot) (value : ViewValue) : CatalogSnapshot :=
  let (views, viewNames) := putNamed v.views v.viewNames value viewIdentity
  { v with views, viewNames }

def deleteView (v : CatalogSnapshot) (viewId : Nat) : CatalogSnapshot :=
  let (views, viewNames) := deleteNamed v.views v.viewNames viewId viewIdentity
  { v with views, viewNames }

def putMapping (v : CatalogSnapshot) (value : MappingValue) : CatalogSnapshot :=
  { v with mappings := putNested v.mappings value.tableId value.mappingId value }

def putMacro (v : CatalogSnapshot) (value : MacroValue) : CatalogSnapshot :=
  let (macros, macroNames) := putNamed v.macros v.macroNames value macroIdentity
  { v with macros, macroNames }

def deleteMacro (v : CatalogSnapshot) (macroId : Nat) : CatalogSnapshot :=
  let (macros, macroNames) := deleteNamed v.macros v.macroNames macroId macroIdentity
  { v with macros, macroNames }

def putIndex (v : CatalogSnapshot) (value : IndexValue) : CatalogSnapshot :=
  let indexNames := match getNested v.indexes value.tableId value.indexId with
    | some old => removeScopedName v.indexNames (indexIdentity old).2.1 (indexIdentity old).2.2
    | none => v.indexNames
  { v with
    indexNames := putNested indexNames value.tableId value.indexName value.indexId
    indexes := putNested v.indexes value.tableId value.indexId value }

def deleteIndex (v : CatalogSnapshot) (tableId indexId : Nat) : CatalogSnapshot :=
  match getNested v.indexes tableId indexId with
  | some old =>
    { v with
      indexNames := removeScopedName v.indexNames (indexIdentity old).2.1 (indexIdentity old).2.2
      indexes := removeNested v.indexes tableId indexId }
  | none => v

def putColumn (v : CatalogSnapshot) (value : ColumnValue) : CatalogSnapshot :=
  { v with columns := putNested v.columns value.tableId value.columnId value }

def putDataFile (v : CatalogSnapshot) (value : DataFileValue) : CatalogSnapshot :=
  { v with dataFiles := putNested v.dataFiles value.tableId value.dataFileId value }

def deleteDataFile (v : CatalogSnapshot) (tableId dataFileId : Nat) : CatalogSnapshot :=
  { v with dataFiles := removeNested v.dataFiles tableId dataFileId }

def putPartition (v : CatalogSnapshot) (value : PartitionValue) : CatalogSnapshot :=
  { v with partitions := putNested v.partitions value.tableId value.partitionId value }

def deletePartition (v : CatalogSnapshot) (tableId partitionId : Nat) : CatalogSnapshot :=
  { v with partitions := removeNested v.partitions tableId partitionId }

def putSort (v : CatalogSnapshot) (value : SortValue) : CatalogSnapshot :=
  { v with sorts := putNested v.sorts value.tableId value.sortId value }

def deleteSort (v : CatalogSnapshot) (tableId sortId : Nat) : CatalogSnapshot :=
  { v with sorts := removeNested v.sorts tableId sortId }

def putDeleteFile (v : CatalogSnapshot) (value : DeleteFileValue) : CatalogSnapshot :=
  { v with deleteFiles := putNested v.deleteFiles value.tableId value.deleteFileId value }

def deleteDeleteFile (v : CatalogSnapshot) (tableId deleteFileId : Nat) : CatalogSnapshot :=
  { v with deleteFiles := removeNested v.deleteFiles tableId deleteFileId }

def putTableStats (v : CatalogSnapshot) (value : TableStatsValue) : CatalogSnapshot :=
  { v with tableStats := v.tableStats.insert value.tableId value }

def putTableColumnStats (v : CatalogSnapshot) (value : TableColumnStatsValue) : CatalogSnapshot :=
  { v with tableColumnStats := putNested v.tableColumnStats value.tableId value.columnId value }

def putFileColumnStats (v : CatalogSnapshot) (value : FileColumnStatsValue) : CatalogSnapshot :=
  { v with
    fileColumnStats := putNested v.fileColumnStats value.tableId (value.dataFileId, value.columnId) value }

def setOptionRecord (v : CatalogSnapshot) (components : Nat × Nat) (value : OptionScopeValue) :
    CatalogSnapshot :=
  { v with options := v.options.insert components value }

def removeOptionRecord (v : CatalogSnapshot) (components : Nat × Nat) : CatalogSnapshot :=
  { v with options := v.options.erase components }

/-- Removes a schema and its name entry, without the option-scope cascade of `deleteSchema`. -/
def removeSchemaOnly (v : CatalogSnapshot) (schemaId : Nat) : CatalogSnapshot :=
  match v.schemas[schemaId]? with
  | some old =>
    { v with schemas := v.schemas.erase schemaId, schemaNames := v.schemaNames.erase old.schemaName }
  | none => v

/-- Removes a table and its name entry, without the child cascade of `deleteTable`. -/
def removeTableOnly (v : CatalogSnapshot) (tableId : Nat) : CatalogSnapshot :=
  let (tables, tableNames) := deleteNamed v.tables v.tableNames tableId tableIdentity
  { v with tables, tableNames }

/-- Removes one column, without the column-stats cascade of `deleteColumn`. -/
def removeColumnOnly (v : CatalogSnapshot) (tableId columnId : Nat) : CatalogSnapshot :=
  { v with columns := removeNested v.columns tableId columnId }

def removeTableStats (v : CatalogSnapshot) (tableId : Nat) : CatalogSnapshot :=
  { v with tableStats := v.tableStats.erase tableId }

def removeTableColumnStats (v : CatalogSnapshot) (tableId columnId : Nat) : CatalogSnapshot :=
  { v with tableColumnStats := removeNested v.tableColumnStats tableId columnId }

def removeFileColumnStats (v : CatalogSnapshot) (tableId dataFileId columnId : Nat) : CatalogSnapshot :=
  { v with fileColumnStats := removeNested v.fileColumnStats tableId (dataFileId, columnId) }

def removeTag (v : CatalogSnapshot) (objectId : Nat) : CatalogSnapshot :=
  { v with tags := v.tags.erase objectId }

def removeGcFile (v : CatalogSnapshot) (dataFileId : Nat) : CatalogSnapshot :=
  { v with gcFiles := v.gcFiles.erase dataFileId }

/-- A schema's option scope, as the option key names it. -/
def schemaScope (schemaId : Nat) : Nat × Nat := (1, schemaId)

/-- A table's option scope, as the option key names it. -/
def tableScope (tableId : Nat) : Nat × Nat := (2, tableId)

def deleteSchema (v : CatalogSnapshot) (schemaId : Nat) : CatalogSnapshot :=
  (v.removeSchemaOnly schemaId).removeOptionRecord (schemaScope schemaId)

/-- Drops a table with its children. Per-file statistics and column mappings are kept: historical file
    reads still resolve through them. -/
def deleteTable (v : CatalogSnapshot) (tableId : Nat) : CatalogSnapshot :=
  let v := v.removeTableOnly tableId
  removeOptionRecord
    { v with
      columns := v.columns.erase tableId
      dataFiles := v.dataFiles.erase tableId
      deleteFiles := v.deleteFiles.erase tableId
      partitions := v.partitions.erase tableId
      sorts := v.sorts.erase tableId
      indexes := v.indexes.erase tableId
      indexNames := v.indexNames.erase tableId
      tableStats := v.tableStats.erase tableId
      tableColumnStats := v.tableColumnStats.erase tableId }
    (tableScope tableId)

/-- Removes a column with its statistics, which describe current state and die with it. -/
def deleteColumn (v : CatalogSnapshot) (tableId columnId : Nat) : CatalogSnapshot :=
  { v with
    columns := removeNested v.columns tableId columnId
    tableColumnStats := removeNested v.tableColumnStats tableId columnId }

/-- Inserts one decoded record into the maps it belongs to. -/
def putRecord (v : CatalogSnapshot) : EntityRecord → CatalogSnapshot
  | .schema s => v.putSchema s
  | .table t => v.putTable t
  | .column c => v.putColumn c
  | .file f => v.putDataFile f
  | .deleteFile d => v.putDeleteFile d
  | .view w => v.putView w
  | .partition p => v.putPartition p
  | .sort s => v.putSort s
  | .macroDef m => v.putMacro m
  | .index i => v.putIndex i
  | .mapping m => v.putMapping m
  | .fileColumnStats s => v.putFileColumnStats s
  | .tableStats s => v.putTableStats s
  | .tableColumnStats s => v.putTableColumnStats s
  | .option k s value => v.setOptionRecord (k, s) value
  | .tag t => v.putTag t
  | .gcFile g => v.putGcFile g

/-! ## The reading of a view: records by key, names to keys -/

/-- The record a view holds under a key. -/
def get (v : CatalogSnapshot) : CurrentKey → Option EntityRecord
  | .entity (.schema s) => v.schemas[s]?.map .schema
  | .entity (.table t) => v.tables[t]?.map .table
  | .entity (.view w) => v.views[w]?.map .view
  | .entity (.column t c) => (getNested v.columns t c).map .column
  | .entity (.partition t p) => (getNested v.partitions t p).map .partition
  | .entity (.file t f) => (getNested v.dataFiles t f).map .file
  | .entity (.deleteFile t d) => (getNested v.deleteFiles t d).map .deleteFile
  | .entity (.fileColumnStats t f c) => (getNested v.fileColumnStats t (f, c)).map .fileColumnStats
  | .entity (.tableStats t) => v.tableStats[t]?.map .tableStats
  | .entity (.tableColumnStats t c) => (getNested v.tableColumnStats t c).map .tableColumnStats
  | .entity (.tag o) => v.tags[o]?.map .tag
  | .entity (.option k s) => v.options[(k, s)]?.map (.option k s)
  | .entity (.sort t s) => (getNested v.sorts t s).map .sort
  | .entity (.macroDef m) => v.macros[m]?.map .macroDef
  | .entity (.mapping t m) => (getNested v.mappings t m).map .mapping
  | .entity (.index t i) => (getNested v.indexes t i).map .index
  | .gcFile f => v.gcFiles[f]?.map .gcFile

/-- The key a name is linked to. -/
def owner (v : CatalogSnapshot) : NameKey → Option CurrentKey
  | .schema name => v.schemaNames[name]?.map fun id => .entity (.schema id)
  | .table s name => (scopedName v.tableNames s name).map fun id => .entity (.table id)
  | .view s name => (scopedName v.viewNames s name).map fun id => .entity (.view id)
  | .macroDef s name => (scopedName v.macroNames s name).map fun id => .entity (.macroDef id)
  | .index t name => (scopedName v.indexNames t name).map fun id => .entity (.index t id)

/-- A name lookup: `schema_by_name`, `table_by_name`, `view_by_name`, `macro_by_name` and
    `index_by_name` follow the name's link and fetch the record it points at. -/
def byName (v : CatalogSnapshot) (n : NameKey) : Option EntityRecord := (v.owner n).bind v.get

/-- The view as a name directory. -/
def directory (v : CatalogSnapshot) : Directory CurrentKey NameKey :=
  ⟨fun k => (v.get k).bind EntityRecord.nameKey, v.owner⟩

/-- Two views show the same live records of every kind and answer every name lookup alike. Emptied
    per-table inner maps do not show. -/
structure Same (v w : CatalogSnapshot) : Prop where
  get : ∀ k, v.get k = w.get k
  byName : ∀ n, v.byName n = w.byName n

/-- Every record stands under the key its own ids name. -/
def WellKeyed (v : CatalogSnapshot) : Prop := ∀ k r, v.get k = some r → r.key = k

section Lemmas

variable (v : CatalogSnapshot)

theorem get_putRecord (r : EntityRecord) (k : CurrentKey) :
    (v.putRecord r).get k = if k = r.key then some r else v.get k := by
  cases r <;>
    rcases k with ⟨⟨⟩⟩ | _ <;>
    simp [putRecord, get, EntityRecord.key, putSchema, putTable, putView, putMacro, putIndex, putColumn,
      putDataFile, putDeleteFile, putPartition, putSort, putMapping, putFileColumnStats, putTableStats,
      putTableColumnStats, setOptionRecord, putTag, putGcFile, map_ite]
  -- An option record takes its scope from the key.
  split <;> simp_all

theorem owner_putRecord (r : EntityRecord) (n : NameKey) :
    (v.putRecord r).owner n =
      if r.nameKey = some n then some r.key
      else if (v.get r.key).bind EntityRecord.nameKey = some n then none else v.owner n := by
  have hmap : ∀ {α β γ : Type} (f : α → β) (g : β → Option γ) (x : Option α),
      (x.map f).bind g = x.bind fun a => g (f a) := fun f g x => by cases x <;> rfl
  cases r with
  | schema s =>
    cases h : v.schemas[s.schemaId]? <;> cases n <;>
      simp [putRecord, owner, EntityRecord.nameKey, EntityRecord.key, putSchema, get, h, eq_comm,
        map_ite]
  | table t =>
    cases h : v.tables[t.tableId]? <;> cases n <;>
      simp [putRecord, owner, EntityRecord.nameKey, EntityRecord.key, putTable, get, h, eq_comm,
        map_ite]
  | view w =>
    cases h : v.views[w.viewId]? <;> cases n <;>
      simp [putRecord, owner, EntityRecord.nameKey, EntityRecord.key, putView, get, h, eq_comm,
        map_ite]
  | macroDef m =>
    cases h : v.macros[m.macroId]? <;> cases n <;>
      simp [putRecord, owner, EntityRecord.nameKey, EntityRecord.key, putMacro, get, h, eq_comm,
        map_ite]
  | index i =>
    cases h : getNested v.indexes i.tableId i.indexId <;> cases n <;>
      simp [putRecord, owner, EntityRecord.nameKey, EntityRecord.key, putIndex, get, h, scopedName,
        removeScopedName, eq_comm, map_ite] <;>
      split <;> simp_all
  | _ =>
    cases n <;> simp [putRecord, owner, EntityRecord.nameKey, EntityRecord.key, get, hmap, putColumn,
      putDataFile, putDeleteFile, putPartition, putSort, putMapping, putFileColumnStats, putTableStats,
      putTableColumnStats, setOptionRecord, putTag, putGcFile]

/-- The snapshot metadata and the batch count are not part of what a view shows. -/
@[simp] theorem get_stamp (snapshot : SnapshotValue) (batchSeq : Nat) (k : CurrentKey) :
    CatalogSnapshot.get { v with snapshot := snapshot, batchSeq := batchSeq } k = v.get k := by
  rcases k with ⟨⟨⟩⟩ | _ <;> rfl

@[simp] theorem directory_stamp (snapshot : SnapshotValue) (batchSeq : Nat) :
    CatalogSnapshot.directory { v with snapshot := snapshot, batchSeq := batchSeq } = v.directory := by
  simp only [directory, get_stamp, Directory.mk.injEq, true_and]
  funext n
  cases n <;> rfl

/-- Putting a record is one write of the directory. -/
theorem directory_putRecord (r : EntityRecord) :
    (v.putRecord r).directory = v.directory.write r.key r.nameKey := by
  simp only [directory, Directory.write, Directory.mk.injEq]
  refine ⟨funext fun k => ?_, funext fun n => v.owner_putRecord r n⟩
  by_cases hk : k = r.key
  · simp [get_putRecord, hk]
  · simp [get_putRecord, hk]

theorem WellKeyed.putRecord {v : CatalogSnapshot} (hv : v.WellKeyed) (r : EntityRecord) :
    (v.putRecord r).WellKeyed := by
  intro k r' h
  rw [get_putRecord] at h
  split at h
  · next hk => cases h; exact hk.symm
  · exact hv k r' h

@[simp] theorem putRecord_snapshot (r : EntityRecord) : (v.putRecord r).snapshot = v.snapshot := by
  cases r <;> rfl

end Lemmas

/-! ## Building a view from a scan -/

/-- Whether a version spanning `beginSnapshot` to `endSnapshot` is included. With `at` absent every
    record without an end is live. -/
def included (at_ : Option Nat) (beginSnapshot : Nat) (endSnapshot : Option Nat) : Bool :=
  match at_ with
  | none => endSnapshot.isNone
  | some s => decide (beginSnapshot ≤ s) && endSnapshot.all fun e => decide (s < e)

/-- Builds the view. A record with a lifecycle is skipped unless `included`; the unversioned kinds are
    live at any time-travel target. -/
def build (snapshot : SnapshotValue) (current history : List EntityRecord) (at_ : Option Nat) :
    CatalogSnapshot :=
  (current ++ history).foldl
    (fun view record =>
      if record.lifecycle.any fun (b, e) => !included at_ b e then view else view.putRecord record)
    { snapshot := snapshot }

/-- How many `current` records the view holds: the size a full rematerialization would have to read. -/
def liveEntityCount (v : CatalogSnapshot) : Nat :=
  v.schemas.size + v.tables.size + v.views.size + v.macros.size
    + nested v.columns + nested v.dataFiles + nested v.deleteFiles + nested v.partitions
    + nested v.sorts + nested v.mappings + nested v.indexes + v.tableStats.size
    + nested v.tableColumnStats + nested v.fileColumnStats + v.options.size + v.tags.size
    + v.gcFiles.size
where
  nested {K V : Type} [Ord K] [TransOrd K] (map : Nested Nat K V) : Nat :=
    (map.values.map ExtTreeMap.size).sum

/-- Whether a record is live at `at_`. -/
def isLive (at_ : Option Nat) (r : EntityRecord) : Bool :=
  !r.lifecycle.any fun (b, e) => !included at_ b e

theorem build_eq (snapshot : SnapshotValue) (current history : List EntityRecord) (at_ : Option Nat) :
    build snapshot current history at_ =
      ((current ++ history).filter (isLive at_)).foldl putRecord { snapshot := snapshot } := by
  rw [build, List.foldl_filter]
  congr 1
  funext view record
  cases h : record.lifecycle.any fun (b, e) => !included at_ b e <;> simp [isLive, h]

section Fold

variable {v : CatalogSnapshot} {rs : List EntityRecord}

theorem foldl_putRecord_snapshot : (rs.foldl putRecord v).snapshot = v.snapshot := by
  induction rs generalizing v with
  | nil => rfl
  | cons r rs ih => rw [List.foldl_cons, ih, putRecord_snapshot]

theorem get_foldl_putRecord_of_not_mem {k : CurrentKey} (h : k ∉ rs.map EntityRecord.key) :
    (rs.foldl putRecord v).get k = v.get k := by
  induction rs generalizing v with
  | nil => rfl
  | cons r rs ih =>
    simp only [List.map_cons, List.mem_cons, not_or] at h
    rw [List.foldl_cons, ih h.2, get_putRecord, if_neg h.1]

theorem get_foldl_putRecord_of_mem {r : EntityRecord} (hnd : (rs.map EntityRecord.key).Nodup) (h : r ∈ rs) :
    (rs.foldl putRecord v).get r.key = some r := by
  induction rs generalizing v with
  | nil => cases h
  | cons r' rs ih =>
    simp only [List.map_cons, List.nodup_cons] at hnd
    rw [List.foldl_cons]
    rcases List.mem_cons.mp h with rfl | h
    · rw [get_foldl_putRecord_of_not_mem hnd.1, get_putRecord, if_pos rfl]
    · exact ih hnd.2 h

theorem directory_foldl_putRecord :
    (rs.foldl putRecord v).directory = v.directory.run (rs.map fun r => (r.key, r.nameKey)) := by
  induction rs generalizing v with
  | nil => rfl
  | cons r rs ih => rw [List.foldl_cons, ih, directory_putRecord, List.map_cons, Directory.run_cons]

end Fold

theorem get_empty (snapshot : SnapshotValue) (k : CurrentKey) :
    (CatalogSnapshot.get { snapshot := snapshot } k) = none := by
  rcases k with ⟨⟨⟩⟩ | _ <;> simp [get]

theorem directory_empty (snapshot : SnapshotValue) :
    (CatalogSnapshot.directory { snapshot := snapshot }) = Directory.empty := by
  simp only [directory, Directory.empty, Directory.mk.injEq]
  refine ⟨funext fun k => by rw [get_empty]; rfl, funext fun n => ?_⟩
  cases n <;> simp [owner, scopedName]

end CatalogSnapshot

end Moraine
