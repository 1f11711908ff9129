-- SUMMARY: What each verb has checked when it returns, and what it leaves when it returns or fails.
import Moraine.Transaction.VerbSteps

/-!
# The effects of the verbs

A verb that returns has checked its arguments against the working view and then changed the transaction in one way.
`Effect` lists for every call what it has checked and what it leaves; whatever is said about the verbs later is read
off it.
-/

namespace Moraine

open Std OrdMap Commands

/-! ## Calls -/

namespace Call

open Transaction

/-- The view without the table's live partition spec. -/
def withoutPartition (v : CatalogSnapshot) (t : Nat) : CatalogSnapshot :=
  match livePartitionId v t with
  | some partitionId => v.deletePartition t partitionId
  | none => v

/-- The view without the table's live sort spec. -/
def withoutSort (v : CatalogSnapshot) (t : Nat) : CatalogSnapshot :=
  match liveSortId v t with
  | some sortId => v.deleteSort t sortId
  | none => v

/-- The operation a build step records. -/
def buildOperation (t : Nat) (value : IndexValue) (isFinal : Bool) : Operation :=
  if isFinal then if value.buildState = some "maintaining" then .finishIndexMaintenance t else .alterTable t
  else .advanceIndexBuild t

/-- What a successful call has checked, and what it leaves. -/
inductive Effect (tx : Transaction) : Call → Transaction → Prop
  | createSchema {name uuid : String} {value : SchemaValue} (id : value.schemaId = tx.nextCatalogId)
      (named : value.schemaName = name) (free : tx.state.schemaNames[name]? = none)
      (begun : (EntityRecord.schema value).lifecycle = some (tx.newSnapshotId, none)) :
      Effect tx (.createSchema name uuid) { tx with
        state := tx.state.putRecord (.schema value)
        ops := tx.ops ++ [.createSchema tx.nextCatalogId name]
        nextCatalogId := tx.nextCatalogId + 1 }
  | dropSchema {schema : Nat} (main : schema ≠ 0) (live : tx.state.schemas[schema]?.isSome)
      (empty : occupied tx.state schema = none) :
      Effect tx (.dropSchema schema) { tx with
        state := tx.state.deleteSchema schema
        ops := tx.ops ++ [.dropSchema schema] }
  | createTable {schema : Nat} {name uuid : String} {columns : List ColumnDef} {schemaRec : SchemaValue}
      {value : TableValue} (live : tx.state.schemas[schema]? = some schemaRec)
      (free : RelationFree tx.state schema name) (distinct : DistinctNames columns [])
      (id : value.tableId = tx.nextCatalogId) (inSchema : value.schemaId = schema) (named : value.tableName = name)
      (counter : value.nextColumnId = columnNodeCount columns + 1)
      (begun : (EntityRecord.table value).lifecycle = some (tx.newSnapshotId, none)) :
      Effect tx (.createTable schema name columns uuid) { tx with
        state := (putColumns (tx.state.putRecord (.table value))
            (columnRecords tx.nextCatalogId tx.newSnapshotId columns none 1 1)).putRecord
          (.tableStats { tableId := tx.nextCatalogId, recordCount := 0, nextRowId := 0, fileSizeBytes := 0 })
        ops := tx.ops ++ [.createTable schema tx.nextCatalogId schemaRec.schemaName name]
        nextCatalogId := tx.nextCatalogId + 1 }
  | renameTable {t : Nat} {newName : String} {value : TableValue} (live : tx.state.tables[t]? = some value)
      (free : RelationFree tx.state value.schemaId newName) :
      Effect tx (.renameTable t newName) { tx with
        state := tx.state.putRecord (.table { value with tableName := newName, beginSnapshot := tx.newSnapshotId })
        ops := tx.ops ++ [.alterTable t] }
  | setTableSchema {t schema : Nat} {value : TableValue} (live : tx.state.tables[t]? = some value)
      (schemaLive : tx.state.schemas[schema]?.isSome) (free : RelationFree tx.state schema value.tableName) :
      Effect tx (.setTableSchema t schema) { tx with
        state := tx.state.putRecord (.table { value with schemaId := schema, beginSnapshot := tx.newSnapshotId })
        ops := tx.ops ++ [.alterTable t] }
  | dropTable {t : Nat} (live : tx.state.tables[t]?.isSome) :
      Effect tx (.dropTable t) { tx with state := tx.state.deleteTable t, ops := tx.ops ++ [.dropTable t] }
  | addColumn {t nextOrder : Nat} {column : ColumnDef} {value : TableValue} (live : tx.state.tables[t]? = some value)
      (free : SiblingFree tx.state t none column.name) (distinct : DistinctNames [column] []) {nextId : Nat}
      (next : nextId = max value.nextColumnId ((((tx.state.columns.getD t ∅).keys).max?).getD 0 + 1)) :
      Effect tx (.addColumn t column) { tx with
        state := (putColumns tx.state (treeRecords t tx.newSnapshotId column none nextId nextOrder)).putRecord
          (.table { value with nextColumnId := nextId + nodeCount column, beginSnapshot := tx.newSnapshotId })
        ops := tx.ops ++ [.alterTable t] }
  | renameColumn {t c : Nat} {newName : String} {value : ColumnValue}
      (live : getNested tx.state.columns t c = some value)
      (free : SiblingFree tx.state t value.parentColumn newName) :
      Effect tx (.renameColumn t c newName) { tx with
        state := tx.state.putRecord (.column { value with columnName := newName, beginSnapshot := tx.newSnapshotId })
        ops := tx.ops ++ [.alterTable t] }
  | alterColumn {t c : Nat} {alteration : ColumnAlteration} {value : ColumnValue}
      (live : getNested tx.state.columns t c = some value) :
      Effect tx (.alterColumn t c alteration) { tx with
        state := tx.state.putRecord (.column { value with
          columnType := alteration.columnType.getD value.columnType
          nullsAllowed := alteration.nullsAllowed.getD value.nullsAllowed
          defaultValue := alteration.defaultValue.getD value.defaultValue
          beginSnapshot := tx.newSnapshotId })
        ops := tx.ops ++ [.alterTable t] }
  | dropColumn {t c : Nat} {doomed : List Nat} (live : (getNested tx.state.columns t c).isSome)
      (subtree : columnSubtree tx.state t c = some doomed) (free : ∀ d ∈ doomed, columnIsIndexed tx.state t d = false) :
      Effect tx (.dropColumn t c) { tx with
        state := doomed.foldl (fun v id => v.deleteColumn t id) tx.state
        ops := tx.ops ++ [.alterTable t] }
  | setPartitioning {t : Nat} {columns : List PartitionColumnDef} {spec : PartitionValue}
      (live : tx.state.tables[t]?.isSome)
      (columnsLive : ∀ key ∈ columns, (getNested tx.state.columns t key.column).isSome)
      (id : spec.partitionId = tx.nextCatalogId) (table : spec.tableId = t)
      (named : spec.columns.map PartitionColumn.columnId = columns.map PartitionColumnDef.column)
      (begun : (EntityRecord.partition spec).lifecycle = some (tx.newSnapshotId, none)) :
      Effect tx (.setPartitioning t columns) { tx with
        state := (withoutPartition tx.state t).putRecord (.partition spec)
        ops := tx.ops ++ [.alterTable t]
        nextCatalogId := tx.nextCatalogId + 1 }
  | clearPartitioning {t : Nat} (live : tx.state.tables[t]?.isSome) :
      Effect tx (.clearPartitioning t) { tx with
        state := withoutPartition tx.state t, ops := tx.ops ++ [.alterTable t] }
  | setSorting {t : Nat} {keys : List SortKeyDef} {spec : SortValue} (live : tx.state.tables[t]?.isSome)
      (id : spec.sortId = tx.nextCatalogId) (table : spec.tableId = t)
      (begun : (EntityRecord.sort spec).lifecycle = some (tx.newSnapshotId, none)) :
      Effect tx (.setSorting t keys) { tx with
        state := (withoutSort tx.state t).putRecord (.sort spec)
        ops := tx.ops ++ [.alterTableSorting t]
        nextCatalogId := tx.nextCatalogId + 1 }
  | clearSorting {t : Nat} (live : tx.state.tables[t]?.isSome) :
      Effect tx (.clearSorting t) { tx with
        state := withoutSort tx.state t, ops := tx.ops ++ [.alterTableSorting t] }
  | createIndex {t : Nat} {index : IndexDef} {backfill : List IndexEntry} {es : List StagedIndexEntry}
      (defined : IndexDefinable tx.state t index .synchronous [])
      (staged : backfill.mapM (encodedEntry tx.nextCatalogId ⟨index.unique, index.columns.length, [], false⟩ false) =
        some es) :
      Effect tx (.createIndex t index backfill) { definedIndex tx t index .synchronous none [] with
        indexEntries := tx.indexEntries ++ es
        ops := tx.ops ++ [.alterTable t] }
  | createIndexOrderedWithMaintenance {t : Nat} {index : IndexDef} {orders : List ColumnOrder}
      {maintenance : IndexMaintenance} {backfill : List IndexEntry} {es : List StagedIndexEntry}
      (defined : IndexDefinable tx.state t index maintenance orders)
      (staged : backfill.mapM
        (encodedEntry tx.nextCatalogId ⟨index.unique, index.columns.length, orders, false⟩ false) = some es) :
      Effect tx (.createIndexOrderedWithMaintenance t index orders maintenance backfill)
        { definedIndex tx t index maintenance none orders with
          indexEntries := tx.indexEntries ++ es
          ops := tx.ops ++ [.alterTable t] }
  | createIndexStagedOrderedWithMaintenance {t : Nat} {index : IndexDef} {orders : List ColumnOrder}
      {maintenance : IndexMaintenance} (defined : IndexDefinable tx.state t index maintenance orders) :
      Effect tx (.createIndexStagedOrderedWithMaintenance t index orders maintenance)
        { definedIndex tx t index maintenance (some "building") orders with ops := tx.ops ++ [.alterTable t] }
  | dropIndex {i t : Nat} {value : IndexValue} (found : findIndex tx.state i = some (t, value)) :
      Effect tx (.dropIndex i) { tx with state := tx.state.deleteIndex t i, ops := tx.ops ++ [.alterTable t] }
  | buildIndexSourceStep {i t : Nat} {batch : List IndexEntry} {isFinal : Bool} {source : Option (Nat × Nat)}
      {value : IndexValue} {es : List StagedIndexEntry} (found : findIndex tx.state i = some (t, value))
      (building : value.buildState = some "building" ∨ value.buildState = some "maintaining")
      (staged : batch.mapM (encodedEntry i { shapeOf value with building := true } false) = some es) :
      Effect tx (.buildIndexSourceStep i batch isFinal source) { tx with
        state := tx.state.putRecord (.index (advanceBuild value batch isFinal source tx.newSnapshotId))
        indexEntries := tx.indexEntries ++ es
        ops := tx.ops ++ [buildOperation t value isFinal] }
  | registerDataFile {t : Nat} {file : DataFile} {entries : List FileIndexEntry} {tstat : TableStatsValue}
      {partitionId : Option Nat} {es : List StagedIndexEntry}
      (fits : FileFits tx.state t file entries tstat partitionId)
      (staged : entries.mapM (stagedFileEntry t tstat.nextRowId tx.state) = some es) :
      Effect tx (.registerDataFile t file entries) { registeredFile tx t file tstat partitionId with
        indexEntries := tx.indexEntries ++ es
        ops := tx.ops ++ [.registerDataFile t] }
  | expireDataFile {t f : Nat} {file : DataFileValue} {tstat : TableStatsValue}
      (live : getNested tx.state.dataFiles t f = some file)
      (stats : tx.state.tableStats[t]? = some tstat) :
      Effect tx (.expireDataFile t f) { tx with
        state := (withoutDataFile tx.state t f).putRecord
          (.tableStats { tstat with
            recordCount := tstat.recordCount - file.recordCount
            fileSizeBytes := tstat.fileSizeBytes - file.fileSizeBytes })
        ops := tx.ops ++ [.expireDataFile t] }
  | registerDeleteFile {t : Nat} {file : DeleteFile} {entries : List FileIndexRemoval} {target : DataFileValue}
      {es : List StagedIndexEntry} (fits : DeleteFileFits tx.state t file entries target)
      (staged : entries.mapM (stagedRemoval t tx.state) = some es) :
      Effect tx (.registerDeleteFile t file entries) { registeredDeleteFile tx t file with
        indexEntries := tx.indexEntries ++ es
        ops := tx.ops ++ [.registerDeleteFile t file.dataFileId] }
  | expireDeleteFile {t f : Nat} (live : (getNested tx.state.deleteFiles t f).isSome) :
      Effect tx (.expireDeleteFile t f) { tx with
        state := tx.state.deleteDeleteFile t f, ops := tx.ops ++ [.expireDeleteFile t] }
  | updateTableStats {t recordCount fileSizeBytes : Nat} {tstat : TableStatsValue} (live : tx.state.tables[t]?.isSome)
      (stats : tx.state.tableStats[t]? = some tstat) :
      Effect tx (.updateTableStats t recordCount fileSizeBytes) { tx with
        state := tx.state.putRecord (.tableStats { tstat with recordCount, fileSizeBytes })
        ops := tx.ops ++ [.updateStats t] }
  | updateColumnStats {t c : Nat} {stats : ColumnStats} {value : TableColumnStatsValue}
      (live : (getNested tx.state.columns t c).isSome) (table : value.tableId = t) (column : value.columnId = c) :
      Effect tx (.updateColumnStats t c stats) { tx with
        state := tx.state.putRecord (.tableColumnStats value), ops := tx.ops ++ [.updateStats t] }
  | createView {schema : Nat} {name dialect sql uuid : String} {schemaRec : SchemaValue} {value : ViewValue}
      (live : tx.state.schemas[schema]? = some schemaRec) (free : RelationFree tx.state schema name)
      (id : value.viewId = tx.nextCatalogId) (inSchema : value.schemaId = schema) (named : value.viewName = name)
      (begun : (EntityRecord.view value).lifecycle = some (tx.newSnapshotId, none)) :
      Effect tx (.createView schema name dialect sql uuid) { tx with
        state := tx.state.putRecord (.view value)
        ops := tx.ops ++ [.createView schema tx.nextCatalogId schemaRec.schemaName name]
        nextCatalogId := tx.nextCatalogId + 1 }
  | alterView {view : Nat} {dialect sql : String} {value : ViewValue} (live : tx.state.views[view]? = some value) :
      Effect tx (.alterView view dialect sql) { tx with
        state := tx.state.putRecord (.view { value with dialect, sql, beginSnapshot := tx.newSnapshotId })
        ops := tx.ops ++ [.alterView view] }
  | dropView {view : Nat} (live : tx.state.views[view]?.isSome) :
      Effect tx (.dropView view) { tx with state := tx.state.deleteView view, ops := tx.ops ++ [.dropView view] }
  | createMacro {schema : Nat} {name macroType : String} {implementations : List MacroImplementationDef}
      {schemaRec : SchemaValue} {value : MacroValue} (live : tx.state.schemas[schema]? = some schemaRec)
      (typed : value.implementations.head?.map MacroImplementation.macroType = some macroType)
      (free : ∀ m ∈ tx.state.macros.values, m.schemaId = schema → m.macroName = name →
        m.implementations.head?.map MacroImplementation.macroType ≠ some macroType)
      (id : value.macroId = tx.nextCatalogId) (inSchema : value.schemaId = schema) (named : value.macroName = name)
      (begun : (EntityRecord.macroDef value).lifecycle = some (tx.newSnapshotId, none)) :
      Effect tx (.createMacro schema name implementations) { tx with
        state := tx.state.putRecord (.macroDef value)
        ops := tx.ops ++ [.createMacro schema tx.nextCatalogId schemaRec.schemaName name macroType]
        nextCatalogId := tx.nextCatalogId + 1 }
  | dropMacro {m : Nat} {macroType : String} (live : tx.state.macros[m]?.isSome) :
      Effect tx (.dropMacro m) { tx with
        state := tx.state.deleteMacro m, ops := tx.ops ++ [.dropMacro m macroType] }
  | setOption {scope : OptionScope} {key text : String} {value : OptionScopeValue} :
      Effect tx (.setOption scope key text) { tx with state := tx.state.setOptionRecord scope.keyComponents value }
  | unsetOption {scope : OptionScope} {key : String} {options : ExtTreeMap (Nat × Nat) OptionScopeValue} :
      Effect tx (.unsetOption scope key) { tx with state := { tx.state with options := options } }
  | setTag {target : TagTarget} {key text : String} {v : CatalogSnapshot} (live : TargetLive tx.state target)
      (retagged : Retagged tx.state target.objectId v) :
      Effect tx (.setTag target key text) { tx with state := v, ops := tx.ops ++ [tagOperation target] }
  | removeTag {target : TagTarget} {key : String} {v : CatalogSnapshot} (live : TargetLive tx.state target)
      (retagged : Retagged tx.state target.objectId v) :
      Effect tx (.removeTag target key) { tx with state := v, ops := tx.ops ++ [tagOperation target] }
  | inlineInsert {t : Nat} {chunk : InlineChunk} {entries : List FileIndexEntry} {tstat : TableStatsValue}
      {es : List StagedIndexEntry} (fits : ChunkFits tx.state t chunk entries tstat)
      (staged : entries.mapM (stagedFileEntry t tstat.nextRowId tx.state) = some es) :
      Effect tx (.inlineInsert t chunk entries) { insertedChunk tx t chunk tstat with
        indexEntries := tx.indexEntries ++ es
        ops := tx.ops ++ [.inlineInsert t] }
  | inlineDelete {t rowId : Nat} {entries : List FileIndexRemoval} {es : List StagedIndexEntry}
      (fits : RemovalFits tx.state t rowId entries) (staged : entries.mapM (stagedRemoval t tx.state) = some es) :
      Effect tx (.inlineDelete t rowId entries) { tx with
        indexEntries := tx.indexEntries ++ es
        inlineOps := tx.inlineOps ++ [.tombstone t rowId tx.newSnapshotId]
        ops := tx.ops ++ [.inlineDelete t] }
  | flushInlinedData {t schemaVersion : Nat} {flushed : List FlushedDataFile} {tstat : TableStatsValue}
      {tx' : Transaction} (live : tx.state.tables[t]?.isSome) (stats : tx.state.tableStats[t]? = some tstat)
      (files : FlushedFiles t (tx.inheritedRowIds.getD t tstat.nextRowId) flushed tx tx') :
      Effect tx (.flushInlinedData t schemaVersion flushed) { tx' with
        inlineOps := tx'.inlineOps ++ [.flush t schemaVersion tx'.newSnapshotId]
        ops := tx'.ops ++ [.flushInlinedData t] }

theorem effect_of_run {tx tx' : Transaction} (call : Call) (h : call.run tx = .ok () tx') : Effect tx call tx' := by
  cases call with
  | createSchema name uuid =>
    simp [run, ignore, Transaction.createSchema] at h
    obtain ⟨_, _, hname, hfree, rfl⟩ := h
    obtain rfl := (checks_pathSafeName _ _).ok hname
    exact .createSchema rfl rfl (by simpa [← ExtTreeMap.contains_iff_mem] using hfree) rfl
  | dropSchema schema =>
    simp [run, Transaction.dropSchema] at h
    obtain ⟨hmain, hlive, h⟩ := h
    cases hempty : occupied tx.state schema with
    | some kind => simp [hempty] at h
    | none =>
      simp [hempty] at h
      subst h
      exact .dropSchema hmain (by simpa using hlive) hempty
  | createTable schema name columns uuid =>
    simp [run, ignore, Transaction.createTable, stageColumnTrees_eq] at h
    obtain ⟨schemaRec, hlive, _, _, hname, hfree, -, _, _, hvalid, rfl⟩ := h
    obtain rfl := (checks_pathSafeName _ _).ok hname
    have hdistinct := distinct_of_validateColumnDefs _ _ hvalid
    obtain rfl := (checks_validateColumnDefs _ _).ok hvalid
    exact .createTable hlive hfree hdistinct rfl rfl rfl rfl rfl
  | renameTable t newName =>
    simp [run, Transaction.renameTable] at h
    obtain ⟨_, _, hname, value, hlive, hfree, rfl⟩ := h
    obtain rfl := (checks_pathSafeName _ _).ok hname
    exact .renameTable hlive hfree
  | setTableSchema t schema =>
    simp [run, Transaction.setTableSchema] at h
    obtain ⟨hschema, value, hlive, hfree, rfl⟩ := h
    exact .setTableSchema hlive (by simpa using hschema) hfree
  | dropTable t =>
    simp [run, Transaction.dropTable] at h
    obtain ⟨hlive, rfl⟩ := h
    exact .dropTable (by simpa using Option.isSome_iff_exists.mpr hlive)
  | addColumn t column =>
    simp [run, ignore, Transaction.addColumn, stageColumnTree_eq] at h
    obtain ⟨_, _, hvalid, value, hlive, hfree, rfl⟩ := h
    have hdistinct := distinct_of_validateColumnDefs _ _ hvalid
    obtain rfl := (checks_validateColumnDefs _ _).ok hvalid
    exact .addColumn hlive hfree hdistinct rfl
  | renameColumn t c newName =>
    simp [run, Transaction.renameColumn] at h
    obtain ⟨-, value, hlive, hfree, rfl⟩ := h
    exact .renameColumn hlive hfree
  | alterColumn t c alteration =>
    simp [run, Transaction.alterColumn] at h
    obtain ⟨value, hlive, h⟩ := h
    cases htype : alteration.columnType with
    | none =>
      simp [htype] at h
      subst h
      simpa [htype] using (Effect.alterColumn hlive : Effect tx (.alterColumn t c alteration) _)
    | some newType =>
      simp [htype] at h
      obtain ⟨_, tx₁, hinlinable, -, h⟩ := h
      rw [(checks_ensureInlinable _ _).ok hinlinable] at h
      subst h
      simpa [htype] using (Effect.alterColumn hlive : Effect tx (.alterColumn t c alteration) _)
  | dropColumn t c =>
    simp [run, Transaction.dropColumn] at h
    obtain ⟨value, hlive, doomed, hdoomed, h⟩ := h
    cases hindexed : doomed.find? (columnIsIndexed tx.state t) with
    | some d => simp [hindexed] at h
    | none =>
      simp [hindexed] at h
      obtain ⟨-, rfl⟩ := h
      exact .dropColumn (by simp [hlive]) hdoomed (by simpa using hindexed)
  | setPartitioning t columns =>
    simp [run, ignore, Transaction.setPartitioning] at h
    obtain ⟨hlive, -, _, _, hcolumns, h⟩ := h
    have hcolumnsLive := live_of_partitionColumnsLive hcolumns
    rw [(checks_partitionColumnsLive _ _ _).ok hcolumns] at h
    have hlive := Option.isSome_iff_exists.mpr hlive
    have hnamed : (columns.zipIdx.map fun x =>
        ({ partitionKeyIndex := x.2, columnId := x.1.column, transform := x.1.transform } : PartitionColumn)).map
          PartitionColumn.columnId = columns.map PartitionColumnDef.column := by
      rw [List.map_map, ← List.zipIdx_map_fst 0 columns, List.map_map, List.zipIdx_map_fst]
      rfl
    cases hspec : livePartitionId tx.state t with
    | none =>
      simp [hspec] at h
      subst h
      simpa [withoutPartition, hspec] using Effect.setPartitioning hlive hcolumnsLive rfl rfl hnamed rfl
    | some partitionId =>
      simp [hspec] at h
      subst h
      simpa [withoutPartition, hspec] using Effect.setPartitioning hlive hcolumnsLive rfl rfl hnamed rfl
  | clearPartitioning t =>
    simp [run, Transaction.clearPartitioning] at h
    obtain ⟨hlive, partitionId, hspec, rfl⟩ := h
    simpa [withoutPartition, hspec] using Effect.clearPartitioning (Option.isSome_iff_exists.mpr hlive)
  | setSorting t keys =>
    simp [run, ignore, Transaction.setSorting] at h
    obtain ⟨hlive, -, h⟩ := h
    have hlive := Option.isSome_iff_exists.mpr hlive
    cases hspec : liveSortId tx.state t with
    | none =>
      simp [hspec] at h
      subst h
      simpa [withoutSort, hspec] using Effect.setSorting hlive rfl rfl rfl
    | some sortId =>
      simp [hspec] at h
      subst h
      simpa [withoutSort, hspec] using Effect.setSorting hlive rfl rfl rfl
  | clearSorting t =>
    simp [run, Transaction.clearSorting] at h
    obtain ⟨hlive, sortId, hspec, rfl⟩ := h
    simpa [withoutSort, hspec] using Effect.clearSorting (Option.isSome_iff_exists.mpr hlive)
  | createIndex t index backfill =>
    simp only [run, ignore, Transaction.createIndex, bind_eq_ok, markAltered_eq_ok, pure_eq_ok] at h
    obtain ⟨_, _, ⟨id, tx₁, hdefined, _, tx₂, hstaged, _, _, rfl, rfl, rfl⟩, -, rfl⟩ := h
    obtain ⟨hvalid, rfl, rfl⟩ := insertIndexDefinition_eq_ok.mp hdefined
    obtain ⟨es, hes, rfl⟩ := (stageIndexEntries_run _ _ _ _ _).ok hstaged
    exact .createIndex hvalid hes
  | createIndexOrderedWithMaintenance t index orders maintenance backfill =>
    simp only [run, ignore, Transaction.createIndexOrderedWithMaintenance, bind_eq_ok, markAltered_eq_ok,
      pure_eq_ok] at h
    obtain ⟨_, _, ⟨id, tx₁, hdefined, _, tx₂, hstaged, _, _, rfl, rfl, rfl⟩, -, rfl⟩ := h
    obtain ⟨hvalid, rfl, rfl⟩ := insertIndexDefinition_eq_ok.mp hdefined
    obtain ⟨es, hes, rfl⟩ := (stageIndexEntries_run _ _ _ _ _).ok hstaged
    exact .createIndexOrderedWithMaintenance hvalid hes
  | createIndexStagedOrderedWithMaintenance t index orders maintenance =>
    simp only [run, ignore, Transaction.createIndexStagedOrderedWithMaintenance, bind_eq_ok, markAltered_eq_ok,
      pure_eq_ok] at h
    obtain ⟨_, _, ⟨id, tx₁, hdefined, _, _, rfl, rfl, rfl⟩, -, rfl⟩ := h
    obtain ⟨hvalid, rfl, rfl⟩ := insertIndexDefinition_eq_ok.mp hdefined
    exact .createIndexStagedOrderedWithMaintenance hvalid
  | dropIndex i =>
    simp [run, Transaction.dropIndex] at h
    obtain ⟨t, ⟨value, hfound⟩, rfl⟩ := h
    exact .dropIndex hfound
  | buildIndexSourceStep i batch isFinal source =>
    simp [run, ignore, Transaction.buildIndexSourceStep, Transaction.buildIndexStepAt] at h
    obtain ⟨t, value, hfound, hbuilding, _, tx₁, hstaged, _, h⟩ := h
    obtain ⟨es, hes, rfl⟩ := (stageIndexEntries_run _ _ _ _ _).ok hstaged
    cases isFinal with
    | false =>
      simp at h
      obtain ⟨rfl, -⟩ := h
      exact .buildIndexSourceStep hfound hbuilding hes
    | true =>
      by_cases hrepair : value.buildState = some "maintaining"
      · simp [hrepair] at h
        obtain ⟨rfl, -⟩ := h
        simpa [buildOperation, hrepair] using
          (Effect.buildIndexSourceStep hfound hbuilding hes : Effect tx (.buildIndexSourceStep i batch true source) _)
      · simp [hrepair] at h
        obtain ⟨rfl, -⟩ := h
        simpa [buildOperation, hrepair] using
          (Effect.buildIndexSourceStep hfound hbuilding hes : Effect tx (.buildIndexSourceStep i batch true source) _)
  | registerDataFile t file entries =>
    simp [run, ignore, Transaction.registerDataFile, registerAllocated] at h
    obtain ⟨hlive, hcolumns, hsupplied, _, h⟩ := h
    cases hinside : entries.find? (fun e => decide (file.recordCount ≤ e.ordinal)) with
    | some entry => simp [hinside] at h
    | none =>
      simp [hinside, allocateRowIds, putFileColumnStats_eq] at h
      obtain ⟨partitionId, hpartition, tstat, hstats, _, tx₁, hstaged, rfl, -⟩ := h
      obtain ⟨es, hes, rfl⟩ := (stageFileIndexEntries_run _ _ _ _).ok hstaged
      rw [stagedFileEntry_putFileStats] at hes
      exact .registerDataFile ⟨Option.isSome_iff_exists.mpr hlive, hcolumns, or_assoc.mp hsupplied,
        by simpa using hinside, hpartition, hstats⟩ hes
  | expireDataFile t f =>
    simp [run, Transaction.expireDataFile] at h
    obtain ⟨file, hlive, tstat, hstats, rfl⟩ := h
    exact .expireDataFile hlive (tableStats_withoutDataFile tx.state t f ▸ hstats)
  | registerDeleteFile t file entries =>
    simp [run, ignore, Transaction.registerDeleteFile] at h
    obtain ⟨hlive, target, htarget, halone, hsupplied, hkilling, _, h⟩ := h
    have hlive := Option.isSome_iff_exists.mpr hlive
    cases hstart : target.rowIdStart with
    | none =>
      simp [hstart] at h
      obtain ⟨_, tx₁, hstaged, rfl, -⟩ := h
      obtain ⟨es, hes, rfl⟩ := (stageDeleteFileIndexEntries_run _ _ _).ok hstaged
      exact .registerDeleteFile ⟨hlive, htarget, halone, or_assoc.mp hsupplied, hkilling, by simp [hstart]⟩ hes
    | some start =>
      simp [hstart] at h
      obtain ⟨stop, hstop, h⟩ := h
      obtain ⟨hfits, rfl⟩ := checkedAdd_eq_some.mp hstop
      cases hinside : entries.find? (fun e => decide (e.rowId < start) ||
          decide (start + target.recordCount ≤ e.rowId)) with
      | some entry => simp [hinside] at h
      | none =>
        simp [hinside] at h
        obtain ⟨_, tx₁, hstaged, rfl, -⟩ := h
        obtain ⟨es, hes, rfl⟩ := (stageDeleteFileIndexEntries_run _ _ _).ok hstaged
        exact .registerDeleteFile ⟨hlive, htarget, halone, or_assoc.mp hsupplied, hkilling,
          by simpa [hstart, hfits] using hinside⟩ hes
  | expireDeleteFile t f =>
    simp [run, Transaction.expireDeleteFile] at h
    obtain ⟨hlive, rfl⟩ := h
    exact .expireDeleteFile hlive
  | updateTableStats t recordCount fileSizeBytes =>
    simp [run, Transaction.updateTableStats] at h
    obtain ⟨hlive, tstat, hstats, rfl⟩ := h
    exact .updateTableStats (Option.isSome_iff_exists.mpr hlive) hstats
  | updateColumnStats t c stats =>
    simp [run, Transaction.updateColumnStats] at h
    obtain ⟨hlive, rfl⟩ := h
    exact .updateColumnStats (Option.isSome_iff_exists.mpr hlive) rfl rfl
  | createView schema name dialect sql uuid =>
    simp [run, ignore, Transaction.createView] at h
    obtain ⟨_, _, hname, schemaRec, hlive, hfree, rfl⟩ := h
    obtain rfl := (checks_pathSafeName _ _).ok hname
    exact .createView hlive hfree rfl rfl rfl rfl
  | alterView view dialect sql =>
    simp [run, Transaction.alterView] at h
    obtain ⟨value, hlive, rfl⟩ := h
    exact .alterView hlive
  | dropView view =>
    simp [run, Transaction.dropView] at h
    obtain ⟨hlive, rfl⟩ := h
    exact .dropView (by simpa using hlive)
  | createMacro schema name implementations =>
    simp [run, ignore, Transaction.createMacro] at h
    obtain ⟨schemaRec, hlive, first, hfirst, -, hfree, rfl⟩ := h
    refine .createMacro hlive ?_ ?_ rfl rfl rfl rfl
    · cases implementations with
      | nil => simp at hfirst
      | cons impl rest =>
        simp at hfirst
        simp [hfirst, macroImplementation]
    · intro m hm hschema hname htype
      have := hfree m hm hschema hname
      cases himpl : m.implementations.head? with
      | none => simp [himpl] at htype
      | some impl => simp [himpl] at htype this; exact this htype
  | dropMacro m =>
    simp [run, Transaction.dropMacro] at h
    obtain ⟨value, hlive, rfl⟩ := h
    exact .dropMacro (by simp [hlive])
  | setOption scope key text =>
    simp [run, Transaction.setOption, reservedOption] at h
    obtain ⟨-, _, _, hscope, -, rfl⟩ := h
    obtain rfl := (checks_liveScope _).ok hscope
    exact .setOption
  | unsetOption scope key =>
    simp [run, Transaction.unsetOption, reservedOption] at h
    obtain ⟨_, _, hscope, -, h⟩ := h
    rw [(checks_liveScope _).ok hscope] at h
    cases hold : tx.state.options[scope.keyComponents]? with
    | none =>
      simp [hold] at h
      exact h ▸ .unsetOption
    | some old =>
      by_cases hkey : key ∈ old.options
      · simp [hold, hkey] at h
        split at h
        · simp at h
          exact h ▸ .unsetOption
        · simp at h
          exact h ▸ .unsetOption
      · simp [hold, hkey] at h
        exact h ▸ .unsetOption
  | setTag target key text =>
    simp only [run, Transaction.setTag, bind_eq_ok, nonemptyName_eq_ok, markTagged_eq_ok, get_eq_ok, mutate_eq_ok] at h
    obtain ⟨_, tx₀, ⟨-, htx⟩, _, _, ⟨hlive, rfl⟩, ended, tx₁, hended, h⟩ := h
    rw [htx] at hlive hended
    obtain ⟨v, hv, rfl⟩ : ∃ v, Retagged tx.state target.objectId v ∧
        tx₁ = { tx with ops := tx.ops ++ [tagOperation target], state := v } := by
      rcases endLiveTag_run target.objectId key { tx with ops := tx.ops ++ [tagOperation target] } with
        ⟨-, hrun⟩ | ⟨-, v, hv, hrun⟩
      · rw [hrun] at hended
        obtain ⟨-, rfl⟩ := EStateM.Result.ok.inj hended
        exact ⟨tx.state, .refl _ _, rfl⟩
      · rw [hrun] at hended
        obtain ⟨-, rfl⟩ := EStateM.Result.ok.inj hended
        exact ⟨v, hv, rfl⟩
    obtain ⟨_, _, ⟨rfl, rfl⟩, _, _, ⟨rfl, rfl⟩, rfl⟩ := h
    refine .setTag hlive (hv.insert _ fun hown => ?_)
    cases hcontainer : v.tags[target.objectId]? with
    | none => rfl
    | some container => exact hown container hcontainer
  | removeTag target key =>
    simp only [run, Transaction.removeTag, bind_eq_ok, markTagged_eq_ok, require_eq_ok] at h
    obtain ⟨_, _, ⟨hlive, rfl⟩, ended, tx₁, hended, rfl, rfl⟩ := h
    rcases endLiveTag_run target.objectId key { tx with ops := tx.ops ++ [tagOperation target] } with
      ⟨-, hrun⟩ | ⟨-, v, hv, hrun⟩
    · rw [hrun] at hended
      cases hended
    · rw [hrun] at hended
      obtain ⟨-, rfl⟩ := EStateM.Result.ok.inj hended
      exact .removeTag hlive hv
  | inlineInsert t chunk entries =>
    simp [run, ignore, Transaction.inlineInsert] at h
    obtain ⟨hlive, hrows, hsupplied, _, h⟩ := h
    cases hinside : entries.find? (fun e => decide (chunk.rowCount ≤ e.ordinal)) with
    | some entry => simp [hinside] at h
    | none =>
      simp [hinside, allocateRowIds, allocateChunkSeq, stageInline] at h
      obtain ⟨tstat, hstats, _, tx₁, hstaged, rfl, -⟩ := h
      obtain ⟨es, hes, rfl⟩ := (stageFileIndexEntries_run _ _ _ _).ok hstaged
      exact .inlineInsert ⟨Option.isSome_iff_exists.mpr hlive, hrows, hsupplied, by simpa using hinside, hstats⟩ hes
  | inlineDelete t rowId entries =>
    simp [run, Transaction.inlineDelete] at h
    obtain ⟨hlive, hsupplied, h⟩ := h
    cases hnames : entries.find? (fun e => !decide (e.rowId = rowId)) with
    | some entry => simp [hnames] at h
    | none =>
      simp [hnames, stageInline] at h
      obtain ⟨_, tx₁, hstaged, rfl⟩ := h
      obtain ⟨es, hes, rfl⟩ := (stageDeleteFileIndexEntries_run _ _ _).ok hstaged
      exact .inlineDelete ⟨Option.isSome_iff_exists.mpr hlive, hsupplied, by simpa using hnames⟩ hes
  | flushInlinedData t schemaVersion flushed =>
    simp [run, ignore, Transaction.flushInlinedData, inheritedRowIdsOf, stageInline] at h
    obtain ⟨hlive, tstat, hstats, _, tx₁, hfiles, rfl⟩ := h
    exact .flushInlinedData (Option.isSome_iff_exists.mpr hlive) hstats (registerFlushedFiles_ok hfiles)

/-! ## Failures -/

theorem fails_ignore {α : Type} {c : Verb α} (h : Fails Idle c) : Fails Idle (ignore c) :=
  h.bind_total fun _ => .pure _

/-- The calls that make all their checks before they change anything. -/
def checksFirst : Call → Bool
  | .createIndex .. | .createIndexOrderedWithMaintenance .. | .buildIndexSourceStep .. | .registerDataFile ..
  | .expireDataFile .. | .registerDeleteFile .. | .inlineInsert .. | .inlineDelete .. | .flushInlinedData ..
  | .removeTag .. => false
  | _ => true

theorem fails_of_checksFirst {call : Call} (h : call.checksFirst) : Fails Idle call.run := by
  cases call with
  | createIndex | createIndexOrderedWithMaintenance | buildIndexSourceStep | registerDataFile | expireDataFile
  | registerDeleteFile | inlineInsert | inlineDelete | flushInlinedData | removeTag => cases h
  | createSchema name uuid =>
    exact fails_ignore <| fails_after (checks_pathSafeName _ _) fun _ => fails_after .get fun _ =>
      fails_check (checks_require _ _) fun _ => .bind total_allocCatalogId fun _ => .bind .get fun _ =>
        .bind (total_putRecord _) fun _ => .bind (total_record _) fun _ => .pure _
  | dropSchema schema =>
    refine fails_after (checks_require _ _) fun _ => fails_after .get fun _ =>
      fails_after (checks_require _ _) fun _ => fails_after .get fun _ => ?_
    split
    · exact fails_after (.throw _) fun _ => .of_total (.bind (total_mutate _) fun _ => total_record _)
    · exact .of_total (.bind (total_mutate _) fun _ => total_record _)
  | createTable schema name columns uuid =>
    exact fails_ignore <| fails_after .get fun _ => fails_after (checks_orError _ _) fun _ =>
      fails_after (checks_pathSafeName _ _) fun _ => fails_after (checks_relationNameFree _ _) fun _ =>
        fails_after (checks_require _ _) fun _ => fails_check (checks_validateColumnDefs _ _) fun _ =>
          .bind total_allocCatalogId fun _ => .bind .get fun _ => .bind (total_putRecord _) fun _ =>
            .bind (total_stageColumnTrees _ _ _ _ _) fun _ => .bind (total_putRecord _) fun _ =>
              .bind (total_record _) fun _ => .pure _
  | renameTable t newName =>
    exact fails_after (checks_pathSafeName _ _) fun _ => fails_after (checks_liveTable _) fun _ =>
      fails_check (checks_relationNameFree _ _) fun _ => .bind .get fun _ => .bind (total_putRecord _) fun _ =>
        total_markAltered _
  | setTableSchema t schema =>
    exact fails_after .get fun _ => fails_after (checks_require _ _) fun _ => fails_after (checks_liveTable _) fun _ =>
      fails_check (checks_relationNameFree _ _) fun _ => .bind .get fun _ => .bind (total_putRecord _) fun _ =>
        total_markAltered _
  | dropTable t =>
    exact fails_check (checks_liveTable _) fun _ => .bind (total_mutate _) fun _ => total_record _
  | addColumn t column =>
    exact fails_ignore <| fails_after (checks_validateColumnDefs _ _) fun _ => fails_after (checks_liveTable _) fun _ =>
      fails_check (checks_siblingNameFree _ _ _) fun _ => .bind .get fun _ => .bind .get fun _ =>
        .bind (total_stageColumnTree _ _ _ _ _) fun _ => .bind .get fun _ => .bind (total_putRecord _) fun _ =>
          .bind (total_markAltered _) fun _ => .pure _
  | renameColumn t c newName =>
    exact fails_after (checks_nonemptyName _ _) fun _ => fails_after (checks_liveColumn _ _) fun _ =>
      fails_check (checks_siblingNameFree _ _ _) fun _ => .bind .get fun _ => .bind (total_putRecord _) fun _ =>
        total_markAltered _
  | alterColumn t c alteration =>
    refine fails_after (checks_liveColumn _ _) fun _ => ?_
    split
    case' h_1 => refine fails_after (checks_ensureInlinable _ _) fun _ => ?_
    all_goals
      exact fails_after .get fun _ => fails_check (checks_require _ _) fun _ => .bind .get fun _ =>
        .bind (total_putRecord _) fun _ => total_markAltered _
  | dropColumn t c =>
    refine fails_after (checks_liveColumn _ _) fun _ => fails_after .get fun _ =>
      fails_after (checks_orError _ _) fun _ => fails_after .get fun _ => ?_
    split
    case' h_1 => refine fails_after (.throw _) fun _ => ?_
    all_goals
      exact fails_after .get fun _ => fails_check (checks_require _ _) fun _ => .bind (total_mutate _) fun _ =>
        total_markAltered _
  | setPartitioning t columns =>
    refine fails_ignore <| fails_after (checks_liveTable _) fun _ => fails_after (checks_require _ _) fun _ =>
      fails_after (checks_partitionColumnsLive _ _ _) fun _ => fails_after .get fun _ => .of_total ?_
    split
    case' h_1 => refine .bind (total_mutate _) fun _ => ?_
    all_goals
      exact .bind total_allocCatalogId fun _ => .bind .get fun _ => .bind (total_putRecord _) fun _ =>
        .bind (total_markAltered _) fun _ => .pure _
  | clearPartitioning t =>
    exact fails_after (checks_liveTable _) fun _ => fails_after .get fun _ => fails_check (checks_orError _ _) fun _ =>
      .bind (total_mutate _) fun _ => total_markAltered _
  | setSorting t keys =>
    refine fails_ignore <| fails_after (checks_liveTable _) fun _ => fails_after (checks_require _ _) fun _ =>
      fails_after .get fun _ => .of_total ?_
    split
    case' h_1 => refine .bind (total_mutate _) fun _ => ?_
    all_goals
      exact .bind total_allocCatalogId fun _ => .bind .get fun _ => .bind (total_putRecord _) fun _ =>
        .bind (total_record _) fun _ => .pure _
  | clearSorting t =>
    exact fails_after (checks_liveTable _) fun _ => fails_after .get fun _ => fails_check (checks_orError _ _) fun _ =>
      .bind (total_mutate _) fun _ => total_record _
  | createIndexStagedOrderedWithMaintenance t index orders maintenance =>
    exact fails_ignore <| (fails_insertIndexDefinition _ _ _ _ _).bind_total fun _ =>
      .bind (total_markAltered _) fun _ => .pure _
  | dropIndex i =>
    exact fails_check (checks_liveIndex _) fun _ => .bind (total_mutate _) fun _ => total_markAltered _
  | expireDeleteFile t f =>
    exact fails_after .get fun _ => fails_check (checks_require _ _) fun _ => .bind (total_mutate _) fun _ =>
      total_record _
  | updateTableStats t recordCount fileSizeBytes =>
    exact fails_after (checks_liveTable _) fun _ => fails_check (checks_liveTableStats _) fun _ =>
      .bind (total_putRecord _) fun _ => total_record _
  | updateColumnStats t c stats =>
    exact fails_check (checks_liveColumn _ _) fun _ => .bind (total_putRecord _) fun _ => total_record _
  | createView schema name dialect sql uuid =>
    exact fails_ignore <| fails_after (checks_pathSafeName _ _) fun _ => fails_after .get fun _ =>
      fails_after (checks_orError _ _) fun _ => fails_check (checks_relationNameFree _ _) fun _ =>
        .bind total_allocCatalogId fun _ => .bind .get fun _ => .bind (total_putRecord _) fun _ =>
          .bind (total_record _) fun _ => .pure _
  | alterView view dialect sql =>
    exact fails_after .get fun _ => fails_check (checks_orError _ _) fun _ => .bind .get fun _ =>
      .bind (total_putRecord _) fun _ => total_record _
  | dropView view =>
    exact fails_after .get fun _ => fails_check (checks_require _ _) fun _ => .bind (total_mutate _) fun _ =>
      total_record _
  | createMacro schema name implementations =>
    exact fails_ignore <| fails_after .get fun _ => fails_after (checks_orError _ _) fun _ =>
      fails_after (checks_orError _ _) fun _ => fails_after (checks_require _ _) fun _ => fails_after .get fun _ =>
        fails_check (checks_require _ _) fun _ => .bind total_allocCatalogId fun _ => .bind .get fun _ =>
          .bind (total_putRecord _) fun _ => .bind (total_record _) fun _ => .pure _
  | dropMacro m =>
    exact fails_after .get fun _ => fails_check (checks_orError _ _) fun _ => .bind (total_mutate _) fun _ =>
      total_record _
  | setOption scope key text =>
    exact fails_after (checks_nonemptyName _ _) fun _ => fails_after (checks_liveScope _) fun _ =>
      fails_check (checks_require _ _) fun _ => .bind .get fun _ => total_mutate _
  | unsetOption scope key =>
    refine fails_after (checks_liveScope _) fun _ => fails_after (checks_require _ _) fun _ =>
      fails_after .get fun _ => .of_total ?_
    split
    · exact .pure _
    · split
      · dsimp only
        split
        · exact total_mutate _
        · exact total_mutate _
      · exact .pure _
  | setTag target key text =>
    exact fails_after (checks_nonemptyName _ _) fun _ => (fails_markTagged _).bind_total fun _ =>
      .bind (total_endLiveTag _ _) fun _ => .bind .get fun _ => .bind .get fun _ => total_mutate _

/-- What a call that fails after it has changed the transaction leaves. -/
inductive Partial (tx : Transaction) : Call → Transaction → Prop
  | createIndex {t : Nat} {index : IndexDef} {backfill : List IndexEntry} {es : List StagedIndexEntry}
      (defined : IndexDefinable tx.state t index .synchronous [])
      (stopped : Stopped (encodedEntry tx.nextCatalogId ⟨index.unique, index.columns.length, [], false⟩ false)
        backfill es) :
      Partial tx (.createIndex t index backfill) { definedIndex tx t index .synchronous none [] with
        indexEntries := tx.indexEntries ++ es }
  | createIndexOrderedWithMaintenance {t : Nat} {index : IndexDef} {orders : List ColumnOrder}
      {maintenance : IndexMaintenance} {backfill : List IndexEntry} {es : List StagedIndexEntry}
      (defined : IndexDefinable tx.state t index maintenance orders)
      (stopped : Stopped (encodedEntry tx.nextCatalogId ⟨index.unique, index.columns.length, orders, false⟩ false)
        backfill es) :
      Partial tx (.createIndexOrderedWithMaintenance t index orders maintenance backfill)
        { definedIndex tx t index maintenance none orders with indexEntries := tx.indexEntries ++ es }
  | buildIndexSourceStep {i t : Nat} {batch : List IndexEntry} {isFinal : Bool} {source : Option (Nat × Nat)}
      {value : IndexValue} {es : List StagedIndexEntry} (found : findIndex tx.state i = some (t, value))
      (building : value.buildState = some "building" ∨ value.buildState = some "maintaining")
      (stopped : Stopped (encodedEntry i { shapeOf value with building := true } false) batch es) (some : es ≠ []) :
      Partial tx (.buildIndexSourceStep i batch isFinal source) { tx with indexEntries := tx.indexEntries ++ es }
  | registerDataFile {t : Nat} {file : DataFile} {entries : List FileIndexEntry} {tstat : TableStatsValue}
      {partitionId : Option Nat} {es : List StagedIndexEntry}
      (fits : FileFits tx.state t file entries tstat partitionId)
      (stopped : Stopped (stagedFileEntry t tstat.nextRowId tx.state) entries es) :
      Partial tx (.registerDataFile t file entries) { registeredFile tx t file tstat partitionId with
        indexEntries := tx.indexEntries ++ es }
  | expireDataFile {t f : Nat} (live : (getNested tx.state.dataFiles t f).isSome)
      (stats : tx.state.tableStats[t]? = none) :
      Partial tx (.expireDataFile t f) { tx with state := withoutDataFile tx.state t f }
  | registerDeleteFile {t : Nat} {file : DeleteFile} {entries : List FileIndexRemoval} {target : DataFileValue}
      {es : List StagedIndexEntry} (fits : DeleteFileFits tx.state t file entries target)
      (stopped : Stopped (stagedRemoval t tx.state) entries es) :
      Partial tx (.registerDeleteFile t file entries) { registeredDeleteFile tx t file with
        indexEntries := tx.indexEntries ++ es }
  | removeTag {target : TagTarget} {key : String} (live : TargetLive tx.state target)
      (absent : ¬ Tagged tx.state target.objectId key) :
      Partial tx (.removeTag target key) { tx with ops := tx.ops ++ [tagOperation target] }
  | inlineInsert {t : Nat} {chunk : InlineChunk} {entries : List FileIndexEntry} {tstat : TableStatsValue}
      {es : List StagedIndexEntry} (fits : ChunkFits tx.state t chunk entries tstat)
      (stopped : Stopped (stagedFileEntry t tstat.nextRowId tx.state) entries es) :
      Partial tx (.inlineInsert t chunk entries) { insertedChunk tx t chunk tstat with
        indexEntries := tx.indexEntries ++ es }
  | inlineDelete {t rowId : Nat} {entries : List FileIndexRemoval} {es : List StagedIndexEntry}
      (fits : RemovalFits tx.state t rowId entries) (stopped : Stopped (stagedRemoval t tx.state) entries es) :
      Partial tx (.inlineDelete t rowId entries) { tx with
        indexEntries := tx.indexEntries ++ es
        inlineOps := tx.inlineOps ++ [.tombstone t rowId tx.newSnapshotId] }
  | flushInlinedData {t schemaVersion : Nat} {before after : List FlushedDataFile} {bad : FlushedDataFile}
      {tstat : TableStatsValue} {tx₁ tx' : Transaction} (live : tx.state.tables[t]?.isSome)
      (stats : tx.state.tableStats[t]? = some tstat) (some : before ≠ [])
      (files : FlushedFiles t (tx.inheritedRowIds.getD t tstat.nextRowId) before tx tx₁)
      (refused : ¬ Flushable tx.state tx.newSnapshotId t (tx.inheritedRowIds.getD t tstat.nextRowId) bad)
      (idle : Idle tx₁ tx') :
      Partial tx (.flushInlinedData t schemaVersion (before ++ bad :: after)) tx'

section Failing

variable {tx tx' : Transaction} {α β : Type} {c : Verb α} {f : α → Verb β} {e : Error}

/-- A failure at a check is idle; after it the check has passed. -/
theorem idle_or_passed (hc : Checks c) (h : (c >>= f) tx = .error e tx') :
    Idle tx tx' ∨ ∃ a, c tx = .ok a tx ∧ f a tx = .error e tx' := by
  rcases bind_eq_error.mp h with hfail | ⟨a, tx₁, hrun, hrest⟩
  · exact .inl (hc.error hfail ▸ .refl tx)
  · obtain rfl := hc.ok hrun
    exact .inr ⟨a, hrun, hrest⟩

theorem idle_of_throw {e' : Error} (h : ((throw e' : Verb α) >>= f) tx = .error e tx') : Idle tx tx' := by
  rcases idle_or_passed (.throw _) h with h | ⟨a, hrun, -⟩
  · exact h
  · exact absurd hrun throw_ne_ok

/-- What has returned did not fail. -/
theorem error_after {a : α} {tx₁ : Transaction} (h : (c >>= f) tx = .error e tx') (hrun : c tx = .ok a tx₁) :
    f a tx₁ = .error e tx' := by
  rcases bind_eq_error.mp h with hfail | ⟨a', tx₂, hrun', hrest⟩
  · rw [hrun] at hfail
    cases hfail
  · rw [hrun] at hrun'
    obtain ⟨rfl, rfl⟩ := EStateM.Result.ok.inj hrun'
    exact hrest

theorem error_of_ignore (h : ignore c tx = .error e tx') : c tx = .error e tx' := by
  simpa [ignore] using h

end Failing

/-! ## Failures after the checks -/

section Partway

variable {tx tx' : Transaction} {e : Error} {t : Nat}

theorem partial_createIndex {index : IndexDef} {backfill : List IndexEntry}
    (hvalid : IndexDefinable tx.state t index .synchronous [])
    (h : (createIndex t index backfill).run tx = .error e tx') : Partial tx (.createIndex t index backfill) tx' := by
  replace h := error_after (error_of_ignore h) (insertIndexDefinition_eq_ok.mpr ⟨hvalid, rfl, rfl⟩)
  obtain ⟨es, hstopped, rfl⟩ := (stageIndexEntries_run _ _ _ _ _).error_bind h
    (.bind (total_markAltered _) fun _ => .pure _)
  exact .createIndex hvalid hstopped

theorem partial_createIndexOrderedWithMaintenance {index : IndexDef} {orders : List ColumnOrder}
    {maintenance : IndexMaintenance} {backfill : List IndexEntry}
    (hvalid : IndexDefinable tx.state t index maintenance orders)
    (h : (createIndexOrderedWithMaintenance t index orders maintenance backfill).run tx = .error e tx') :
    Partial tx (.createIndexOrderedWithMaintenance t index orders maintenance backfill) tx' := by
  replace h := error_after (error_of_ignore h) (insertIndexDefinition_eq_ok.mpr ⟨hvalid, rfl, rfl⟩)
  obtain ⟨es, hstopped, rfl⟩ := (stageIndexEntries_run _ _ _ _ _).error_bind h
    (.bind (total_markAltered _) fun _ => .pure _)
  exact .createIndexOrderedWithMaintenance hvalid hstopped

theorem stopped_buildIndexSourceStep {i : Nat} {batch : List IndexEntry} {isFinal : Bool} {source : Option (Nat × Nat)}
    {value : IndexValue} (hfound : findIndex tx.state i = some (t, value))
    (hbuilding : value.buildState = some "building" ∨ value.buildState = some "maintaining")
    (h : (buildIndexSourceStep i batch isFinal source).run tx = .error e tx') :
    ∃ es, Stopped (encodedEntry i { shapeOf value with building := true } false) batch es ∧
      tx' = { tx with indexEntries := tx.indexEntries ++ es } := by
  replace h := error_after (error_of_ignore h) (liveIndex_eq_ok.mpr ⟨hfound, rfl⟩)
  replace h := error_after (a := ()) h (require_eq_ok.mpr ⟨by simpa using hbuilding, rfl⟩)
  refine (stageIndexEntries_run _ _ _ _ _).error_bind h (.bind .get fun _ => .bind (total_putRecord _) fun _ => ?_)
  split
  · split
    · exact .bind (total_record _) fun _ => .pure _
    · exact .bind (total_markAltered _) fun _ => .pure _
  · exact .bind (total_record _) fun _ => .pure _

theorem partial_registerDataFile {file : DataFile} {entries : List FileIndexEntry} {tstat : TableStatsValue}
    {partitionId : Option Nat} (hfits : FileFits tx.state t file entries tstat partitionId)
    (h : (registerDataFile t file entries).run tx = .error e tx') :
    Partial tx (.registerDataFile t file entries) tx' := by
  obtain ⟨value, hlive⟩ := Option.isSome_iff_exists.mp hfits.live
  have hinside : entries.find? (fun e => decide (e.ordinal ≥ file.recordCount)) = none := by
    simpa using hfits.inside
  replace h := error_after (error_of_ignore h) (liveTable_eq_ok.mpr ⟨hlive, rfl⟩)
  replace h := error_after (a := ()) h (statsColumnsLive_eq_ok.mpr ⟨hfits.columns, rfl⟩)
  replace h := error_after h (get_eq_ok.mpr ⟨rfl, rfl⟩)
  replace h := error_after (a := ()) h (require_eq_ok.mpr ⟨by simpa [or_assoc] using hfits.supplied, rfl⟩)
  simp only [hinside] at h
  replace h := error_after h (resolveFilePartition_eq_ok.mpr ⟨hfits.partition, rfl⟩)
  replace h := error_after h (allocFileId_eq_ok.mpr ⟨rfl, rfl⟩)
  replace h := error_after h (liveTableStats_eq_ok.mpr ⟨hfits.stats, rfl⟩)
  simp [putFileColumnStats_eq] at h
  obtain ⟨es, hstopped, rfl⟩ := (stageFileIndexEntries_run _ _ _ _).error h
  rw [stagedFileEntry_putFileStats] at hstopped
  exact .registerDataFile hfits hstopped

theorem partial_registerDeleteFile {file : DeleteFile} {entries : List FileIndexRemoval} {target : DataFileValue}
    (hfits : DeleteFileFits tx.state t file entries target)
    (h : (registerDeleteFile t file entries).run tx = .error e tx') :
    Partial tx (.registerDeleteFile t file entries) tx' := by
  obtain ⟨value, hlive⟩ := Option.isSome_iff_exists.mp hfits.live
  replace h := error_after (error_of_ignore h) (liveTable_eq_ok.mpr ⟨hlive, rfl⟩)
  replace h := error_after h (get_eq_ok.mpr ⟨rfl, rfl⟩)
  replace h := error_after h (orError_eq_ok.mpr ⟨hfits.targetLive, rfl⟩)
  replace h := error_after h (get_eq_ok.mpr ⟨rfl, rfl⟩)
  replace h := error_after (a := ()) h (require_eq_ok.mpr ⟨by simpa using hfits.alone, rfl⟩)
  replace h := error_after h (get_eq_ok.mpr ⟨rfl, rfl⟩)
  replace h := error_after (a := ()) h (require_eq_ok.mpr ⟨by simpa [or_assoc] using hfits.supplied, rfl⟩)
  replace h := error_after (a := ()) h (require_eq_ok.mpr ⟨by simpa using hfits.killing, rfl⟩)
  cases hstart : target.rowIdStart with
  | none =>
    simp [hstart] at h
    obtain ⟨es, hstopped, rfl⟩ := (stageDeleteFileIndexEntries_run _ _ _).error h
    exact .registerDeleteFile hfits hstopped
  | some start =>
    obtain ⟨hsum, hinside⟩ := hfits.inside start hstart
    have hinside : entries.find? (fun e => decide (e.rowId < start) ||
        decide (e.rowId ≥ start + target.recordCount)) = none := by simpa using hinside
    simp only [hstart] at h
    replace h := error_after h (orError_eq_ok.mpr ⟨checkedAdd_eq_some.mpr ⟨hsum, rfl⟩, rfl⟩)
    simp [hinside] at h
    obtain ⟨es, hstopped, rfl⟩ := (stageDeleteFileIndexEntries_run _ _ _).error h
    exact .registerDeleteFile hfits hstopped

theorem partial_inlineInsert {chunk : InlineChunk} {entries : List FileIndexEntry} {tstat : TableStatsValue}
    (hfits : ChunkFits tx.state t chunk entries tstat) (h : (inlineInsert t chunk entries).run tx = .error e tx') :
    Partial tx (.inlineInsert t chunk entries) tx' := by
  obtain ⟨value, hlive⟩ := Option.isSome_iff_exists.mp hfits.live
  have hinside : entries.find? (fun e => decide (e.ordinal ≥ chunk.rowCount)) = none := by simpa using hfits.inside
  replace h := error_after (error_of_ignore h) (liveTable_eq_ok.mpr ⟨hlive, rfl⟩)
  replace h := error_after (a := ()) h (require_eq_ok.mpr ⟨by simpa using hfits.rows, rfl⟩)
  replace h := error_after h (get_eq_ok.mpr ⟨rfl, rfl⟩)
  replace h := error_after (a := ()) h (require_eq_ok.mpr ⟨by simpa using hfits.supplied, rfl⟩)
  simp only [hinside] at h
  replace h := error_after h (liveTableStats_eq_ok.mpr ⟨hfits.stats, rfl⟩)
  simp at h
  obtain ⟨es, hstopped, rfl⟩ := (stageFileIndexEntries_run _ _ _ _).error h
  exact .inlineInsert hfits hstopped

theorem partial_inlineDelete {rowId : Nat} {entries : List FileIndexRemoval}
    (hfits : RemovalFits tx.state t rowId entries)
    (h : (inlineDelete t rowId entries).run tx = .error e tx') : Partial tx (.inlineDelete t rowId entries) tx' := by
  obtain ⟨value, hlive⟩ := Option.isSome_iff_exists.mp hfits.live
  have hnames : entries.find? (fun e => decide (e.rowId ≠ rowId)) = none := by simpa using hfits.names
  replace h := error_after h (liveTable_eq_ok.mpr ⟨hlive, rfl⟩)
  replace h := error_after h (get_eq_ok.mpr ⟨rfl, rfl⟩)
  replace h := error_after (a := ()) h (require_eq_ok.mpr ⟨by simpa using hfits.supplied, rfl⟩)
  simp only [hnames] at h
  simp at h
  obtain ⟨es, hstopped, rfl⟩ := (stageDeleteFileIndexEntries_run _ _ _).error h
  exact .inlineDelete hfits hstopped

theorem stopped_flushInlinedData {schemaVersion : Nat} {flushed : List FlushedDataFile} {tstat : TableStatsValue}
    (hlive : tx.state.tables[t]?.isSome) (hstats : tx.state.tableStats[t]? = some tstat)
    (h : (flushInlinedData t schemaVersion flushed).run tx = .error e tx') :
    ∃ before bad after tx₁, flushed = before ++ bad :: after ∧
      FlushedFiles t (tx.inheritedRowIds.getD t tstat.nextRowId) before tx tx₁ ∧
      ¬ Flushable tx.state tx.newSnapshotId t (tx.inheritedRowIds.getD t tstat.nextRowId) bad ∧ Idle tx₁ tx' := by
  obtain ⟨value, hlive⟩ := Option.isSome_iff_exists.mp hlive
  replace h := error_after (error_of_ignore h) (liveTable_eq_ok.mpr ⟨hlive, rfl⟩)
  replace h := error_after h (liveTableStats_eq_ok.mpr ⟨hstats, rfl⟩)
  replace h := error_after h (show inheritedRowIdsOf t tstat tx = .ok _ tx from rfl)
  rcases bind_eq_error.mp h with h | ⟨_, _, -, h⟩
  · exact registerFlushedFiles_error h
  · exact absurd h (Total.bind .get (fun _ => .bind (total_stageInline _) fun _ => .bind (total_record _) fun _ =>
      .pure _) _ _ _)

theorem partial_expireDataFile {f : Nat} (hlive : (getNested tx.state.dataFiles t f).isSome)
    (hstats : tx.state.tableStats[t]? = none) (h : (expireDataFile t f).run tx = .error e tx') :
    Partial tx (.expireDataFile t f) tx' := by
  obtain ⟨file, hfile⟩ := Option.isSome_iff_exists.mp hlive
  replace h := error_after h (get_eq_ok.mpr ⟨rfl, rfl⟩)
  replace h := error_after h (orError_eq_ok.mpr ⟨hfile, rfl⟩)
  simp [liveTableStats] at h
  obtain ⟨-, -, rfl⟩ := h
  exact .expireDataFile hlive hstats

theorem partial_removeTag {target : TagTarget} {key : String} (hlive : TargetLive tx.state target)
    (h : (removeTag target key).run tx = .error e tx') : Partial tx (.removeTag target key) tx' := by
  replace h := error_after (a := ()) h (markTagged_eq_ok.mpr ⟨hlive, rfl⟩)
  rcases endLiveTag_run target.objectId key { tx with ops := tx.ops ++ [tagOperation target] } with
    ⟨habsent, hrun⟩ | ⟨-, v, hv, hrun⟩
  · simp [hrun] at h
    exact h.2 ▸ .removeTag hlive habsent
  · simp [hrun] at h

end Partway

/-- A call that fails has changed nothing but the counter of file ids, or it failed partway. -/
theorem idle_or_stopped {tx tx' : Transaction} {e : Error} (call : Call) (h : call.run tx = .error e tx') :
    Idle tx tx' ∨ Partial tx call tx' := by
  cases hchecks : call.checksFirst with
  | true => exact .inl (fails_of_checksFirst hchecks _ _ _ h)
  | false =>
    cases call with
    | createIndex t index backfill =>
      rcases bind_eq_error.mp (error_of_ignore h) with hfail | ⟨id, tx₁, hdefined, -⟩
      · exact .inl (fails_insertIndexDefinition _ _ _ _ _ _ _ _ hfail)
      · exact .inr (partial_createIndex (insertIndexDefinition_eq_ok.mp hdefined).1 h)
    | createIndexOrderedWithMaintenance t index orders maintenance backfill =>
      rcases bind_eq_error.mp (error_of_ignore h) with hfail | ⟨id, tx₁, hdefined, -⟩
      · exact .inl (fails_insertIndexDefinition _ _ _ _ _ _ _ _ hfail)
      · exact .inr (partial_createIndexOrderedWithMaintenance (insertIndexDefinition_eq_ok.mp hdefined).1 h)
    | buildIndexSourceStep i batch isFinal source =>
      obtain hidle | ⟨⟨t, value⟩, hfound, hrest⟩ := idle_or_passed (checks_liveIndex _) (error_of_ignore h)
      · exact .inl hidle
      obtain hidle | ⟨_, hbuilding, -⟩ := idle_or_passed (checks_require _ _) hrest
      · exact .inl hidle
      have hfound := (liveIndex_eq_ok.mp hfound).1
      replace hbuilding : value.buildState = some "building" ∨ value.buildState = some "maintaining" := by
        simpa using hbuilding
      obtain ⟨es, hstopped, rfl⟩ := stopped_buildIndexSourceStep hfound hbuilding h
      by_cases hes : es = []
      · rw [hes, List.append_nil]
        exact .inl (.refl tx)
      · exact .inr (.buildIndexSourceStep hfound hbuilding hstopped hes)
    | registerDataFile t file entries =>
      obtain hidle | ⟨value, hlive, hrest⟩ := idle_or_passed (checks_liveTable _) (error_of_ignore h)
      · exact .inl hidle
      obtain hidle | ⟨_, hcolumns, hrest⟩ := idle_or_passed (checks_statsColumnsLive _ _) hrest
      · exact .inl hidle
      replace hrest := error_after hrest (get_eq_ok.mpr ⟨rfl, rfl⟩)
      obtain hidle | ⟨_, hsupplied, hrest⟩ := idle_or_passed (checks_require _ _) hrest
      · exact .inl hidle
      cases hinside : entries.find? (fun e => decide (e.ordinal ≥ file.recordCount)) with
      | some entry =>
        simp only [hinside] at hrest
        exact .inl (idle_of_throw hrest)
      | none =>
        simp only [hinside] at hrest
        obtain hidle | ⟨partitionId, hpartition, hrest⟩ := idle_or_passed (checks_resolveFilePartition _ _) hrest
        · exact .inl hidle
        replace hrest := error_after hrest (allocFileId_eq_ok.mpr ⟨rfl, rfl⟩)
        obtain hidle | ⟨tstat, hstats, -⟩ := idle_or_passed (checks_liveTableStats _) hrest
        · exact .inl (.trans ⟨_, Nat.le_succ _, rfl⟩ hidle)
        exact .inr (partial_registerDataFile ⟨by simp [(liveTable_eq_ok.mp hlive).1],
          (statsColumnsLive_eq_ok.mp hcolumns).1, by simpa [or_assoc] using hsupplied, by simpa using hinside,
          (resolveFilePartition_eq_ok.mp hpartition).1, (liveTableStats_eq_ok.mp hstats).1⟩ h)
    | expireDataFile t f =>
      have hrest := error_after h (get_eq_ok.mpr ⟨rfl, rfl⟩)
      obtain hidle | ⟨file, hlive, hrest⟩ := idle_or_passed (checks_orError _ _) hrest
      · exact .inl hidle
      simp [liveTableStats] at hrest
      exact .inr (partial_expireDataFile (by simp [(orError_eq_ok.mp hlive).1])
        (by rw [← tableStats_withoutDataFile tx.state t f]; simpa [withoutDataFile] using hrest.1) h)
    | registerDeleteFile t file entries =>
      obtain hidle | ⟨value, hlive, hrest⟩ := idle_or_passed (checks_liveTable _) (error_of_ignore h)
      · exact .inl hidle
      replace hrest := error_after hrest (get_eq_ok.mpr ⟨rfl, rfl⟩)
      obtain hidle | ⟨target, htarget, hrest⟩ := idle_or_passed (checks_orError _ _) hrest
      · exact .inl hidle
      replace hrest := error_after hrest (get_eq_ok.mpr ⟨rfl, rfl⟩)
      obtain hidle | ⟨_, halone, hrest⟩ := idle_or_passed (checks_require _ _) hrest
      · exact .inl hidle
      replace hrest := error_after hrest (get_eq_ok.mpr ⟨rfl, rfl⟩)
      obtain hidle | ⟨_, hsupplied, hrest⟩ := idle_or_passed (checks_require _ _) hrest
      · exact .inl hidle
      obtain hidle | ⟨_, hkilling, hrest⟩ := idle_or_passed (checks_require _ _) hrest
      · exact .inl hidle
      have hfits (hinside) : DeleteFileFits tx.state t file entries target :=
        ⟨by simp [(liveTable_eq_ok.mp hlive).1], (orError_eq_ok.mp htarget).1, by simpa using halone,
          by simpa [or_assoc] using hsupplied, by simpa using hkilling, hinside⟩
      cases hstart : target.rowIdStart with
      | none => exact .inr (partial_registerDeleteFile (hfits (by simp [hstart])) h)
      | some start =>
        simp only [hstart] at hrest
        obtain hidle | ⟨stop, hstop, hrest⟩ := idle_or_passed (checks_orError _ _) hrest
        · exact .inl hidle
        obtain ⟨hsum, rfl⟩ := checkedAdd_eq_some.mp (orError_eq_ok.mp hstop).1
        cases hinside : entries.find? (fun e => decide (e.rowId < start) ||
            decide (e.rowId ≥ start + target.recordCount)) with
        | some entry =>
          simp only [hinside] at hrest
          exact .inl (idle_of_throw hrest)
        | none => exact .inr (partial_registerDeleteFile (hfits (by simpa [hstart, hsum] using hinside)) h)
    | removeTag target key =>
      rcases bind_eq_error.mp h with hfail | ⟨_, _, hmarked, -⟩
      · exact .inl (fails_markTagged _ _ _ _ hfail)
      · exact .inr (partial_removeTag (markTagged_eq_ok.mp hmarked).1 h)
    | inlineInsert t chunk entries =>
      obtain hidle | ⟨value, hlive, hrest⟩ := idle_or_passed (checks_liveTable _) (error_of_ignore h)
      · exact .inl hidle
      obtain hidle | ⟨_, hrows, hrest⟩ := idle_or_passed (checks_require _ _) hrest
      · exact .inl hidle
      replace hrest := error_after hrest (get_eq_ok.mpr ⟨rfl, rfl⟩)
      obtain hidle | ⟨_, hsupplied, hrest⟩ := idle_or_passed (checks_require _ _) hrest
      · exact .inl hidle
      cases hinside : entries.find? (fun e => decide (e.ordinal ≥ chunk.rowCount)) with
      | some entry =>
        simp only [hinside] at hrest
        exact .inl (idle_of_throw hrest)
      | none =>
        simp only [hinside] at hrest
        obtain hidle | ⟨tstat, hstats, -⟩ := idle_or_passed (checks_liveTableStats _) hrest
        · exact .inl hidle
        exact .inr (partial_inlineInsert ⟨by simp [(liveTable_eq_ok.mp hlive).1], by simpa using hrows,
          by simpa using hsupplied, by simpa using hinside, (liveTableStats_eq_ok.mp hstats).1⟩ h)
    | inlineDelete t rowId entries =>
      obtain hidle | ⟨value, hlive, hrest⟩ := idle_or_passed (checks_liveTable _) h
      · exact .inl hidle
      replace hrest := error_after hrest (get_eq_ok.mpr ⟨rfl, rfl⟩)
      obtain hidle | ⟨_, hsupplied, hrest⟩ := idle_or_passed (checks_require _ _) hrest
      · exact .inl hidle
      cases hnames : entries.find? (fun e => decide (e.rowId ≠ rowId)) with
      | some entry =>
        simp only [hnames] at hrest
        exact .inl (idle_of_throw hrest)
      | none =>
        exact .inr (partial_inlineDelete ⟨by simp [(liveTable_eq_ok.mp hlive).1], by simpa using hsupplied,
          by simpa using hnames⟩ h)
    | flushInlinedData t schemaVersion flushed =>
      obtain hidle | ⟨value, hlive, hrest⟩ := idle_or_passed (checks_liveTable _) (error_of_ignore h)
      · exact .inl hidle
      obtain hidle | ⟨tstat, hstats, -⟩ := idle_or_passed (checks_liveTableStats _) hrest
      · exact .inl hidle
      have hlive : tx.state.tables[t]?.isSome := by simp [(liveTable_eq_ok.mp hlive).1]
      have hstats := (liveTableStats_eq_ok.mp hstats).1
      obtain ⟨before, bad, after, tx₁, rfl, hfiles, hbad, hidle⟩ := stopped_flushInlinedData hlive hstats h
      cases hfiles with
      | nil => exact .inl hidle
      | cons hfits hrest =>
        exact .inr (.flushInlinedData hlive hstats (List.cons_ne_nil _ _) (.cons hfits hrest) hbad hidle)
    | _ => cases hchecks

end Call

end Moraine
