-- SUMMARY: What every call does to the statistics, the live files and the inlined chunks of the tables.
import Moraine.Catalog.IndexQuery
import Moraine.Transaction.Evolution

/-!
# The rows of tables along calls

The rows of a table are in its live data files and in its inlined chunks; its statistics count them and hold the next
row id. Of all calls few touch any of these, and `RowsEffect` lists what they do, whether they succeed or fail: a call
that fails at an index entry has put the file or chunk, and a flush that fails at a file has registered those before.
-/

namespace Moraine

open Std (ExtTreeMap ExtTreeSet)
open OrdMap CatalogSnapshot Transaction

/-! ## The live files of a table -/

namespace CatalogSnapshot

variable {v w : CatalogSnapshot} {t : Nat}

theorem dataFilesOf_eq (v : CatalogSnapshot) (t : Nat) : v.dataFilesOf t = (v.dataFiles.getD t ∅).toList.map (·.2) := by
  rw [dataFilesOf, ExtTreeMap.getD_eq_getD_getElem?]
  cases v.dataFiles[t]? <;> rfl

/-- The live files of a table are those under its file keys. -/
theorem dataFilesOf_of_getNested (h : ∀ f, getNested w.dataFiles t f = getNested v.dataFiles t f) :
    w.dataFilesOf t = v.dataFilesOf t := by
  have hfiles : w.dataFiles.getD t ∅ = v.dataFiles.getD t ∅ := by
    refine ExtTreeMap.ext_getElem? fun f => ?_
    rw [getElem?_getD_inner, getElem?_getD_inner, h]
  rw [dataFilesOf_eq, dataFilesOf_eq, hfiles]

end CatalogSnapshot

/-! ## What the parts of verbs leave -/

theorem tableStats_putStats {v w : CatalogSnapshot} (h : w.tableStats = v.tableStats) (tstat : TableStatsValue) :
    (w.putRecord (.tableStats tstat)).tableStats = v.tableStats.insert tstat.tableId tstat := by
  rw [← h]
  rfl

section Parts

variable (tx : Transaction) (t : Nat) (tstat : TableStatsValue) (partitionId : Option Nat)

theorem registeredFile_tableStats (file : DataFile) :
    (registeredFile tx t file tstat partitionId).state.tableStats =
      tx.state.tableStats.insert tstat.tableId { tstat with
      nextRowId := saturatingAdd tstat.nextRowId file.recordCount
      recordCount := saturatingAdd tstat.recordCount file.recordCount
      fileSizeBytes := saturatingAdd tstat.fileSizeBytes file.fileSizeBytes } := by
  obtain ⟨stats, h⟩ := putFileStats_eq _ t tx.nextFileId file.columnStats
  rw [registeredFile, h]
  rfl

theorem registeredFile_dataFiles (file : DataFile) :
    (registeredFile tx t file tstat partitionId).state.dataFiles = putNested tx.state.dataFiles t tx.nextFileId
      (dataFileRecord tx.nextFileId t tx.newSnapshotId file tstat.nextRowId partitionId none) := by
  obtain ⟨stats, h⟩ := putFileStats_eq _ t tx.nextFileId file.columnStats
  rw [registeredFile, h]
  rfl

end Parts

theorem dataFiles_deleteDeleteFiles (v : CatalogSnapshot) (t : Nat) (ids : List Nat) :
    (ids.foldl (fun v id => v.deleteDeleteFile t id) v).dataFiles = v.dataFiles := by
  induction ids generalizing v with
  | nil => rfl
  | cons id ids ih => exact ih _

theorem getNested_withoutDataFile (v : CatalogSnapshot) (t f t' f' : Nat) :
    getNested (withoutDataFile v t f).dataFiles t' f' =
      if t' = t ∧ f' = f then none else getNested v.dataFiles t' f' := by
  rw [withoutDataFile, deleteDataFile]
  simp only [dataFiles_deleteDeleteFiles, getNested_removeNested]

theorem putColumns_rows (v : CatalogSnapshot) (cs : List ColumnValue) :
    (putColumns v cs).tableStats = v.tableStats ∧ (putColumns v cs).dataFiles = v.dataFiles := by
  induction cs generalizing v with
  | nil => exact ⟨rfl, rfl⟩
  | cons c cs ih => exact ih _

theorem deleteColumns_rows (v : CatalogSnapshot) (t : Nat) (ids : List Nat) :
    (ids.foldl (fun v id => v.deleteColumn t id) v).tableStats = v.tableStats ∧
      (ids.foldl (fun v id => v.deleteColumn t id) v).dataFiles = v.dataFiles := by
  induction ids generalizing v with
  | nil => exact ⟨rfl, rfl⟩
  | cons id ids ih => exact ih _

/-! ## What calls do -/

/-- The inline operations stay, and so does what numbers the chunks. -/
structure InlineKept (tx tx' : Transaction) : Prop where
  ops : tx'.inlineOps = tx.inlineOps
  seqs : tx'.chunkSeqs = tx.chunkSeqs
  snapshot : tx'.newSnapshotId = tx.newSnapshotId

theorem InlineKept.refl (tx : Transaction) : InlineKept tx tx := ⟨rfl, rfl, rfl⟩

/-- What a call does to the statistics, the live files and the staged chunks. -/
inductive RowsEffect (tx : Transaction) : Call → Transaction → Prop where
  | quiet {call : Call} {tx' : Transaction} (stats : tx'.state.tableStats = tx.state.tableStats)
      (files : tx'.state.dataFiles = tx.state.dataFiles) (kept : InlineKept tx tx')
      (inherited : tx'.inheritedRowIds = tx.inheritedRowIds) : RowsEffect tx call tx'
  | create {schema : Nat} {name uuid : String} {columns : List ColumnDef} {tx' : Transaction}
      (stats : tx'.state.tableStats = tx.state.tableStats.insert tx.nextCatalogId
        { tableId := tx.nextCatalogId, recordCount := 0, nextRowId := 0, fileSizeBytes := 0 })
      (files : tx'.state.dataFiles = tx.state.dataFiles) (kept : InlineKept tx tx')
      (inherited : tx'.inheritedRowIds = tx.inheritedRowIds) (catalogId : tx'.nextCatalogId = tx.nextCatalogId + 1) :
      RowsEffect tx (.createTable schema name columns uuid) tx'
  | drop {t : Nat} {tx' : Transaction} (stats : tx'.state.tableStats = tx.state.tableStats.erase t)
      (files : tx'.state.dataFiles = tx.state.dataFiles.erase t) (kept : InlineKept tx tx')
      (inherited : tx'.inheritedRowIds = tx.inheritedRowIds) : RowsEffect tx (.dropTable t) tx'
  | register {t : Nat} {file : DataFile} {entries : List FileIndexEntry} {tstat : TableStatsValue}
      {partitionId : Option Nat} {tx' : Transaction} (live : tx.state.tables[t]?.isSome)
      (counted : tx.state.tableStats[t]? = some tstat)
      (stats : tx'.state.tableStats = tx.state.tableStats.insert tstat.tableId { tstat with
        nextRowId := saturatingAdd tstat.nextRowId file.recordCount
        recordCount := saturatingAdd tstat.recordCount file.recordCount
        fileSizeBytes := saturatingAdd tstat.fileSizeBytes file.fileSizeBytes })
      (files : tx'.state.dataFiles = putNested tx.state.dataFiles t tx.nextFileId
        (dataFileRecord tx.nextFileId t tx.newSnapshotId file tstat.nextRowId partitionId none))
      (kept : InlineKept tx tx') (inherited : tx'.inheritedRowIds = tx.inheritedRowIds.insertIfNew t tstat.nextRowId) :
      RowsEffect tx (.registerDataFile t file entries) tx'
  | expire {t f : Nat} {file : DataFileValue} {tstat : TableStatsValue} {tx' : Transaction}
      (live : getNested tx.state.dataFiles t f = some file) (counted : tx.state.tableStats[t]? = some tstat)
      (stats : tx'.state.tableStats = tx.state.tableStats.insert tstat.tableId { tstat with
        recordCount := tstat.recordCount - file.recordCount
        fileSizeBytes := tstat.fileSizeBytes - file.fileSizeBytes })
      (files : ∀ t' f', getNested tx'.state.dataFiles t' f' =
        if t' = t ∧ f' = f then none else getNested tx.state.dataFiles t' f')
      (kept : InlineKept tx tx') (inherited : tx'.inheritedRowIds = tx.inheritedRowIds) :
      RowsEffect tx (.expireDataFile t f) tx'
  | orphan {t f : Nat} {tx' : Transaction} (uncounted : tx.state.tableStats[t]? = none)
      (stats : tx'.state.tableStats = tx.state.tableStats)
      (files : ∀ t' f', getNested tx'.state.dataFiles t' f' =
        if t' = t ∧ f' = f then none else getNested tx.state.dataFiles t' f')
      (kept : InlineKept tx tx') (inherited : tx'.inheritedRowIds = tx.inheritedRowIds) :
      RowsEffect tx (.expireDataFile t f) tx'
  | recount {t recordCount fileSizeBytes : Nat} {tstat : TableStatsValue} {tx' : Transaction}
      (counted : tx.state.tableStats[t]? = some tstat)
      (stats : tx'.state.tableStats = tx.state.tableStats.insert tstat.tableId
        { tstat with recordCount := recordCount, fileSizeBytes := fileSizeBytes })
      (files : tx'.state.dataFiles = tx.state.dataFiles) (kept : InlineKept tx tx')
      (inherited : tx'.inheritedRowIds = tx.inheritedRowIds) :
      RowsEffect tx (.updateTableStats t recordCount fileSizeBytes) tx'
  | insert {t : Nat} {chunk : InlineChunk} {entries : List FileIndexEntry} {tstat : TableStatsValue} {tx' : Transaction}
      (live : tx.state.tables[t]?.isSome) (rows : chunk.rowCount ≠ 0) (counted : tx.state.tableStats[t]? = some tstat)
      (stats : tx'.state.tableStats = tx.state.tableStats.insert tstat.tableId { tstat with
        nextRowId := saturatingAdd tstat.nextRowId chunk.rowCount
        recordCount := saturatingAdd tstat.recordCount chunk.rowCount })
      (files : tx'.state.dataFiles = tx.state.dataFiles)
      (ops : tx'.inlineOps = tx.inlineOps ++ [.schema t chunk.schemaVersion chunk.arrowSchema,
        .insert t chunk.schemaVersion tx.newSnapshotId (tx.chunkSeqs.getD (t, chunk.schemaVersion) 0) tstat.nextRowId
          chunk.rowCount chunk.arrowBody])
      (seqs : tx'.chunkSeqs =
        tx.chunkSeqs.insert (t, chunk.schemaVersion) (tx.chunkSeqs.getD (t, chunk.schemaVersion) 0 + 1))
      (snapshot : tx'.newSnapshotId = tx.newSnapshotId)
      (inherited : tx'.inheritedRowIds = tx.inheritedRowIds.insertIfNew t tstat.nextRowId) :
      RowsEffect tx (.inlineInsert t chunk entries) tx'
  | delete {t rowId : Nat} {entries : List FileIndexRemoval} {tx' : Transaction}
      (stats : tx'.state.tableStats = tx.state.tableStats) (files : tx'.state.dataFiles = tx.state.dataFiles)
      (ops : tx'.inlineOps = tx.inlineOps ++ [.tombstone t rowId tx.newSnapshotId])
      (seqs : tx'.chunkSeqs = tx.chunkSeqs)
      (snapshot : tx'.newSnapshotId = tx.newSnapshotId) (inherited : tx'.inheritedRowIds = tx.inheritedRowIds) :
      RowsEffect tx (.inlineDelete t rowId entries) tx'
  | flush {t schemaVersion : Nat} {flushed registered : List FlushedDataFile} {tstat : TableStatsValue}
      {tx₁ tx' : Transaction} (live : tx.state.tables[t]?.isSome) (counted : tx.state.tableStats[t]? = some tstat)
      (registers : FlushedFiles t (tx.inheritedRowIds.getD t tstat.nextRowId) registered tx tx₁)
      (first : registered <+: flushed) (state : tx'.state = tx₁.state) (nextFileId : tx₁.nextFileId ≤ tx'.nextFileId)
      (ops : tx'.inlineOps = tx.inlineOps ∨
        registered = flushed ∧ tx'.inlineOps = tx.inlineOps ++ [.flush t schemaVersion tx.newSnapshotId])
      (seqs : tx'.chunkSeqs = tx.chunkSeqs) (snapshot : tx'.newSnapshotId = tx.newSnapshotId)
      (inherited : tx'.inheritedRowIds = tx.inheritedRowIds) :
      RowsEffect tx (.flushInlinedData t schemaVersion flushed) tx'

section Effects

variable {tx tx' : Transaction} {call : Call}

/-- Registering flushed files stages no inline operation and allocates no row ids. -/
theorem inline_flushed {t ceiling : Nat} {flushes : List FlushedDataFile} (h : FlushedFiles t ceiling flushes tx tx') :
    InlineKept tx tx' ∧ tx'.inheritedRowIds = tx.inheritedRowIds := by
  induction h with
  | nil => exact ⟨.refl _, rfl⟩
  | cons _ _ ih => exact ⟨⟨ih.1.ops, ih.1.seqs, ih.1.snapshot⟩, ih.2⟩

theorem withoutPartition_rows (v : CatalogSnapshot) (t : Nat) :
    (Call.withoutPartition v t).tableStats = v.tableStats ∧ (Call.withoutPartition v t).dataFiles = v.dataFiles := by
  unfold Call.withoutPartition
  split <;> exact ⟨rfl, rfl⟩

theorem withoutSort_rows (v : CatalogSnapshot) (t : Nat) :
    (Call.withoutSort v t).tableStats = v.tableStats ∧ (Call.withoutSort v t).dataFiles = v.dataFiles := by
  unfold Call.withoutSort
  split <;> exact ⟨rfl, rfl⟩

theorem deleteSchema_rows (v : CatalogSnapshot) (schema : Nat) :
    (v.deleteSchema schema).tableStats = v.tableStats ∧ (v.deleteSchema schema).dataFiles = v.dataFiles := by
  unfold deleteSchema removeSchemaOnly
  split <;> exact ⟨rfl, rfl⟩

theorem deleteIndex_rows (v : CatalogSnapshot) (t i : Nat) :
    (v.deleteIndex t i).tableStats = v.tableStats ∧ (v.deleteIndex t i).dataFiles = v.dataFiles := by
  unfold deleteIndex
  split <;> exact ⟨rfl, rfl⟩

theorem rowsEffect_of_effect (h : Call.Effect tx call tx') : RowsEffect tx call tx' := by
  cases h with
  | @createTable _ _ _ columns _ value =>
    obtain ⟨hstats, hfiles⟩ := putColumns_rows (tx.state.putRecord (.table value))
      (columnRecords tx.nextCatalogId tx.newSnapshotId columns none 1 1)
    exact .create (tableStats_putStats hstats _) hfiles ⟨rfl, rfl, rfl⟩ rfl rfl
  | dropSchema => exact .quiet (deleteSchema_rows _ _).1 (deleteSchema_rows _ _).2 ⟨rfl, rfl, rfl⟩ rfl
  | dropIndex => exact .quiet (deleteIndex_rows _ _ _).1 (deleteIndex_rows _ _ _).2 ⟨rfl, rfl, rfl⟩ rfl
  | dropTable => exact .drop rfl rfl ⟨rfl, rfl, rfl⟩ rfl
  | @addColumn t nextOrder column value live free distinct nextId next =>
    have hrows := putColumns_rows tx.state (treeRecords t tx.newSnapshotId column none nextId nextOrder)
    exact .quiet hrows.1 hrows.2 ⟨rfl, rfl, rfl⟩ rfl
  | dropColumn => exact .quiet (deleteColumns_rows _ _ _).1 (deleteColumns_rows _ _ _).2 ⟨rfl, rfl, rfl⟩ rfl
  | setPartitioning | clearPartitioning =>
    exact .quiet (withoutPartition_rows _ _).1 (withoutPartition_rows _ _).2 ⟨rfl, rfl, rfl⟩ rfl
  | setSorting | clearSorting => exact .quiet (withoutSort_rows _ _).1 (withoutSort_rows _ _).2 ⟨rfl, rfl, rfl⟩ rfl
  | registerDataFile fits =>
    exact .register fits.live fits.stats (registeredFile_tableStats ..) (registeredFile_dataFiles ..)
      ⟨rfl, rfl, rfl⟩ rfl
  | expireDataFile live stats =>
    exact .expire live stats (tableStats_putStats (tableStats_withoutDataFile _ _ _) _)
      (getNested_withoutDataFile _ _ _)
      ⟨rfl, rfl, rfl⟩ rfl
  | updateTableStats live stats => exact .recount stats rfl rfl ⟨rfl, rfl, rfl⟩ rfl
  | setTag live retagged | removeTag live retagged =>
    obtain ⟨tags, rfl, -⟩ := retagged
    exact .quiet rfl rfl ⟨rfl, rfl, rfl⟩ rfl
  | inlineInsert fits => exact .insert fits.live fits.rows fits.stats rfl rfl rfl rfl rfl rfl
  | inlineDelete => exact .delete rfl rfl rfl rfl rfl rfl
  | flushInlinedData live stats files =>
    obtain ⟨kept, hinherited⟩ := inline_flushed files
    refine .flush live stats files (List.prefix_refl _) rfl le_rfl (.inr ⟨rfl, ?_⟩) kept.seqs kept.snapshot hinherited
    rw [← kept.ops, ← kept.snapshot]
  | _ => exact .quiet rfl rfl ⟨rfl, rfl, rfl⟩ rfl

theorem rowsEffect_of_stopped (h : Call.Partial tx call tx') : RowsEffect tx call tx' := by
  cases h with
  | registerDataFile fits =>
    exact .register fits.live fits.stats (registeredFile_tableStats ..) (registeredFile_dataFiles ..)
      ⟨rfl, rfl, rfl⟩ rfl
  | expireDataFile live stats =>
    exact .orphan stats (tableStats_withoutDataFile _ _ _) (getNested_withoutDataFile _ _ _) ⟨rfl, rfl, rfl⟩ rfl
  | inlineInsert fits => exact .insert fits.live fits.rows fits.stats rfl rfl rfl rfl rfl rfl
  | inlineDelete => exact .delete rfl rfl rfl rfl rfl rfl
  | flushInlinedData live stats some files refused idle =>
    obtain ⟨next, hnext, rfl⟩ := idle
    obtain ⟨kept, hinherited⟩ := inline_flushed files
    exact .flush live stats files (List.prefix_append _ _) rfl hnext (.inl kept.ops) kept.seqs kept.snapshot hinherited
  | _ => exact .quiet rfl rfl ⟨rfl, rfl, rfl⟩ rfl

theorem rowsEffect_after (tx : Transaction) (call : Call) : RowsEffect tx call (call.after tx) := by
  refine Call.after_of rowsEffect_of_effect ?_ rowsEffect_of_stopped
  rintro _ ⟨next, -, rfl⟩
  exact .quiet rfl rfl ⟨rfl, rfl, rfl⟩ rfl

end Effects

end Moraine
