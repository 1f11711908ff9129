-- SUMMARY: The index entries a staged-row commit derives from the rows it adds and the rows it kills.
import Moraine.Transaction.Staged

/-!
# Index upkeep of staged-row commits

A staged-row commit derives entries for the data files it registers and the chunks it inserts, and removals
for the rows it kills. The values of a killed inlined row are read from every chunk that holds its id,
committed or staged by the batch itself; those of a killed file row from the position the delete names. A
delete against a file that the batch registers leaves the row out of the file's entries instead. An index
with deferred maintenance gets no entries for new rows and awaits a repair.

`Upkeep.put_iff` and `Upkeep.removal_iff` say which entries of an index a batch stages.
-/

namespace Moraine

open Std (ExtTreeMap ExtTreeSet TransOrd LawfulEqOrd)
open OrdMap

namespace RowStore

/-- The index definitions of a table as readers see them. -/
def indexesOf (s : RowStore) (t : Nat) : List IndexInfo :=
  (s.indexes.filter (·.tableId = t)).map indexInfo

end RowStore

/-! ## Deletes -/

section Deletes

variable (s : RowStore) (b : StagedBatch)

/-- The data file an operation kills rows of. A delete file is not read if its table has no index. -/
def fileDeleteTarget? : RowOperation → Option (Nat × Nat)
  | .insertDeleteFile t _ file => if (s.indexesOf t).isEmpty then none else some (t, file.dataFileId)
  | .inlineFileDelete t f _ => some (t, f)
  | _ => none

/-- The positions an operation kills in the file it targets. -/
def killedPositions : RowOperation → List Nat
  | .insertDeleteFile _ _ file => file.positions
  | .inlineFileDelete _ _ position => [position]
  | _ => []

/-- The targets of the batch's file deletes, sorted. -/
def fileDeleteTargets : List (Nat × Nat) := (ExtTreeSet.ofList (b.ops.filterMap (fileDeleteTarget? s))).toList

/-- The physical positions the batch kills in one data file. -/
def killedRows (target : Nat × Nat) : ExtTreeSet Nat :=
  ExtTreeSet.ofList ((b.ops.filter (fileDeleteTarget? s · = some target)).flatMap killedPositions)

/-- Reads a delete file. -/
def deleteFileRows (store : Bool) : RowOperation → Except Error Unit
  | .insertDeleteFile t d _ =>
    if !(s.indexesOf t).isEmpty && !store then
      .error (.constraint (s!"delete file {d} on indexed table {t} cannot be read to maintain its equality " ++
        s!"index: no data-path store is available"))
    else .ok ()
  | _ => .ok ()

end Deletes

/-! ## Entries of files and chunks -/

/-- Where each index's columns stand among the columns of all indexes. -/
def columnSpans (start : Nat) : List (List Nat) → List (Nat × Nat)
  | [] => []
  | positions :: rest => (start, positions.length) :: columnSpans (start + positions.length) rest

/-- One scoped read of a file that covers every index's columns, split back into entry lists ordered as
    `indexes`. -/
def perIndexScopedEntries (liveColumns : List Nat) (indexes : List IndexInfo) (table : Nat)
    (file : DataFileRows) (rows : ScopedRows) : Except Error (List (List ScopedReadEntry)) :=
  match Results.each (fun index => indexPositions liveColumns index table) indexes with
  | .error e => .error e
  | .ok positions =>
    (scopedReadEntries file.object positions.flatten rows (.resolve file.rowIdStart)).map fun decoded =>
      (columnSpans 0 positions).map fun span =>
        decoded.map fun entry => { entry with values := (entry.values.drop span.1).take span.2 }

/-- Refuses a position the target does not hold. -/
def refuseOutOfRange (killed : ExtTreeSet Nat) (table dataFileId : Nat) (file : DataFileRows) : Except Error Unit :=
  match killed.toList.find? (file.recordCount ≤ ·) with
  | some position => .error (.constraint (s!"delete file for data file {dataFileId} on table {table} names " ++
      s!"position {position} outside the file's record count {file.recordCount}"))
  | none => .ok ()

def unreadableDataFile (table dataFileId : Nat) : Error :=
  .constraint (s!"data file {dataFileId} on indexed table {table} cannot be read to maintain its equality " ++
    s!"index: no data-path store is available")

/-- The entries of a registered data file. A row the same batch kills is left out. -/
def dataFileIndexEntries (s : RowStore) (store : Bool) (table dataFileId : Nat) (file : DataFileRows)
    (killed : Option (ExtTreeSet Nat)) : Except Error (List StagedIndexEntry) :=
  let indexes := (s.indexesOf table).filter (·.maintenance ≠ .deferred)
  if indexes.isEmpty then .ok []
  else if !store then .error (unreadableDataFile table dataFileId)
  else
    match killed.elim (.ok ()) fun killed => refuseOutOfRange killed table dataFileId file with
    | .error e => .error e
    | .ok () =>
      match perIndexScopedEntries (s.columns table) indexes table file .all with
      | .error e => .error e
      | .ok perIndex =>
        Results.gather (fun x =>
          let surviving := (x.2.zipIdx.filter fun y => !killed.any (·.contains y.2)).map Prod.fst
          pushIndexEntries x.1 surviving false) (indexes.zip perIndex)

/-- The removals for the rows killed in a data file the head already holds. -/
def fileDeleteIndexEntries (s : RowStore) (store : Bool) (table dataFileId : Nat) (killed : ExtTreeSet Nat) :
    Except Error (List StagedIndexEntry) :=
  let indexes := s.indexesOf table
  if indexes.isEmpty then .ok []
  else match (s.rows table).dataFiles[dataFileId]? with
    | none => .error (.notFound s!"data file {dataFileId} of table {table}")
    | some file =>
      if !store then .error (unreadableDataFile table dataFileId)
      else match refuseOutOfRange killed table dataFileId file with
        | .error e => .error e
        | .ok () =>
          match perIndexScopedEntries (s.columns table) indexes table file (.selected killed) with
          | .error e => .error e
          | .ok perIndex => Results.gather (fun x => pushIndexEntries x.1 x.2 true) (indexes.zip perIndex)

/-- The entries of an inline chunk: of every row if it is inserted, and removals for the rows in `held` if
    they are deleted. -/
def inlineChunkIndexEntries (s : RowStore) (table : Nat) (chunk : InlineChunkValue Row) (held : Option (List Nat)) :
    Except Error (List StagedIndexEntry) :=
  let indexes := (s.indexesOf table).filter fun index => held.isSome || index.maintenance ≠ .deferred
  Results.gather (fun index =>
    match indexPositions (s.columns table) index table with
    | .error e => .error e
    | .ok positions =>
      match inlineBatchEntries chunk positions with
      | .error e => .error e
      | .ok decoded =>
        pushIndexEntries index (decoded.filter fun entry => held.all (·.contains entry.rowId)) held.isSome) indexes

def InlineChunkValue.holds (chunk : InlineChunkValue Row) (rowId : Nat) : Bool :=
  chunk.rowIdStart ≤ rowId && rowId < chunk.rowIdStart + chunk.body.length

/-- The removals for rows tombstoned out of inline chunks. A tombstone that names no chunk is refused. -/
def stageInlineDeleteEntries (s : RowStore) (b : StagedBatch) (table : Nat) (rowIds : List Nat) :
    Except Error (List StagedIndexEntry) :=
  if (s.indexesOf table).isEmpty then .ok []
  else
    let chunks := (s.rows table).inline.chunks.toList.map Prod.snd ++ b.chunks table
    match Results.gather (fun chunk =>
        let held := rowIds.filter chunk.holds
        if held.isEmpty then .ok [] else inlineChunkIndexEntries s table chunk (some held)) chunks with
    | .error e => .error e
    | .ok entries =>
      match rowIds.find? fun rowId => !chunks.any (·.holds rowId) with
      | some missing => .error (.corruption (s!"inline delete of row {missing} on indexed table {table} names no " ++
          s!"inline chunk, so its index entries cannot be derived"))
      | none => .ok entries

/-! ## One commit -/

section Commit

variable (s : RowStore) (store : Bool) (b : StagedBatch)

/-- The entries of one add. A file registered by a batch that only compacts its table derives none. -/
def addEntries : RowOperation → Except Error (List StagedIndexEntry)
  | .insertDataFile t f file =>
    if t ∈ b.compacted then .ok []
    else
      let killed := if (t, f) ∈ fileDeleteTargets s b then some (killedRows s b (t, f)) else none
      dataFileIndexEntries s store t f file killed
  | .inlineInsert t _ rowIdStart body => inlineChunkIndexEntries s t ⟨rowIdStart, body⟩ none
  | _ => .ok []

/-- The data files whose deletes are accounted for at the add. -/
def registered (target : Nat × Nat) : Bool :=
  !b.compacted.contains target.1 && (b.dataFiles target.1).any (·.1 = target.2)

/-- The tables with tombstones. -/
def inlineDeleteTables : List Nat :=
  (ExtTreeSet.ofList (b.ops.filterMap fun
    | .inlineInlineDelete t _ => some t
    | _ => none)).toList

/-- The deferred indexes that miss rows of the batch. -/
def deferredIndexes : List Nat :=
  let deferredOf := fun t => ((s.indexesOf t).filter (·.maintenance = .deferred)).map (·.id)
  b.ops.flatMap fun
    | .insertDataFile t _ _ => if t ∈ b.compacted then [] else deferredOf t
    | .inlineInsert t _ _ _ => deferredOf t
    | _ => []

/-- All the entries a batch derives: adds in stage order, then the removals. -/
def upkeepEntries : Except Error (List StagedIndexEntry) :=
  match Results.each (deleteFileRows s store) b.ops with
  | .error e => .error e
  | .ok _ =>
    match Results.gather (addEntries s store b) b.ops with
    | .error e => .error e
    | .ok adds =>
      match Results.gather (fun t => stageInlineDeleteEntries s b t (b.tombstones t)) (inlineDeleteTables b) with
      | .error e => .error e
      | .ok inlineRemovals =>
        (Results.gather (fun target => fileDeleteIndexEntries s store target.1 target.2 (killedRows s b target))
          ((fileDeleteTargets s b).filter (!registered b ·))).map fun fileRemovals =>
            adds ++ inlineRemovals ++ fileRemovals

/-- The stored entries after a batch, the indexes it poisons, and those it leaves to a repair. -/
def stageIndexMaintenance : Except Error (IndexEntries × List Nat × List Nat) :=
  match upkeepEntries s store b with
  | .error e => .error e
  | .ok entries =>
    if entries.isEmpty then .ok (s.entries, [], deferredIndexes s b)
    else (s.entries.stageIndexEntries entries).map fun (entries, poisoned) =>
      (entries, poisoned, (ExtTreeSet.ofList (deferredIndexes s b)).toList)

/-- Records the poisoned builds. -/
def RowStore.applyPoison (indexes : List IndexValue) (poisoned : List Nat) : List IndexValue :=
  indexes.map fun value => if value.indexId ∈ poisoned then { value with poisoned := some true } else value

/-- Marks ready deferred definitions as awaiting repair, from the rows and files the base held. One that is
    being repaired keeps its cursors. -/
def RowStore.applyDeferredMaintenance (base : Nat → TableRows) (indexes : List IndexValue) (deferred : List Nat)
    (newSnapshot : Nat) : List IndexValue :=
  indexes.map fun value =>
    if value.indexId ∈ deferred ∧ value.buildState = none then
      let tail := (base value.tableId).dataFiles.toList.getLast?
      { value with
        beginSnapshot := newSnapshot
        buildState := some "maintaining"
        buildCursorRowId := (base value.tableId).nextRowId.bind fun next => if next = 0 then none else some (next - 1)
        -- The zero sentinel selects the resume by file also if the base held no file.
        buildCursorFile := some (tail.elim 0 (·.1))
        buildCursorPosition := some (tail.elim 0 (·.2.recordCount - 1)) }
    else value

/-- Commits a batch. -/
def RowStore.commit : Except Error RowStore :=
  match stageIndexMaintenance s store b with
  | .error e => .error e
  | .ok (entries, poisoned, deferred) =>
    (translate s.snapshotId s.rows b).map fun rows =>
      { snapshotId := b.snapshotId
        indexes := RowStore.applyDeferredMaintenance s.rows (RowStore.applyPoison s.indexes poisoned) deferred
          b.snapshotId
        columns := s.columns
        rows
        entries }

end Commit

/-! ## The entries of files and chunks, row by row -/

section Rows

variable {liveColumns : List Nat} {indexes : List IndexInfo} {table : Nat} {file : DataFileRows} {rows : ScopedRows}

/-- Each index's slice of the values read for all indexes is what a read of its own columns gives. -/
private theorem columnSpans_slice (earlier : List Nat) (positions : List (List Nat)) :
    List.Forall₂ (fun ps span => ∀ row values,
        indexedValues (earlier ++ positions.flatten) row = .ok values →
          indexedValues ps row = .ok ((values.drop span.1).take span.2))
      positions (columnSpans earlier.length positions) := by
  induction positions generalizing earlier with
  | nil => exact .nil
  | cons ps positions ih =>
    refine .cons (fun row values h => ?_) ?_
    · rw [List.flatten_cons] at h
      exact (Results.each_append (Results.each_append h).2).1
    · have hrest := ih (earlier ++ ps)
      rw [List.length_append] at hrest
      refine hrest.imp fun ps' span hspan row values h => hspan row values ?_
      rwa [List.append_assoc, ← List.flatten_cons]

/-- The entry lists of the indexes, each read by its own columns. -/
private theorem perIndexScopedEntries_isOf {perIndex : List (List ScopedReadEntry)}
    (h : perIndexScopedEntries liveColumns indexes table file rows = .ok perIndex) :
    List.Forall₂ (fun index entries => ∃ positions, indexPositions liveColumns index table = .ok positions ∧
        List.Forall₂ (fun p entry => ∃ x, file.rowAt p = some x ∧ entry.IsOf positions x)
          (rows.positions file.object) entries)
      indexes perIndex := by
  unfold perIndexScopedEntries at h
  split at h
  · cases h
  next positions hpositions =>
  cases hread : scopedReadEntries file.object positions.flatten rows (.resolve file.rowIdStart) with
  | error e => rw [hread] at h; cases h
  | ok decoded =>
    rw [hread] at h
    cases h
    rw [List.forall₂_map_right_iff]
    have hslices := columnSpans_slice [] positions
    have hdecoded := scopedReadEntries_isOf hread
    refine (Results.forall₂_comp (Results.each_forall₂ hpositions) hslices).imp ?_
    rintro index span ⟨ps, ⟨-, hps⟩, hslice⟩
    refine ⟨ps, hps, ?_⟩
    rw [List.forall₂_map_right_iff]
    refine hdecoded.imp ?_
    rintro p entry ⟨x, hx, hid, hvalues⟩
    exact ⟨x, hx, hid, hslice _ _ hvalues⟩

/-- What the entries of one index derived from the rows at `positions` of a file are. -/
private theorem mem_pushIndexEntries_file {index : IndexInfo} {positions ps : List Nat}
    (hpositions : indexPositions liveColumns index table = .ok positions) {entries : List ScopedReadEntry}
    (hentries : List.Forall₂ (fun p entry => ∃ x, file.rowAt p = some x ∧ entry.IsOf positions x) ps entries)
    {delete : Bool} {out : List StagedIndexEntry} (h : pushIndexEntries index entries delete = .ok out)
    (e : StagedIndexEntry) :
    e ∈ out ↔ ∃ p ∈ ps, ∃ r row, file.rowAt p = some (r, row) ∧
      index.rowEntry liveColumns table delete r row = .ok e := by
  rw [Results.mem_each h]
  constructor
  · rintro ⟨entry, hentry, he⟩
    obtain ⟨p, hp, x, hx, hof⟩ := Results.forall₂_mem_right hentries hentry
    rw [hof.stagedEntry_eq hpositions] at he
    exact ⟨p, hp, x.1, x.2, hx, he⟩
  · rintro ⟨p, hp, r, row, hrow, he⟩
    obtain ⟨entry, hentry, x, hx, hof⟩ := Results.forall₂_mem_left hentries hp
    cases hx.symm.trans hrow
    exact ⟨entry, hentry, (hof.stagedEntry_eq hpositions delete).trans he⟩

/-- The rows of a file that are not at a killed position. -/
private theorem forall₂_filter_zipIdx {α : Type} {R : Nat → α → Prop} (keep : Nat → Bool) (start : Nat)
    {l : List α} (h : List.Forall₂ R (List.range' start l.length) l) :
    List.Forall₂ R ((List.range' start l.length).filter keep)
      (((l.zipIdx start).filter fun y => keep y.2).map Prod.fst) := by
  induction l generalizing start with
  | nil => exact .nil
  | cons a l ih =>
    rw [List.length_cons, List.range'_succ, List.forall₂_cons] at h
    rw [List.length_cons, List.range'_succ, List.zipIdx_cons]
    cases hkeep : keep start with
    | true =>
      rw [List.filter_cons_of_pos hkeep, List.filter_cons_of_pos (by simpa using hkeep)]
      exact .cons h.1 (ih (start + 1) h.2)
    | false =>
      rw [List.filter_cons_of_neg (by simp [hkeep]), List.filter_cons_of_neg (by simp [hkeep])]
      exact ih (start + 1) h.2

/-- The entries of a data file: those of every index that is kept up at commit, for every row not killed. -/
theorem mem_dataFileIndexEntries {s : RowStore} {store : Bool} {dataFileId : Nat} {killed : Option (ExtTreeSet Nat)}
    {out : List StagedIndexEntry} (h : dataFileIndexEntries s store table dataFileId file killed = .ok out)
    (e : StagedIndexEntry) :
    e ∈ out ↔ ∃ index ∈ (s.indexesOf table).filter (·.maintenance ≠ .deferred), ∃ p r row,
      file.rowAt p = some (r, row) ∧ (∀ positions ∈ killed, p ∉ positions) ∧
        index.rowEntry (s.columns table) table false r row = .ok e := by
  unfold dataFileIndexEntries at h
  dsimp only at h
  split at h
  · next hempty =>
    cases h
    rw [List.isEmpty_iff.mp hempty]
    simp
  split at h
  · cases h
  split at h
  · cases h
  split at h
  · cases h
  next perIndex hperIndex =>
  refine Results.mem_gather_zip (perIndexScopedEntries_isOf hperIndex) h ?_
  rintro index entries out ⟨positions, hpositions, hentries⟩ hpush
  have hlen : entries.length = file.object.rows.length := by
    simpa [ScopedRows.positions] using hentries.length_eq.symm
  rw [ScopedRows.positions, List.range_eq_range', ← hlen] at hentries
  have hkept := forall₂_filter_zipIdx (fun p => !killed.any (·.contains p)) 0 hentries
  rw [mem_pushIndexEntries_file hpositions hkept hpush]
  have halive : ∀ p, (!killed.any (·.contains p)) = true ↔ ∀ positions ∈ killed, p ∉ positions := by
    cases killed <;> simp [Bool.eq_false_iff]
  simp only [List.mem_filter, List.mem_range'_1, hlen, Nat.zero_le, Nat.zero_add, true_and, halive]
  constructor
  · rintro ⟨p, ⟨-, hkilled⟩, r, row, hrow, he⟩
    exact ⟨p, r, row, hrow, hkilled, he⟩
  · rintro ⟨p, r, row, hrow, hkilled, he⟩
    exact ⟨p, ⟨DataObject.lt_length_of_rowAt hrow, hkilled⟩, r, row, hrow, he⟩

/-- The removals for a committed data file: those of every index, for every killed row. -/
theorem mem_fileDeleteIndexEntries {s : RowStore} {store : Bool} {dataFileId : Nat} {killed : ExtTreeSet Nat}
    {out : List StagedIndexEntry} (h : fileDeleteIndexEntries s store table dataFileId killed = .ok out)
    (e : StagedIndexEntry) :
    e ∈ out ↔ ∃ index ∈ s.indexesOf table, ∃ file p r row, (s.rows table).dataFiles[dataFileId]? = some file ∧
      p ∈ killed ∧ file.rowAt p = some (r, row) ∧ index.rowEntry (s.columns table) table true r row = .ok e := by
  unfold fileDeleteIndexEntries at h
  dsimp only at h
  split at h
  · next hempty =>
    cases h
    rw [List.isEmpty_iff.mp hempty]
    simp
  split at h
  · cases h
  next file hfile =>
  split at h
  · cases h
  split at h
  · cases h
  split at h
  · cases h
  next perIndex hperIndex =>
  refine Results.mem_gather_zip (perIndexScopedEntries_isOf hperIndex) h ?_
  rintro index entries out ⟨positions, hpositions, hentries⟩ hpush
  rw [mem_pushIndexEntries_file hpositions hentries hpush]
  simp only [ScopedRows.positions, ExtTreeSet.mem_toList, hfile, Option.some.injEq]
  constructor
  · rintro ⟨p, hp, r, row, hrow, he⟩
    exact ⟨file, p, r, row, rfl, hp, hrow, he⟩
  · rintro ⟨_, p, r, row, rfl, hp, hrow, he⟩
    exact ⟨p, hp, r, row, hrow, he⟩

theorem mem_rows_iff (chunk : InlineChunkValue Row) (r : Nat) (row : Row) :
    (r, row) ∈ chunk.rows ↔ chunk.rowAt r = some row := by
  have hmem : (r, row) ∈ chunk.rows ↔ (r, row) ∈ chunk.rows.filter (·.1 = r) := by simp
  rw [hmem, chunk.filter_rows]
  simp

/-- The entries of a chunk: those of its rows that are held. -/
theorem mem_inlineChunkIndexEntries {s : RowStore} {chunk : InlineChunkValue Row} {held : Option (List Nat)}
    {out : List StagedIndexEntry} (h : inlineChunkIndexEntries s table chunk held = .ok out) (e : StagedIndexEntry) :
    e ∈ out ↔ ∃ index ∈ (s.indexesOf table).filter (fun index => held.isSome || index.maintenance ≠ .deferred),
      ∃ r row, chunk.rowAt r = some row ∧ (∀ rows ∈ held, r ∈ rows) ∧
        index.rowEntry (s.columns table) table held.isSome r row = .ok e := by
  unfold inlineChunkIndexEntries at h
  dsimp only at h
  have hindex : ∀ {index : IndexInfo} {out},
      (match indexPositions (s.columns table) index table with
        | .error e => .error e
        | .ok positions =>
          match inlineBatchEntries chunk positions with
          | .error e => .error e
          | .ok decoded =>
            pushIndexEntries index (decoded.filter fun entry => held.all (·.contains entry.rowId)) held.isSome) =
          Except.ok out →
      (e ∈ out ↔ ∃ r row, chunk.rowAt r = some row ∧ (∀ rows ∈ held, r ∈ rows) ∧
        index.rowEntry (s.columns table) table held.isSome r row = .ok e) := by
    intro index out hout
    split at hout
    · cases hout
    next positions hpositions =>
    split at hout
    · cases hout
    next decoded hdecoded =>
    have hof := inlineBatchEntries_isOf hdecoded
    rw [Results.mem_each hout]
    simp only [List.mem_filter, Option.all_eq_true, List.contains_iff_mem, ← mem_rows_iff]
    constructor
    · rintro ⟨entry, ⟨hentry, hheld⟩, he⟩
      obtain ⟨x, hx, hentryOf⟩ := Results.forall₂_mem_right hof hentry
      rw [hentryOf.stagedEntry_eq hpositions] at he
      exact ⟨x.1, x.2, hx, fun rows hrows => hentryOf.1 ▸ hheld rows hrows, he⟩
    · rintro ⟨r, row, hrow, hheld, he⟩
      obtain ⟨entry, hentry, hentryOf⟩ := Results.forall₂_mem_left hof hrow
      refine ⟨entry, ⟨hentry, fun rows hrows => ?_⟩, (hentryOf.stagedEntry_eq hpositions _).trans he⟩
      rw [hentryOf.1]
      exact hheld rows hrows
  rw [Results.mem_gather h]
  constructor
  · rintro ⟨index, hmem, out, hout, he⟩
    exact ⟨index, hmem, (hindex hout).mp he⟩
  · rintro ⟨index, hmem, hrow⟩
    obtain ⟨out, hout⟩ := Results.gather_ok_of_mem h hmem
    exact ⟨index, hmem, out, hout, (hindex hout).mpr hrow⟩

end Rows

/-! ## The entries of a batch -/

namespace StagedBatch

variable (b : StagedBatch) (t : Nat) (T : TableRows) (r : Nat) (row : Row)

/-- A row of a registered data file that gets its entry. -/
def IndexesFile : Prop :=
  t ∉ b.compacted ∧ ∃ f file p, (f, file) ∈ b.dataFiles t ∧ file.rowAt p = some (r, row) ∧ ¬ b.Kills t f p

/-- A version of a tombstoned row, stored or staged by the batch itself. -/
def RemovesInline : Prop :=
  r ∈ b.tombstones t ∧ ((∃ begun, (begun, row) ∈ T.inline.versions r) ∨ b.AddsInline t r row)

/-- A row of a committed data file at a position the batch kills, whether or not it was dead before. -/
def RemovesFile : Prop :=
  ∃ f file p, T.dataFiles[f]? = some file ∧ file.rowAt p = some (r, row) ∧ b.Kills t f p ∧
    ¬ registered b (t, f)

end StagedBatch

/-- No two index definitions share an id. -/
def RowStore.DistinctIndexes (s : RowStore) : Prop := (s.indexes.map (·.indexId)).Nodup

theorem RowStore.DistinctIndexes.eq {s : RowStore} (h : s.DistinctIndexes) {t t' : Nat} {index index' : IndexInfo}
    (hindex : index ∈ s.indexesOf t) (hindex' : index' ∈ s.indexesOf t') (hid : index'.id = index.id) :
    t' = t ∧ index' = index := by
  unfold RowStore.indexesOf at hindex hindex'
  simp only [List.mem_map, List.mem_filter, decide_eq_true_eq] at hindex hindex'
  obtain ⟨value, ⟨hmem, rfl⟩, rfl⟩ := hindex
  obtain ⟨value', ⟨hmem', rfl⟩, rfl⟩ := hindex'
  obtain rfl : value' = value := List.inj_on_of_nodup_map h hmem' hmem hid
  exact ⟨rfl, rfl⟩

theorem IndexInfo.rowEntry_fields {index : IndexInfo} {liveColumns : List Nat} {table : Nat} {delete : Bool} {r : Nat}
    {row : Row} {e : StagedIndexEntry} (h : index.rowEntry liveColumns table delete r row = .ok e) :
    e.indexId = index.id ∧ e.delete = delete ∧ e.rowId = r := by
  unfold rowEntry at h
  cases hkey : index.rowKey liveColumns table row with
  | error err => rw [hkey] at h; cases h
  | ok x =>
    rw [hkey] at h
    cases h
    exact ⟨rfl, rfl, rfl⟩

section Killed

variable {s : RowStore} {b : StagedBatch} {t : Nat}

private theorem kills_iff (hindexes : (s.indexesOf t).isEmpty = false) (f p : Nat) :
    b.Kills t f p ↔ ∃ op ∈ b.ops, fileDeleteTarget? s op = some (t, f) ∧ p ∈ killedPositions op := by
  unfold StagedBatch.Kills StagedBatch.deleteFiles StagedBatch.fileDeletes
  simp only [List.mem_filterMap]
  constructor
  · rintro (⟨⟨d, file⟩, ⟨op, hop, hfile⟩, rfl, hp⟩ | ⟨op, hop, hfile⟩)
    · refine ⟨op, hop, ?_⟩
      cases op <;> simp_all [RowOperation.deleteFile?, fileDeleteTarget?, killedPositions]
    · refine ⟨op, hop, ?_⟩
      cases op <;> simp_all [RowOperation.fileDelete?, fileDeleteTarget?, killedPositions]
  · rintro ⟨op, hop, htarget, hp⟩
    cases op with
    | insertDeleteFile tableId d file =>
      rw [fileDeleteTarget?] at htarget
      split at htarget
      · cases htarget
      · cases htarget
        exact .inl ⟨(d, file), ⟨_, hop, by simp [RowOperation.deleteFile?]⟩, rfl, hp⟩
    | inlineFileDelete tableId dataFileId position =>
      cases htarget
      obtain rfl := List.mem_singleton.mp hp
      exact .inr ⟨_, hop, by simp [RowOperation.fileDelete?]⟩
    | _ => cases htarget

private theorem mem_killedRows_iff (hindexes : (s.indexesOf t).isEmpty = false) (f p : Nat) :
    p ∈ killedRows s b (t, f) ↔ b.Kills t f p := by
  rw [kills_iff hindexes]
  simp [killedRows, and_assoc]

private theorem mem_fileDeleteTargets_of_kills (hindexes : (s.indexesOf t).isEmpty = false) {f p : Nat}
    (h : b.Kills t f p) : (t, f) ∈ fileDeleteTargets s b := by
  obtain ⟨op, hop, htarget, -⟩ := (kills_iff hindexes f p).mp h
  simp only [fileDeleteTargets, ExtTreeSet.mem_toList, ExtTreeSet.mem_ofList, List.contains_iff_mem, List.mem_filterMap]
  exact ⟨op, hop, htarget⟩

private theorem not_killed_iff (hindexes : (s.indexesOf t).isEmpty = false) (f p : Nat) :
    (∀ positions ∈ (if (t, f) ∈ fileDeleteTargets s b then some (killedRows s b (t, f)) else none), p ∉ positions) ↔
      ¬ b.Kills t f p := by
  split_ifs with htarget
  · simp [mem_killedRows_iff hindexes]
  · simp only [Option.mem_def, reduceCtorEq, false_implies, implies_true, true_iff]
    exact fun hkills => htarget (mem_fileDeleteTargets_of_kills hindexes hkills)

end Killed

section Upkeep

variable {s : RowStore} {store : Bool} {b : StagedBatch} {t : Nat} {index : IndexInfo} {e : StagedIndexEntry}

private theorem isEmpty_of_mem (hindex : index ∈ s.indexesOf t) : (s.indexesOf t).isEmpty = false := by
  cases h : s.indexesOf t with
  | nil => rw [h] at hindex; cases hindex
  | cons _ _ => rfl

private theorem mem_adds_iff (hids : s.DistinctIndexes) (hindex : index ∈ s.indexesOf t) (he : e.indexId = index.id)
    {adds : List StagedIndexEntry} (h : Results.gather (addEntries s store b) b.ops = .ok adds) :
    e ∈ adds ↔ index.maintenance ≠ .deferred ∧ ∃ r row, (b.AddsInline t r row ∨ b.IndexesFile t r row) ∧
      index.rowEntry (s.columns t) t false r row = .ok e := by
  have hown : ∀ {t' index' r row}, index' ∈ s.indexesOf t' →
      index'.rowEntry (s.columns t') t' false r row = .ok e → t' = t ∧ index' = index := by
    intro t' index' r row hindex' hentry
    exact hids.eq hindex hindex' ((IndexInfo.rowEntry_fields hentry).1.symm.trans he)
  have hnonempty := isEmpty_of_mem hindex
  rw [Results.mem_gather h]
  constructor
  · rintro ⟨op, hop, out, hout, hmem⟩
    cases op with
    | insertDataFile t' f file =>
      rw [addEntries] at hout
      split at hout
      · cases hout
        cases hmem
      next hcompacted =>
      obtain ⟨index', hindex', p, r, row, hrow, hkilled, hentry⟩ := (mem_dataFileIndexEntries hout e).mp hmem
      rw [List.mem_filter] at hindex'
      obtain ⟨rfl, rfl⟩ := hown hindex'.1 hentry
      refine ⟨by simpa using hindex'.2, r, row, .inr ⟨hcompacted, f, file, p, ?_, hrow, ?_⟩, hentry⟩
      · exact List.mem_filterMap.mpr ⟨_, hop, by simp [RowOperation.dataFile?]⟩
      · exact (not_killed_iff hnonempty f p).mp hkilled
    | inlineInsert t' schemaVersion rowIdStart body =>
      rw [addEntries] at hout
      obtain ⟨index', hindex', r, row, hrow, -, hentry⟩ := (mem_inlineChunkIndexEntries hout e).mp hmem
      rw [List.mem_filter] at hindex'
      obtain ⟨rfl, rfl⟩ := hown hindex'.1 hentry
      refine ⟨by simpa using hindex'.2, r, row, .inl ⟨_, ?_, hrow⟩, hentry⟩
      exact List.mem_filterMap.mpr ⟨_, hop, by simp [RowOperation.chunk?]⟩
    | _ =>
      cases hout
      cases hmem
  · rintro ⟨hsync, r, row, hadds | ⟨hcompacted, f, file, p, hfile, hrow, hkills⟩, hentry⟩
    · obtain ⟨chunk, hchunk, hrow⟩ := hadds
      obtain ⟨op, hop, hop'⟩ := List.mem_filterMap.mp hchunk
      cases op with
      | inlineInsert t' schemaVersion rowIdStart body =>
        rw [RowOperation.chunk?] at hop'
        split at hop'
        · next ht =>
          cases hop'
          subst ht
          obtain ⟨out, hout⟩ := Results.gather_ok_of_mem h hop
          refine ⟨_, hop, out, hout, (mem_inlineChunkIndexEntries hout e).mpr ⟨index, ?_, r, row, hrow, ?_, hentry⟩⟩
          · simpa using ⟨hindex, hsync⟩
          · simp
        · cases hop'
      | _ => cases hop'
    · obtain ⟨op, hop, hop'⟩ := List.mem_filterMap.mp hfile
      cases op with
      | insertDataFile t' f' file' =>
        rw [RowOperation.dataFile?] at hop'
        split at hop'
        · next ht =>
          cases hop'
          subst ht
          obtain ⟨out, hout⟩ := Results.gather_ok_of_mem h hop
          refine ⟨_, hop, out, hout, ?_⟩
          rw [addEntries, if_neg hcompacted] at hout
          refine (mem_dataFileIndexEntries hout e).mpr ⟨index, ?_, p, r, row, hrow, ?_, hentry⟩
          · simpa using ⟨hindex, hsync⟩
          · exact (not_killed_iff hnonempty f p).mpr hkills
        · cases hop'
      | _ => cases hop'

private theorem holds_iff (chunk : InlineChunkValue Row) (r : Nat) :
    chunk.holds r = true ↔ ∃ row, chunk.rowAt r = some row := by
  unfold InlineChunkValue.holds InlineChunkValue.rowAt
  by_cases hle : chunk.rowIdStart ≤ r
  · have hlt : r < chunk.rowIdStart + chunk.body.length ↔ r - chunk.rowIdStart < chunk.body.length := by omega
    simp [hle, hlt, List.getElem?_eq_some_iff]
  · simp [hle]

/-- The removals for tombstoned rows: those of every index, for every chunk that holds the row. -/
private theorem mem_stageInlineDeleteEntries {rowIds : List Nat} {out : List StagedIndexEntry}
    (h : stageInlineDeleteEntries s b t rowIds = .ok out) :
    e ∈ out ↔ ∃ index ∈ s.indexesOf t, ∃ r row, r ∈ rowIds ∧
      (∃ chunk ∈ (s.rows t).inline.chunks.toList.map Prod.snd ++ b.chunks t, chunk.rowAt r = some row) ∧
        index.rowEntry (s.columns t) t true r row = .ok e := by
  unfold stageInlineDeleteEntries at h
  split at h
  · next hempty =>
    cases h
    rw [List.isEmpty_iff.mp hempty]
    simp
  dsimp only at h
  split at h
  · cases h
  next entries hentries =>
  split at h
  · cases h
  cases h
  rw [Results.mem_gather hentries]
  constructor
  · rintro ⟨chunk, hchunk, out, hout, hmem⟩
    split at hout
    · cases hout
      cases hmem
    obtain ⟨index, hindex, r, row, hrow, hheld, hentry⟩ := (mem_inlineChunkIndexEntries hout e).mp hmem
    refine ⟨index, (List.mem_filter.mp hindex).1, r, row, ?_, ⟨chunk, hchunk, hrow⟩, hentry⟩
    exact (List.mem_filter.mp (hheld _ rfl)).1
  · rintro ⟨index, hindex, r, row, hr, ⟨chunk, hchunk, hrow⟩, hentry⟩
    obtain ⟨out, hout⟩ := Results.gather_ok_of_mem hentries hchunk
    refine ⟨chunk, hchunk, out, hout, ?_⟩
    have hheld : r ∈ rowIds.filter chunk.holds := List.mem_filter.mpr ⟨hr, (holds_iff chunk r).mpr ⟨row, hrow⟩⟩
    rw [if_neg (by intro hempty; rw [List.isEmpty_iff.mp hempty] at hheld; cases hheld)] at hout
    refine (mem_inlineChunkIndexEntries hout e).mpr ⟨index, by simpa using hindex, r, row, hrow, ?_, hentry⟩
    rintro rows ⟨⟩
    exact hheld

private theorem mem_inlineRemovals_iff (hids : s.DistinctIndexes) (hindex : index ∈ s.indexesOf t)
    (he : e.indexId = index.id) {removals : List StagedIndexEntry}
    (h : Results.gather (fun t => stageInlineDeleteEntries s b t (b.tombstones t)) (inlineDeleteTables b) =
      .ok removals) :
    e ∈ removals ↔ ∃ r row, b.RemovesInline t (s.rows t) r row ∧
      index.rowEntry (s.columns t) t true r row = .ok e := by
  have hchunks : ∀ r row, (∃ chunk ∈ (s.rows t).inline.chunks.toList.map Prod.snd ++ b.chunks t,
      chunk.rowAt r = some row) ↔
        (∃ begun, (begun, row) ∈ (s.rows t).inline.versions r) ∨ b.AddsInline t r row := by
    intro r row
    simp only [List.mem_append, List.mem_map, or_and_right, exists_or, StagedBatch.AddsInline]
    refine or_congr_left ?_
    constructor
    · rintro ⟨chunk, ⟨⟨key, _⟩, hmem, rfl⟩, hrow⟩
      exact ⟨InsertKey.beginSnapshot key, (InlineTable.mem_versions_iff _ r _).mpr
        ⟨key, _, ExtTreeMap.mem_toList_iff_getElem?_eq_some.mp hmem, rfl, hrow⟩⟩
    · rintro ⟨begun, hmem⟩
      obtain ⟨key, chunk, hchunk, -, hrow⟩ := (InlineTable.mem_versions_iff _ r _).mp hmem
      exact ⟨chunk, ⟨(key, chunk), ExtTreeMap.mem_toList_iff_getElem?_eq_some.mpr hchunk, rfl⟩, hrow⟩
  rw [Results.mem_gather h]
  constructor
  · rintro ⟨t', -, out, hout, hmem⟩
    obtain ⟨index', hindex', r, row, hr, hchunk, hentry⟩ := (mem_stageInlineDeleteEntries hout).mp hmem
    obtain ⟨rfl, rfl⟩ := hids.eq hindex hindex' ((IndexInfo.rowEntry_fields hentry).1.symm.trans he)
    exact ⟨r, row, ⟨hr, (hchunks r row).mp hchunk⟩, hentry⟩
  · rintro ⟨r, row, ⟨hr, hversion⟩, hentry⟩
    have htable : t ∈ inlineDeleteTables b := by
      obtain ⟨op, hop, hop'⟩ := List.mem_filterMap.mp hr
      simp only [inlineDeleteTables, ExtTreeSet.mem_toList, ExtTreeSet.mem_ofList, List.contains_iff_mem,
        List.mem_filterMap]
      refine ⟨op, hop, ?_⟩
      cases op <;> simp_all [RowOperation.tombstone?]
    obtain ⟨out, hout⟩ := Results.gather_ok_of_mem h htable
    exact ⟨t, htable, out, hout,
      (mem_stageInlineDeleteEntries hout).mpr ⟨index, hindex, r, row, hr, (hchunks r row).mpr hversion, hentry⟩⟩

private theorem mem_fileRemovals_iff (hids : s.DistinctIndexes) (hindex : index ∈ s.indexesOf t)
    (he : e.indexId = index.id) {removals : List StagedIndexEntry}
    (h : Results.gather (fun target => fileDeleteIndexEntries s store target.1 target.2 (killedRows s b target))
      ((fileDeleteTargets s b).filter (!registered b ·)) = .ok removals) :
    e ∈ removals ↔ ∃ r row, b.RemovesFile t (s.rows t) r row ∧
      index.rowEntry (s.columns t) t true r row = .ok e := by
  have hnonempty := isEmpty_of_mem hindex
  rw [Results.mem_gather h]
  constructor
  · rintro ⟨⟨t', f⟩, htarget, out, hout, hmem⟩
    obtain ⟨index', hindex', file, p, r, row, hfile, hp, hrow, hentry⟩ := (mem_fileDeleteIndexEntries hout e).mp hmem
    obtain ⟨rfl, rfl⟩ := hids.eq hindex hindex' ((IndexInfo.rowEntry_fields hentry).1.symm.trans he)
    refine ⟨r, row, ⟨f, file, p, hfile, hrow, (mem_killedRows_iff hnonempty f p).mp hp, ?_⟩, hentry⟩
    simpa using (List.mem_filter.mp htarget).2
  · rintro ⟨r, row, ⟨f, file, p, hfile, hrow, hkills, hregistered⟩, hentry⟩
    have htarget : (t, f) ∈ (fileDeleteTargets s b).filter (!registered b ·) :=
      List.mem_filter.mpr ⟨mem_fileDeleteTargets_of_kills hnonempty hkills, by simpa using hregistered⟩
    obtain ⟨out, hout⟩ := Results.gather_ok_of_mem h htarget
    exact ⟨_, htarget, out, hout, (mem_fileDeleteIndexEntries hout e).mpr
      ⟨index, hindex, file, p, r, row, hfile, (mem_killedRows_iff hnonempty f p).mpr hkills, hrow, hentry⟩⟩

/-- The entries of one index that a batch derives. -/
structure Upkeep (s : RowStore) (b : StagedBatch) (t : Nat) (index : IndexInfo)
    (entries : List StagedIndexEntry) : Prop where
  put_iff : ∀ e : StagedIndexEntry, e.indexId = index.id → (e ∈ entries ∧ e.delete = false ↔
    index.maintenance ≠ .deferred ∧ ∃ r row, (b.AddsInline t r row ∨ b.IndexesFile t r row) ∧
      index.rowEntry (s.columns t) t false r row = .ok e)
  removal_iff : ∀ e : StagedIndexEntry, e.indexId = index.id → (e ∈ entries ∧ e.delete = true ↔
    ∃ r row, (b.RemovesInline t (s.rows t) r row ∨ b.RemovesFile t (s.rows t) r row) ∧
      index.rowEntry (s.columns t) t true r row = .ok e)

theorem upkeepEntries_upkeep (hids : s.DistinctIndexes) (hindex : index ∈ s.indexesOf t)
    {entries : List StagedIndexEntry} (h : upkeepEntries s store b = .ok entries) :
    Upkeep s b t index entries := by
  unfold upkeepEntries at h
  split at h
  · cases h
  split at h
  · cases h
  next adds hadds =>
  split at h
  · cases h
  next inlineRemovals hinline =>
  cases hfile : Results.gather (fun target => fileDeleteIndexEntries s store target.1 target.2 (killedRows s b target))
      ((fileDeleteTargets s b).filter (!registered b ·)) with
  | error e => rw [hfile] at h; cases h
  | ok fileRemovals =>
    rw [hfile] at h
    obtain rfl : adds ++ inlineRemovals ++ fileRemovals = entries := Except.ok.inj h
    have hfalse : ∀ {e : StagedIndexEntry}, e.indexId = index.id → e ∈ adds → e.delete = false := by
      intro e he hmem
      obtain ⟨-, r, row, -, hentry⟩ := (mem_adds_iff hids hindex he hadds).mp hmem
      exact (IndexInfo.rowEntry_fields hentry).2.1
    have htrue : ∀ {e : StagedIndexEntry}, e.indexId = index.id → e ∈ inlineRemovals ∨ e ∈ fileRemovals →
        e.delete = true := by
      rintro e he (hmem | hmem)
      · obtain ⟨r, row, -, hentry⟩ := (mem_inlineRemovals_iff hids hindex he hinline).mp hmem
        exact (IndexInfo.rowEntry_fields hentry).2.1
      · obtain ⟨r, row, -, hentry⟩ := (mem_fileRemovals_iff hids hindex he hfile).mp hmem
        exact (IndexInfo.rowEntry_fields hentry).2.1
    refine ⟨fun e he => ?_, fun e he => ?_⟩
    · rw [← mem_adds_iff hids hindex he hadds, List.append_assoc, List.mem_append, List.mem_append]
      constructor
      · rintro ⟨hmem | hmem, hdelete⟩
        · exact hmem
        · rw [htrue he hmem] at hdelete
          cases hdelete
      · exact fun hmem => ⟨.inl hmem, hfalse he hmem⟩
    · simp only [or_and_right, exists_or]
      rw [← mem_inlineRemovals_iff hids hindex he hinline, ← mem_fileRemovals_iff hids hindex he hfile,
        List.append_assoc, List.mem_append, List.mem_append]
      constructor
      · rintro ⟨hmem | hmem, hdelete⟩
        · rw [hfalse he hmem] at hdelete
          cases hdelete
        · exact hmem
      · exact fun hmem => ⟨.inr hmem, htrue he hmem⟩

end Upkeep

/-! ## What a commit does -/

/-- What a committed batch did, given the entries it derived. -/
structure Commits (s : RowStore) (b : StagedBatch) (s' : RowStore) (entries : List StagedIndexEntry)
    (poisoned deferred : List Nat) : Prop where
  stages : IndexEntries.StagesTo s.entries entries s'.entries poisoned
  advances : s.snapshotId < b.snapshotId
  snapshotId : s'.snapshotId = b.snapshotId
  translates : ∀ t, Translates b t (s.rows t) (s'.rows t)
  columns : s'.columns = s.columns
  indexes : s'.indexes = RowStore.applyDeferredMaintenance s.rows (RowStore.applyPoison s.indexes poisoned) deferred
    b.snapshotId
  deferred_iff : ∀ i, i ∈ deferred ↔ i ∈ deferredIndexes s b

theorem RowStore.commit_ok {s s' : RowStore} {store : Bool} {b : StagedBatch} (h : s.commit store b = .ok s') :
    ∃ entries poisoned deferred, upkeepEntries s store b = .ok entries ∧
      Commits s b s' entries poisoned deferred := by
  unfold RowStore.commit at h
  split at h
  · cases h
  next stored poisoned deferred hstage =>
  cases htranslate : translate s.snapshotId s.rows b with
  | error e => rw [htranslate] at h; cases h
  | ok rows =>
    rw [htranslate] at h
    cases h
    obtain ⟨hadvances, htranslates⟩ := translate_ok htranslate
    unfold stageIndexMaintenance at hstage
    split at hstage
    · cases hstage
    next entries hentries =>
    split at hstage
    · next hempty =>
      cases hstage
      rw [List.isEmpty_iff] at hempty
      subst hempty
      refine ⟨[], [], _, hentries, ⟨?_, ?_, ?_, ?_⟩, hadvances, rfl, htranslates, rfl, rfl, fun i => Iff.rfl⟩ <;>
        simp [IndexEntries.firstClaim]
    · cases hresolve : s.entries.stageIndexEntries entries with
      | error e => rw [hresolve] at hstage; cases hstage
      | ok resolved =>
        obtain ⟨stored', poisoned'⟩ := resolved
        rw [hresolve] at hstage
        cases hstage
        exact ⟨entries, _, _, hentries, IndexEntries.stageIndexEntries_stagesTo hresolve, hadvances, rfl, htranslates,
          rfl, rfl, fun i => by simp⟩

section Commits

variable {s s' : RowStore} {b : StagedBatch} {entries : List StagedIndexEntry} {poisoned deferred : List Nat}
  {t : Nat} {index : IndexInfo}

/-- A collision never poisons a ready index: it fails the commit. -/
theorem Commits.not_poisoned (h : Commits s b s' entries poisoned deferred) (hupkeep : Upkeep s b t index entries)
    (hready : index.state = .ready) : index.id ∉ poisoned := by
  intro hmem
  obtain ⟨e, he, hput, -, hbuilding, hid, -⟩ := h.stages.cause _ hmem
  obtain ⟨-, r, row, -, hentry⟩ := (hupkeep.put_iff e hid).mp ⟨he, by simpa using hput⟩
  unfold IndexInfo.rowEntry at hentry
  cases hkey : index.rowKey (s.columns t) t row with
  | error err => rw [hkey] at hentry; cases hentry
  | ok x =>
    rw [hkey] at hentry
    cases hentry
    simp [hready] at hbuilding

/-- The row of every unique put holds its value after the commit. -/
theorem Commits.holds_put (h : Commits s b s' entries poisoned deferred) (hupkeep : Upkeep s b t index entries)
    (hready : index.state = .ready) {e : StagedIndexEntry} (he : e ∈ entries) (hid : e.indexId = index.id)
    (hput : e.delete = false) (hunique : e.unique) : s'.entries.unique[e.uniqueKey]? = some e.rowId := by
  rcases h.stages.settled e he (by simp [hput]) hunique with hpoisoned | hholds
  · exact absurd (hid ▸ hpoisoned) (h.not_poisoned hupkeep hready)
  · exact hholds

end Commits

end Moraine
