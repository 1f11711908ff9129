-- SUMMARY: Staged-row commits: the row operations of a batch, their translation, and the rows live after it.
import Moraine.Catalog.ScopedRead

/-!
# Staged-row commits

A staged-row transaction carries row operations its author wrote: data files and delete files to register
or to end, inlined chunks, tombstones of inlined rows, and inlined file-deletes. Ends apply before inserts,
whatever their order in the batch, and an insert under a live id is refused.

`TableRows.liveRows` are the rows a reader at the head sees. `Translates.live_iff` says where the rows live
after a batch come from: they survived it, it added them, or it brought them back.
-/

namespace Moraine

open Std (ExtTreeMap ExtTreeSet TransOrd LawfulEqOrd)
open OrdMap

/-- A registered data file, with the contents of the immutable object it names. -/
structure DataFileRows where
  recordCount : Nat
  rowIdStart : Option Nat
  object : DataObject
  deriving DecidableEq

/-- A registered delete file, with the positions it lists. -/
structure DeleteFileRows where
  dataFileId : Nat
  positions : List Nat
  deriving DecidableEq

/-- The stored rows of one table. -/
structure TableRows where
  inline : InlineTable Row := {}
  /-- The inlined file-deletes: data file and position, with the snapshot that recorded them. -/
  fileDeletes : ExtTreeMap (Nat × Nat) Nat := ∅
  dataFiles : ExtTreeMap Nat DataFileRows := ∅
  deleteFiles : ExtTreeMap Nat DeleteFileRows := ∅
  /-- The row-id counter of the table's statistics. -/
  nextRowId : Option Nat := none

/-- A staged row operation. -/
inductive RowOperation where
  | insertDataFile (tableId dataFileId : Nat) (file : DataFileRows)
  | insertDeleteFile (tableId deleteFileId : Nat) (file : DeleteFileRows)
  | insertTableStats (tableId nextRowId : Nat)
  | updateSetEndDataFile (tableId dataFileId : Nat)
  | updateSetEndDeleteFile (tableId deleteFileId : Nat)
  | inlineInsert (tableId schemaVersion rowIdStart : Nat) (body : List Row)
  | inlineInlineDelete (tableId rowId : Nat)
  | inlineFileDelete (tableId dataFileId position : Nat)

/-- The operations of one staged-row transaction. Its inline operations are stamped with `snapshotId`. -/
structure StagedBatch where
  snapshotId : Nat
  ops : List RowOperation
  /-- The tables the commit's recorded changes only compact. -/
  compacted : List Nat := []

/-- The catalog and store state a staged-row commit reads and writes. -/
structure RowStore where
  snapshotId : Nat
  indexes : List IndexValue
  /-- The live columns of each table, in order. -/
  columns : Nat → List Nat
  rows : Nat → TableRows
  entries : IndexEntries := {}

/-! ## What a batch names in one table -/

namespace RowOperation

variable (t : Nat)

def dataFile? : RowOperation → Option (Nat × DataFileRows)
  | insertDataFile tableId dataFileId file => if tableId = t then some (dataFileId, file) else none
  | _ => none

def deleteFile? : RowOperation → Option (Nat × DeleteFileRows)
  | insertDeleteFile tableId deleteFileId file => if tableId = t then some (deleteFileId, file) else none
  | _ => none

def endedDataFile? : RowOperation → Option Nat
  | updateSetEndDataFile tableId dataFileId => if tableId = t then some dataFileId else none
  | _ => none

def endedDeleteFile? : RowOperation → Option Nat
  | updateSetEndDeleteFile tableId deleteFileId => if tableId = t then some deleteFileId else none
  | _ => none

def inlineEdit? : RowOperation → Option (InlineEdit Row)
  | inlineInsert tableId schemaVersion rowIdStart body =>
    if tableId = t then some (.insert schemaVersion rowIdStart body) else none
  | inlineInlineDelete tableId rowId => if tableId = t then some (.delete rowId) else none
  | _ => none

def fileDelete? : RowOperation → Option (Nat × Nat)
  | inlineFileDelete tableId dataFileId position => if tableId = t then some (dataFileId, position) else none
  | _ => none

def chunk? : RowOperation → Option (InlineChunkValue Row)
  | inlineInsert tableId _ rowIdStart body => if tableId = t then some ⟨rowIdStart, body⟩ else none
  | _ => none

def tombstone? : RowOperation → Option Nat
  | inlineInlineDelete tableId rowId => if tableId = t then some rowId else none
  | _ => none

end RowOperation

/-! ## Translation -/

def refuseLiveId (table : String) (live : Bool) (named : String) : Except Error Unit :=
  if live then
    .error (.constraint (s!"{table}: {named} is already live; DuckLake authors this id and " ++
      s!"its own catalog would refuse the duplicate row"))
  else .ok ()

def corruptRow (table detail : String) : Error := .corruption s!"staged row for {table}: {detail}"

/-- Applies an end. An end names one row, which has to be live. -/
def applyUpdateSetEnd (rows : Nat → TableRows) : RowOperation → Except Error (Nat → TableRows)
  | .updateSetEndDataFile t f =>
    if f ∈ (rows t).dataFiles then
      .ok (Function.update rows t { rows t with dataFiles := (rows t).dataFiles.erase f })
    else .error (corruptRow "DataFile" s!"no live row to end for data file {f} of table {t}")
  | .updateSetEndDeleteFile t d =>
    if d ∈ (rows t).deleteFiles then
      .ok (Function.update rows t { rows t with deleteFiles := (rows t).deleteFiles.erase d })
    else .error (corruptRow "DeleteFile" s!"no live row to end for delete file {d} of table {t}")
  | _ => .ok rows

/-- Applies an insert. -/
def applyInsert (rows : Nat → TableRows) : RowOperation → Except Error (Nat → TableRows)
  | .insertDataFile t f file =>
    match refuseLiveId "DataFile" (f ∈ (rows t).dataFiles) s!"data_file_id {f}" with
    | .error e => .error e
    | .ok () => .ok (Function.update rows t { rows t with dataFiles := (rows t).dataFiles.insert f file })
  | .insertDeleteFile t d file =>
    match refuseLiveId "DeleteFile" (d ∈ (rows t).deleteFiles) s!"delete_file_id {d}" with
    | .error e => .error e
    | .ok () => .ok (Function.update rows t { rows t with deleteFiles := (rows t).deleteFiles.insert d file })
  | .insertTableStats t nextRowId =>
    .ok (Function.update rows t { rows t with nextRowId := some nextRowId })
  | _ => .ok rows

def applyOps (apply : (Nat → TableRows) → RowOperation → Except Error (Nat → TableRows)) :
    List RowOperation → (Nat → TableRows) → Except Error (Nat → TableRows)
  | [], rows => .ok rows
  | op :: ops, rows =>
    match apply rows op with
    | .error e => .error e
    | .ok rows => applyOps apply ops rows

/-- Writes the inline operations of one table. -/
def TableRows.writeInline (T : TableRows) (snapshotId : Nat) (ops : List RowOperation) (t : Nat) : TableRows :=
  { T with
    inline := T.inline.commit ⟨snapshotId, ops.filterMap (·.inlineEdit? t)⟩
    fileDeletes := (ops.filterMap (·.fileDelete? t)).foldl (fun m k => m.insert k snapshotId) T.fileDeletes }

def stagedLostRace (resultId : Nat) : Error :=
  .commitConflict (s!"a concurrent commit changed state this one read or wrote " ++
    s!"(attempted snapshot {resultId}); staged-row commits are never retried internally")

/-- The rows after a batch. Ends apply before inserts, independent of the emit order. -/
def translate (head : Nat) (base : Nat → TableRows) (b : StagedBatch) : Except Error (Nat → TableRows) :=
  if b.snapshotId ≤ head then .error (stagedLostRace b.snapshotId)
  else
    match applyOps applyUpdateSetEnd b.ops base with
    | .error e => .error e
    | .ok ended =>
      (applyOps applyInsert b.ops ended).map fun rows t => (rows t).writeInline b.snapshotId b.ops t

/-! ## Live rows -/

/-- The row at a position of a file, with its id. -/
def DataFileRows.rowAt (file : DataFileRows) (position : Nat) : Option (Nat × Row) :=
  file.object.rowAt (.resolve file.rowIdStart) position

namespace TableRows

variable (T : TableRows)

/-- Whether a delete file or an inlined file-delete names the position. -/
def isDead (f p : Nat) : Bool :=
  (T.deleteFiles.toList.any fun x => x.2.dataFileId = f && x.2.positions.contains p) ||
    T.fileDeletes.contains (f, p)

def liveFileRows (f : Nat) (file : DataFileRows) : List (Nat × Row) :=
  (List.range file.object.rows.length).filterMap fun p => if T.isDead f p then none else file.rowAt p

/-- The rows a reader at `snapshot` sees, with their ids. -/
def liveRows (snapshot : Nat) : List (Nat × Row) :=
  (T.inline.scanRecentRows snapshot).map (fun x => (x.rowId, x.row)) ++
    T.dataFiles.toList.flatMap fun x => T.liveFileRows x.1 x.2

/-- Some delete file out of `kept` or some inlined file-delete names the position. -/
def DeadBy (kept : Nat → Prop) (f p : Nat) : Prop :=
  (∃ d file, T.deleteFiles[d]? = some file ∧ kept d ∧ file.dataFileId = f ∧ p ∈ file.positions) ∨
    (f, p) ∈ T.fileDeletes

theorem isDead_iff (f p : Nat) : T.isDead f p ↔ T.DeadBy (fun _ => True) f p := by
  unfold isDead DeadBy
  simp only [Bool.or_eq_true, List.any_eq_true, Bool.and_eq_true, decide_eq_true_eq, Prod.exists,
    ExtTreeMap.mem_toList_iff_getElem?_eq_some, List.contains_iff_mem, true_and, ExtTreeMap.mem_iff_contains]

theorem mem_scanRecentRows_iff (snapshot r : Nat) (row : Row) :
    (r, row) ∈ (T.inline.scanRecentRows snapshot).map (fun x => (x.rowId, x.row)) ↔
      T.inline.Live snapshot r row := by
  have hmem : ∀ x : RecentRow Row, x ∈ T.inline.scanRecentRows snapshot ∧ x.rowId = r ↔
      ∃ y ∈ T.inline.versions r, VersionLog.Shows T.inline.tombstones[r]? snapshot y ∧ ⟨r, y.1, y.2⟩ = x := by
    intro x
    have hperm := (T.inline.filter_scanRecentRows snapshot r).mem_iff (a := x)
    simpa [and_assoc] using hperm
  constructor
  · intro h
    obtain ⟨x, hx, heq⟩ := List.mem_map.mp h
    cases heq
    obtain ⟨⟨b, row⟩, hv, hshows, heq⟩ := (hmem x).mp ⟨hx, rfl⟩
    exact ⟨b, by rw [← heq]; exact hv, by rw [← heq]; exact hshows⟩
  · rintro ⟨b, hv, hshows⟩
    exact List.mem_map.mpr ⟨⟨r, b, row⟩, ((hmem ⟨r, b, row⟩).mpr ⟨(b, row), hv, hshows, rfl⟩).1, rfl⟩

theorem mem_liveFileRows_iff (f : Nat) (file : DataFileRows) (x : Nat × Row) :
    x ∈ T.liveFileRows f file ↔ ∃ p, file.rowAt p = some x ∧ ¬ T.DeadBy (fun _ => True) f p := by
  unfold liveFileRows
  simp only [List.mem_filterMap, List.mem_range, ← isDead_iff]
  constructor
  · rintro ⟨p, -, hp⟩
    split at hp
    · cases hp
    · next hdead => exact ⟨p, hp, hdead⟩
  · rintro ⟨p, hp, hdead⟩
    refine ⟨p, ?_, by rw [if_neg hdead]; exact hp⟩
    exact DataObject.lt_length_of_rowAt hp

theorem mem_liveRows_iff (snapshot r : Nat) (row : Row) :
    (r, row) ∈ T.liveRows snapshot ↔ T.inline.Live snapshot r row ∨
      ∃ f file p, T.dataFiles[f]? = some file ∧ file.rowAt p = some (r, row) ∧
        ¬ T.DeadBy (fun _ => True) f p := by
  unfold liveRows
  rw [List.mem_append, mem_scanRecentRows_iff]
  simp only [List.mem_flatMap, mem_liveFileRows_iff, Prod.exists, ExtTreeMap.mem_toList_iff_getElem?_eq_some,
    exists_and_left]

end TableRows

/-! ## What a batch does to the rows of a table -/

namespace StagedBatch

variable (b : StagedBatch) (t : Nat)

def dataFiles : List (Nat × DataFileRows) := b.ops.filterMap (·.dataFile? t)

def deleteFiles : List (Nat × DeleteFileRows) := b.ops.filterMap (·.deleteFile? t)

def endedDataFiles : List Nat := b.ops.filterMap (·.endedDataFile? t)

def endedDeleteFiles : List Nat := b.ops.filterMap (·.endedDeleteFile? t)

def fileDeletes : List (Nat × Nat) := b.ops.filterMap (·.fileDelete? t)

def chunks : List (InlineChunkValue Row) := b.ops.filterMap (·.chunk? t)

def tombstones : List Nat := b.ops.filterMap (·.tombstone? t)

/-- A delete file or an inlined file-delete of the batch names the position. -/
def Kills (f p : Nat) : Prop :=
  (∃ x ∈ b.deleteFiles t, x.2.dataFileId = f ∧ p ∈ x.2.positions) ∨ (f, p) ∈ b.fileDeletes t

variable (T : TableRows) (r : Nat) (row : Row)

/-- A delete record that outlives the batch names the position. -/
def StillDead (f p : Nat) : Prop := T.DeadBy (· ∉ b.endedDeleteFiles t) f p

/-- A row the batch leaves alone. -/
def Survives (snapshot : Nat) : Prop :=
  T.inline.Live snapshot r row ∧ r ∉ b.tombstones t ∨
    ∃ f file p, T.dataFiles[f]? = some file ∧ f ∉ b.endedDataFiles t ∧ file.rowAt p = some (r, row) ∧
      ¬ T.DeadBy (fun _ => True) f p ∧ ¬ b.Kills t f p

/-- A row of a chunk the batch inserts. -/
def AddsInline : Prop := ∃ chunk ∈ b.chunks t, chunk.rowAt r = some row

/-- A row of a data file the batch registers, at a position that no delete record names. -/
def AddsFile : Prop :=
  ∃ f file p, (f, file) ∈ b.dataFiles t ∧ file.rowAt p = some (r, row) ∧ ¬ b.StillDead t T f p ∧ ¬ b.Kills t f p

/-- A dead row the batch brings back: it ends the delete files that name the row's position and registers
    none that does. -/
def Revives : Prop :=
  ∃ f file p, T.dataFiles[f]? = some file ∧ f ∉ b.endedDataFiles t ∧ file.rowAt p = some (r, row) ∧
    T.DeadBy (fun _ => True) f p ∧ ¬ b.StillDead t T f p ∧ ¬ b.Kills t f p

end StagedBatch

section Translate

variable {ops : List RowOperation} {rows rows' : Nat → TableRows} {op : RowOperation}

private theorem applyOps_induction {apply : (Nat → TableRows) → RowOperation → Except Error (Nat → TableRows)}
    {P : List RowOperation → (Nat → TableRows) → (Nat → TableRows) → Prop} (hnil : ∀ rows, P [] rows rows)
    (hcons : ∀ op ops rows rows₁ rows', apply rows op = .ok rows₁ → P ops rows₁ rows' → P (op :: ops) rows rows')
    (h : applyOps apply ops rows = .ok rows') : P ops rows rows' := by
  induction ops generalizing rows with
  | nil => cases h; exact hnil _
  | cons op ops ih =>
    rw [applyOps] at h
    split at h
    · cases h
    · next rows₁ hop => exact hcons op ops rows rows₁ rows' hop (ih h)

/-- What applying the ends of a batch does to one table. -/
private structure EndsTo (ops : List RowOperation) (t : Nat) (T T' : TableRows) : Prop where
  dataFiles : ∀ f, T'.dataFiles[f]? = if f ∈ ops.filterMap (·.endedDataFile? t) then none else T.dataFiles[f]?
  deleteFiles : ∀ d, T'.deleteFiles[d]? =
    if d ∈ ops.filterMap (·.endedDeleteFile? t) then none else T.deleteFiles[d]?
  inline : T'.inline = T.inline
  fileDeletes : T'.fileDeletes = T.fileDeletes

private theorem applyUpdateSetEnd_endsTo (t : Nat) (h : applyUpdateSetEnd rows op = .ok rows') :
    EndsTo [op] t (rows t) (rows' t) := by
  unfold applyUpdateSetEnd at h
  split at h
  · next tableId f =>
    split at h
    · cases h
      by_cases ht : t = tableId
      · subst ht
        constructor <;> simp [RowOperation.endedDataFile?, RowOperation.endedDeleteFile?]
      · constructor <;> simp [RowOperation.endedDataFile?, RowOperation.endedDeleteFile?, ht, Ne.symm ht]
    · cases h
  · next tableId d =>
    split at h
    · cases h
      by_cases ht : t = tableId
      · subst ht
        constructor <;> simp [RowOperation.endedDataFile?, RowOperation.endedDeleteFile?]
      · constructor <;> simp [RowOperation.endedDataFile?, RowOperation.endedDeleteFile?, ht, Ne.symm ht]
    · cases h
  · next hdata hdelete =>
    cases h
    cases op <;> first
      | exact absurd rfl (hdata _ _)
      | exact absurd rfl (hdelete _ _)
      | constructor <;> simp [RowOperation.endedDataFile?, RowOperation.endedDeleteFile?]

private theorem applyOps_endsTo (t : Nat) (h : applyOps applyUpdateSetEnd ops rows = .ok rows') :
    EndsTo ops t (rows t) (rows' t) := by
  refine applyOps_induction (P := fun ops rows rows' => EndsTo ops t (rows t) (rows' t)) ?_ ?_ h
  · intro rows
    constructor <;> simp
  · intro op ops rows rows₁ rows' hop hops
    have hfirst := applyUpdateSetEnd_endsTo t hop
    have hsplit : op :: ops = [op] ++ ops := rfl
    refine ⟨fun f => ?_, fun d => ?_, hops.inline.trans hfirst.inline, hops.fileDeletes.trans hfirst.fileDeletes⟩
    · rw [hops.dataFiles, hfirst.dataFiles, hsplit, List.filterMap_append]
      simp only [List.mem_append, or_comm, ite_or]
    · rw [hops.deleteFiles, hfirst.deleteFiles, hsplit, List.filterMap_append]
      simp only [List.mem_append, or_comm, ite_or]

/-- What applying the inserts of a batch does to one table. -/
private structure InsertsTo (ops : List RowOperation) (t : Nat) (T T' : TableRows) : Prop where
  dataFiles : ∀ f file, T'.dataFiles[f]? = some file ↔
    (f, file) ∈ ops.filterMap (·.dataFile? t) ∨ T.dataFiles[f]? = some file
  deleteFiles : ∀ d file, T'.deleteFiles[d]? = some file ↔
    (d, file) ∈ ops.filterMap (·.deleteFile? t) ∨ T.deleteFiles[d]? = some file
  inline : T'.inline = T.inline
  fileDeletes : T'.fileDeletes = T.fileDeletes

private theorem refuseLiveId_ok {table named : String} {live : Bool} {u : Unit}
    (h : refuseLiveId table live named = .ok u) : live = false := by
  unfold refuseLiveId at h
  split at h
  · cases h
  · next hlive => simpa using hlive

private theorem insert_new {α : Type} {m : ExtTreeMap Nat α} {k : Nat} (hnew : decide (k ∈ m) = false)
    (j : Nat) (a x : α) : (if j = k then some a else m[j]?) = some x ↔ j = k ∧ x = a ∨ m[j]? = some x := by
  have hnone : m[k]? = none := ExtTreeMap.getElem?_eq_none (of_decide_eq_false hnew)
  by_cases hj : j = k
  · subst hj
    simp [hnone, eq_comm]
  · simp [hj]

private theorem applyInsert_insertsTo (t : Nat) (h : applyInsert rows op = .ok rows') :
    InsertsTo [op] t (rows t) (rows' t) := by
  unfold applyInsert at h
  split at h
  · next tableId f file =>
    split at h
    · cases h
    · next hrefuse =>
      cases h
      by_cases ht : t = tableId
      · subst ht
        refine ⟨fun j x => ?_, ?_, ?_, ?_⟩
        · simp [insert_new (refuseLiveId_ok hrefuse), RowOperation.dataFile?]
        all_goals simp [RowOperation.deleteFile?]
      · constructor <;> simp [RowOperation.dataFile?, RowOperation.deleteFile?, ht, Ne.symm ht]
  · next tableId d file =>
    split at h
    · cases h
    · next hrefuse =>
      cases h
      by_cases ht : t = tableId
      · subst ht
        refine ⟨?_, fun j x => ?_, ?_, ?_⟩
        · simp [RowOperation.dataFile?]
        · simp [insert_new (refuseLiveId_ok hrefuse), RowOperation.deleteFile?]
        all_goals simp
      · constructor <;> simp [RowOperation.dataFile?, RowOperation.deleteFile?, ht, Ne.symm ht]
  · next tableId nextRowId =>
    cases h
    by_cases ht : t = tableId
    · subst ht
      constructor <;> simp [RowOperation.dataFile?, RowOperation.deleteFile?]
    · constructor <;> simp [RowOperation.dataFile?, RowOperation.deleteFile?, ht]
  · next hdata hdelete hstats =>
    cases h
    cases op <;> first
      | exact absurd rfl (hdata _ _ _)
      | exact absurd rfl (hdelete _ _ _)
      | constructor <;> simp [RowOperation.dataFile?, RowOperation.deleteFile?]

private theorem applyOps_insertsTo (t : Nat) (h : applyOps applyInsert ops rows = .ok rows') :
    InsertsTo ops t (rows t) (rows' t) := by
  refine applyOps_induction (P := fun ops rows rows' => InsertsTo ops t (rows t) (rows' t)) ?_ ?_ h
  · intro rows
    constructor <;> simp
  · intro op ops rows rows₁ rows' hop hops
    have hfirst := applyInsert_insertsTo t hop
    have hsplit : op :: ops = [op] ++ ops := rfl
    refine ⟨fun f file => ?_, fun d file => ?_, hops.inline.trans hfirst.inline,
      hops.fileDeletes.trans hfirst.fileDeletes⟩
    · rw [hops.dataFiles, hfirst.dataFiles, hsplit, List.filterMap_append, List.mem_append,
        or_left_comm, or_assoc]
    · rw [hops.deleteFiles, hfirst.deleteFiles, hsplit, List.filterMap_append, List.mem_append,
        or_left_comm, or_assoc]

/-- What a batch does to the rows of one table. -/
structure Translates (b : StagedBatch) (t : Nat) (T T' : TableRows) : Prop where
  dataFiles : ∀ f file, T'.dataFiles[f]? = some file ↔
    (f, file) ∈ b.dataFiles t ∨ T.dataFiles[f]? = some file ∧ f ∉ b.endedDataFiles t
  deleteFiles : ∀ d file, T'.deleteFiles[d]? = some file ↔
    (d, file) ∈ b.deleteFiles t ∨ T.deleteFiles[d]? = some file ∧ d ∉ b.endedDeleteFiles t
  fileDeletes : ∀ k, k ∈ T'.fileDeletes ↔ k ∈ b.fileDeletes t ∨ k ∈ T.fileDeletes
  inline : T'.inline = T.inline.commit ⟨b.snapshotId, b.ops.filterMap (·.inlineEdit? t)⟩

private theorem mem_foldl_insert (n : Nat) (keys : List (Nat × Nat)) (m : ExtTreeMap (Nat × Nat) Nat) (k : Nat × Nat) :
    k ∈ keys.foldl (fun m k => m.insert k n) m ↔ k ∈ keys ∨ k ∈ m := by
  induction keys generalizing m with
  | nil => simp
  | cons key keys ih =>
    rw [List.foldl_cons, ih, ExtTreeMap.mem_insert, List.mem_cons, Std.LawfulEqCmp.compare_eq_iff_eq, or_left_comm,
      or_assoc, eq_comm]

theorem translate_ok {head : Nat} {base : Nat → TableRows} {b : StagedBatch}
    (h : translate head base b = .ok rows') :
    head < b.snapshotId ∧ ∀ t, Translates b t (base t) (rows' t) := by
  unfold translate at h
  split at h
  · cases h
  next hhead =>
  refine ⟨not_le.mp hhead, fun t => ?_⟩
  split at h
  · cases h
  next ended hended =>
  cases hinserted : applyOps applyInsert b.ops ended with
  | error e => rw [hinserted] at h; cases h
  | ok inserted =>
    rw [hinserted] at h
    cases h
    have hend := applyOps_endsTo t hended
    have hins := applyOps_insertsTo t hinserted
    refine ⟨fun f file => ?_, fun d file => ?_, fun k => ?_, ?_⟩
    · refine (hins.dataFiles f file).trans (or_congr_right ?_)
      rw [hend.dataFiles, StagedBatch.endedDataFiles]
      split_ifs with hf <;> simp [hf]
    · refine (hins.deleteFiles d file).trans (or_congr_right ?_)
      rw [hend.deleteFiles, StagedBatch.endedDeleteFiles]
      split_ifs with hd <;> simp [hd]
    · rw [← hend.fileDeletes, ← hins.fileDeletes]
      exact mem_foldl_insert _ _ _ k
    · rw [← hend.inline, ← hins.inline]
      rfl

end Translate

section Live

variable {b : StagedBatch} {t : Nat} {T T' : TableRows}

private theorem inserts_iff (r : Nat) (row : Row) :
    InlineCommit.Inserts ⟨b.snapshotId, b.ops.filterMap (·.inlineEdit? t)⟩ r row ↔ b.AddsInline t r row := by
  unfold InlineCommit.Inserts StagedBatch.AddsInline StagedBatch.chunks
  simp only [List.mem_filterMap]
  constructor
  · rintro ⟨schemaVersion, rowIdStart, body, ⟨op, hop, hedit⟩, hrow⟩
    refine ⟨⟨rowIdStart, body⟩, ⟨op, hop, ?_⟩, hrow⟩
    cases op <;> simp_all [RowOperation.inlineEdit?, RowOperation.chunk?]
  · rintro ⟨chunk, ⟨op, hop, hchunk⟩, hrow⟩
    cases op with
    | inlineInsert tableId schemaVersion rowIdStart body =>
      rw [RowOperation.chunk?] at hchunk
      split at hchunk
      · next ht =>
        cases hchunk
        exact ⟨schemaVersion, rowIdStart, body, ⟨_, hop, by simp [RowOperation.inlineEdit?, ht]⟩, hrow⟩
      · cases hchunk
    | _ => cases hchunk

private theorem delete_mem_iff (r : Nat) :
    InlineEdit.delete r ∈ b.ops.filterMap (·.inlineEdit? t) ↔ r ∈ b.tombstones t := by
  unfold StagedBatch.tombstones
  simp only [List.mem_filterMap]
  refine exists_congr fun op => and_congr_right fun _ => ?_
  cases op <;> simp [RowOperation.inlineEdit?, RowOperation.tombstone?]

theorem Translates.dead_iff (h : Translates b t T T') (f p : Nat) :
    T'.DeadBy (fun _ => True) f p ↔ b.StillDead t T f p ∨ b.Kills t f p := by
  unfold StagedBatch.StillDead StagedBatch.Kills TableRows.DeadBy
  constructor
  · rintro (⟨d, file, hfile, -, hnames⟩ | hmem)
    · rcases (h.deleteFiles d file).mp hfile with hnew | ⟨hold, hended⟩
      · exact .inr (.inl ⟨(d, file), hnew, hnames⟩)
      · exact .inl (.inl ⟨d, file, hold, hended, hnames⟩)
    · rcases (h.fileDeletes _).mp hmem with hnew | hold
      · exact .inr (.inr hnew)
      · exact .inl (.inr hold)
  · rintro ((⟨d, file, hold, hended, hnames⟩ | hold) | (⟨⟨d, file⟩, hnew, hnames⟩ | hnew))
    · exact .inl ⟨d, file, (h.deleteFiles d file).mpr (.inr ⟨hold, hended⟩), trivial, hnames⟩
    · exact .inr ((h.fileDeletes _).mpr (.inr hold))
    · exact .inl ⟨d, file, (h.deleteFiles d file).mpr (.inl hnew), trivial, hnames⟩
    · exact .inr ((h.fileDeletes _).mpr (.inl hnew))

theorem StagedBatch.StillDead.dead {f p : Nat} (h : b.StillDead t T f p) : T.DeadBy (fun _ => True) f p :=
  h.imp_left fun ⟨d, file, hfile, _, hnames⟩ => ⟨d, file, hfile, trivial, hnames⟩

/-- Where the rows live after a batch come from. -/
theorem Translates.live_iff (h : Translates b t T T') {n : Nat} (hbound : T.inline.Bounded n)
    (hn : n < b.snapshotId) (r : Nat) (row : Row) :
    (r, row) ∈ T'.liveRows b.snapshotId ↔
      b.Survives t T r row n ∨ b.AddsInline t r row ∨ b.AddsFile t T r row ∨ b.Revives t T r row := by
  rw [TableRows.mem_liveRows_iff, h.inline, hbound.live_commit_iff hn, inserts_iff, delete_mem_iff]
  simp only [h.dead_iff, not_or]
  unfold StagedBatch.Survives StagedBatch.AddsFile StagedBatch.Revives
  constructor
  · rintro ((hlive | hadds) | ⟨f, file, p, hfile, hrow, hstill, hkills⟩)
    · exact .inl (.inl hlive)
    · exact .inr (.inl hadds)
    · rcases (h.dataFiles f file).mp hfile with hnew | ⟨hold, hended⟩
      · exact .inr (.inr (.inl ⟨f, file, p, hnew, hrow, hstill, hkills⟩))
      · by_cases hdead : T.DeadBy (fun _ => True) f p
        · exact .inr (.inr (.inr ⟨f, file, p, hold, hended, hrow, hdead, hstill, hkills⟩))
        · exact .inl (.inr ⟨f, file, p, hold, hended, hrow, hdead, hkills⟩)
  · rintro ((hlive | ⟨f, file, p, hold, hended, hrow, hdead, hkills⟩) | hadds |
      ⟨f, file, p, hnew, hrow, hstill, hkills⟩ | ⟨f, file, p, hold, hended, hrow, -, hstill, hkills⟩)
    · exact .inl (.inl hlive)
    · exact .inr ⟨f, file, p, (h.dataFiles f file).mpr (.inr ⟨hold, hended⟩), hrow, fun hstill => hdead hstill.dead,
        hkills⟩
    · exact .inl (.inr hadds)
    · exact .inr ⟨f, file, p, (h.dataFiles f file).mpr (.inl hnew), hrow, hstill, hkills⟩
    · exact .inr ⟨f, file, p, (h.dataFiles f file).mpr (.inr ⟨hold, hended⟩), hrow, hstill, hkills⟩

end Live

end Moraine
