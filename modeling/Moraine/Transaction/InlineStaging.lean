-- SUMMARY: The inline records a verb commit writes, and which flushes keep every inlined row.
import Moraine.Base.Results
import Moraine.Catalog.InlineStore
import Moraine.Transaction.VerbEffects

/-!
# Inline records of verb commits

The verbs stage inline operations on their transaction; when the commit is staged they become writes of the
`inline` subspace, read against the store as it stood before the commit. A flush names a table and a schema
version: what it drains is decided by the chunks stored when it commits, while the files its rows went to
were written before.

`flush_loses_no_row_iff` says for which commits every live inlined row is afterwards in a chunk or in the
range of a file that the flush registers: those whose files cover the live rows stored when they commit.
-/

namespace Moraine

open Std (ExtTreeMap ExtTreeSet TransOrd LawfulEqOrd)
open OrdMap Results

/-- A row of an Arrow body, by its position. -/
abbrev ArrowRow := List UInt8 × Nat

def arrowRows (arrowBody : List UInt8) (rowCount : Nat) : List ArrowRow := (List.range rowCount).map (arrowBody, ·)

namespace InlineStore

/-! ## Staging -/

/-- A version's schema is written with its first chunk and never changed. -/
def schemaWriteIfNew (s : InlineStore ArrowRow) (table schemaVersion : Nat) (arrowSchema : List UInt8) :
    Except Error (List (InlineStoreWrite ArrowRow)) :=
  match (s.table table).schemas[schemaVersion]? with
  | some recorded =>
    if recorded = arrowSchema then .ok []
    else .error (.constraint
      (s!"table {table} already records a different schema for version {schemaVersion}; " ++
        s!"a version's schema is fixed once its first chunk is written"))
  | none => .ok [(table, .schema schemaVersion (some arrowSchema))]

/-- Refuses a commit that tombstones a row its own flush drains. -/
def refuseTombstonesOfDrainedRows (table : Nat) (drained : ExtTreeSet Nat) (ops : List InlineStage) :
    Except Error Unit :=
  let tombstoned := ops.findSome? fun
    | .tombstone tombstonedTable rowId _ =>
      if tombstonedTable = table ∧ drained.contains rowId then some rowId else none
    | _ => none
  match tombstoned with
  | some rowId => .error (.constraint
      (s!"inline_delete of row {rowId} on table {table} in the commit that flushes it; " ++
        s!"the row is live in the flushed file, so delete it with a delete file against that file instead"))
  | none => .ok ()

/-- Translates the operations of `ops` from one on. `settled` are the versions whose schema this commit has
    already dealt with. -/
def stageInlineWritesFrom (s : InlineStore ArrowRow) (ops : List InlineStage) :
    ExtTreeSet (Nat × Nat) → List InlineStage → Except Error (List (InlineStoreWrite ArrowRow))
  | _, [] => .ok []
  | settled, .schema table schemaVersion arrowSchema :: rest => do
    if settled.contains (table, schemaVersion) then s.stageInlineWritesFrom ops settled rest
    else
      let write ← s.schemaWriteIfNew table schemaVersion arrowSchema
      let writes ← s.stageInlineWritesFrom ops (settled.insert (table, schemaVersion)) rest
      return write ++ writes
  | settled, .insert table schemaVersion beginSnapshot chunkSeq rowIdStart rowCount arrowBody :: rest => do
    let writes ← s.stageInlineWritesFrom ops settled rest
    return (table, .rows (.chunk (schemaVersion, beginSnapshot, chunkSeq)
      (some ⟨rowIdStart, arrowRows arrowBody rowCount⟩))) :: writes
  | settled, .tombstone table rowId endSnapshot :: rest => do
    let writes ← s.stageInlineWritesFrom ops settled rest
    return (table, .rows (.tombstone rowId (some endSnapshot))) :: writes
  | settled, .flush table schemaVersion flushSnapshot :: rest => do
    let removal := (s.table table).rows.translateInlineFlushDelete schemaVersion flushSnapshot
    refuseTombstonesOfDrainedRows table removal.2 ops
    let writes ← s.stageInlineWritesFrom ops settled rest
    return removal.1.map (fun write => (table, .rows write)) ++ writes

/-- The writes of a commit's inline operations. -/
def stageInlineWrites (s : InlineStore ArrowRow) (ops : List InlineStage) :
    Except Error (List (InlineStoreWrite ArrowRow)) :=
  s.stageInlineWritesFrom ops ∅ ops

/-- Runs the calls on the head view and lands the inline records they stage. -/
def commitCalls (s : InlineStore ArrowRow) (base : CatalogSnapshot) (calls : List Call) :
    Except Error (Transaction × InlineStore ArrowRow) :=
  match Call.runAll calls (.new base (base.snapshot.snapshotId + 1)) with
  | .error e _ => .error e
  | .ok _ tx => (s.stageInlineWrites tx.inlineOps).map fun writes => (tx, s.applyAll writes)

/-! ## What staging writes to the chunks -/

section Staging

variable {s : InlineStore ArrowRow} {all ops : List InlineStage} {settled : ExtTreeSet (Nat × Nat)}
  {ws : List (InlineStoreWrite ArrowRow)}

/-- A chunk write is an insert's, or the removal of a flush. -/
theorem mem_stageInlineWritesFrom (h : s.stageInlineWritesFrom all settled ops = .ok ws) (table : Nat)
    (key : InsertKey) (value : Option (InlineChunkValue ArrowRow)) :
    (table, .rows (.chunk key value)) ∈ ws ↔
      (∃ rowIdStart rowCount arrowBody,
        .insert table key.1 key.2.1 key.2.2 rowIdStart rowCount arrowBody ∈ ops ∧
          value = some ⟨rowIdStart, arrowRows arrowBody rowCount⟩) ∨
      (∃ schemaVersion flushSnapshot, .flush table schemaVersion flushSnapshot ∈ ops ∧ value = none ∧
        (s.table table).rows.chunks[key]? ≠ none ∧ key.drained schemaVersion flushSnapshot) := by
  induction ops generalizing settled ws with
  | nil =>
    cases h
    simp
  | cons op ops ih =>
    cases op with
    | schema t v arrowSchema =>
      rw [stageInlineWritesFrom] at h
      split at h
      · simpa using ih h
      · obtain ⟨write, hwrite, h⟩ := bind_eq_ok.mp h
        obtain ⟨writes, hrest, h⟩ := bind_eq_ok.mp h
        obtain rfl := Except.ok.inj h
        have hnone : (table, .rows (.chunk key value)) ∉ write := by
          unfold schemaWriteIfNew at hwrite
          split at hwrite
          · split at hwrite
            · cases hwrite
              simp
            · cases hwrite
          · cases hwrite
            simp
        rw [List.mem_append, or_iff_right hnone, ih hrest]
        simp
    | insert t v b q rowIdStart rowCount arrowBody =>
      obtain ⟨writes, hrest, h⟩ := bind_eq_ok.mp h
      obtain rfl := Except.ok.inj h
      rw [List.mem_cons, ih hrest]
      obtain ⟨kv, kb, kq⟩ := key
      simp only [List.mem_cons, Prod.mk.injEq, TableInlineWrite.rows.injEq, InlineWrite.chunk.injEq,
        InlineStage.insert.injEq, reduceCtorEq, false_or, ← or_assoc]
      refine or_congr_left ?_
      constructor
      · rintro (⟨rfl, ⟨rfl, rfl, rfl⟩, rfl⟩ | ⟨start, count, body, hmem, hvalue⟩)
        · exact ⟨_, _, _, .inl ⟨rfl, rfl, rfl, rfl, rfl, rfl, rfl⟩, rfl⟩
        · exact ⟨start, count, body, .inr hmem, hvalue⟩
      · rintro ⟨start, count, body, ⟨rfl, rfl, rfl, rfl, rfl, rfl, rfl⟩ | hmem, hvalue⟩
        · exact .inl ⟨rfl, ⟨rfl, rfl, rfl⟩, hvalue⟩
        · exact .inr ⟨start, count, body, hmem, hvalue⟩
    | tombstone t rowId e =>
      obtain ⟨writes, hrest, h⟩ := bind_eq_ok.mp h
      obtain rfl := Except.ok.inj h
      rw [List.mem_cons, ih hrest]
      simp
    | flush t v n =>
      obtain ⟨-, -, h⟩ := bind_eq_ok.mp h
      obtain ⟨writes, hrest, h⟩ := bind_eq_ok.mp h
      obtain rfl := Except.ok.inj h
      have hremoval : (table, TableInlineWrite.rows (.chunk key value)) ∈
          ((s.table t).rows.translateInlineFlushDelete v n).1.map (fun write => (t, .rows write)) ↔
            table = t ∧ value = none ∧ (s.table t).rows.chunks[key]? ≠ none ∧ key.drained v n := by
        rw [← InlineTable.mem_translateInlineFlushDelete]
        constructor
        · intro hmem
          obtain ⟨write, hwrite, heq⟩ := List.mem_map.mp hmem
          cases heq
          exact ⟨rfl, hwrite⟩
        · rintro ⟨rfl, hmem⟩
          exact List.mem_map.mpr ⟨_, hmem, rfl⟩
      rw [List.mem_append, ih hrest, hremoval]
      simp only [List.mem_cons, reduceCtorEq, false_or, InlineStage.flush.injEq]
      rw [or_left_comm]
      refine or_congr_right ?_
      constructor
      · rintro (⟨rfl, hkey⟩ | ⟨v', n', hmem, hkey⟩)
        · exact ⟨v, n, .inl ⟨rfl, rfl, rfl⟩, hkey⟩
        · exact ⟨v', n', .inr hmem, hkey⟩
      · rintro ⟨v', n', ⟨rfl, rfl, rfl⟩ | hmem, hkey⟩
        · exact .inl ⟨rfl, hkey⟩
        · exact .inr ⟨v', n', hmem, hkey⟩

end Staging

end InlineStore

/-! ## What the inline verbs stage -/

namespace Transaction

/-- The transaction holds, under an id from `firstId` on, a record of the file's row-id range. -/
def Registered (tx : Transaction) (firstId table : Nat) (flush : FlushedDataFile) : Prop :=
  ∃ id record, firstId ≤ id ∧ id < tx.nextFileId ∧ getNested tx.state.dataFiles table id = some record ∧
    record.rowIdStart = some flush.rowIdStart ∧ record.recordCount = flush.file.recordCount

/-- File ids only grow, and the files registered so far stay as they are. -/
structure FilesKept (tx tx' : Transaction) : Prop where
  nextFileId : tx.nextFileId ≤ tx'.nextFileId
  files : ∀ table id, id < tx.nextFileId →
    getNested tx'.state.dataFiles table id = getNested tx.state.dataFiles table id

theorem FilesKept.trans {tx tx₁ tx₂ : Transaction} (h : FilesKept tx tx₁) (h' : FilesKept tx₁ tx₂) :
    FilesKept tx tx₂ :=
  ⟨h.nextFileId.trans h'.nextFileId,
    fun table id hid => (h'.files table id (hid.trans_le h.nextFileId)).trans (h.files table id hid)⟩

theorem FilesKept.of_eq {tx tx' : Transaction} (hid : tx'.nextFileId = tx.nextFileId)
    (hfiles : tx'.state.dataFiles = tx.state.dataFiles) : FilesKept tx tx' :=
  ⟨hid.ge, fun table id _ => by rw [hfiles]⟩

theorem Registered.kept {tx tx' : Transaction} {firstId table : Nat} {flush : FlushedDataFile}
    (h : tx.Registered firstId table flush) (hkept : FilesKept tx tx') : tx'.Registered firstId table flush := by
  obtain ⟨id, record, hfirst, hid, hrecord, hrange⟩ := h
  exact ⟨id, record, hfirst, hid.trans_le hkept.nextFileId, (hkept.files table id hid).trans hrecord, hrange⟩

theorem dataFiles_putFileStats (v : CatalogSnapshot) (table file : Nat) (entries : List FileColumnStats) :
    (putAll v (fileStatsRecords table file entries)).dataFiles = v.dataFiles := by
  induction entries generalizing v with
  | nil => rfl
  | cons entry entries ih => exact ih _

/-- Every file given to the registration gets its record. -/
theorem registered_of_flushed {table ceiling : Nat} {flushed : List FlushedDataFile} {tx tx' : Transaction}
    (h : FlushedFiles table ceiling flushed tx tx') :
    (tx'.inlineOps = tx.inlineOps ∧ tx'.chunkSeqs = tx.chunkSeqs ∧ tx'.newSnapshotId = tx.newSnapshotId) ∧
      FilesKept tx tx' ∧ ∀ flush ∈ flushed, tx'.Registered tx.nextFileId table flush := by
  induction h with
  | nil => exact ⟨⟨rfl, rfl, rfl⟩, .of_eq rfl rfl, fun flush hflush => by cases hflush⟩
  | @cons flush flushed tx tx' tstat partitionId _ _ ih =>
    obtain ⟨hsame, hkept, hrest⟩ := ih
    have hfiles : (flushedFile tx table flush tstat partitionId).state.dataFiles =
        putNested tx.state.dataFiles table tx.nextFileId (dataFileRecord tx.nextFileId table flush.beginSnapshot
          flush.file flush.rowIdStart partitionId flush.partialMax) := dataFiles_putFileStats _ _ _ _
    have hfirst : FilesKept tx (flushedFile tx table flush tstat partitionId) := by
      refine ⟨Nat.le_succ _, fun t id hid => ?_⟩
      rw [hfiles, getNested_putNested, if_neg (by omega)]
    refine ⟨hsame, hfirst.trans hkept, fun file hfile => ?_⟩
    rcases List.mem_cons.mp hfile with rfl | hfile
    · have hrecord := congrArg (getNested · table tx.nextFileId) hfiles
      rw [getNested_putNested, if_pos ⟨rfl, rfl⟩] at hrecord
      exact Registered.kept ⟨tx.nextFileId, _, le_rfl, Nat.lt_succ_self _, hrecord, rfl, rfl⟩ hkept
    · obtain ⟨id, record, hid, hrecord⟩ := hrest file hfile
      exact ⟨id, record, (Nat.le_succ _).trans hid, hrecord⟩

end Transaction

/-! ## Commits of inline verbs -/

/-- A call of an inline verb. -/
def Call.IsInline : Call → Prop
  | .inlineInsert _ _ _ => True
  | .inlineDelete _ _ _ => True
  | .flushInlinedData _ _ _ => True
  | _ => False

/-- The chunk an operation inserts. -/
def InlineStage.chunkKey : InlineStage → Option (Nat × InsertKey)
  | .insert table schemaVersion beginSnapshot chunkSeq _ _ _ => some (table, schemaVersion, beginSnapshot, chunkSeq)
  | _ => none

/-- The operations do not insert one chunk. -/
def InlineStage.Apart (op op' : InlineStage) : Prop := ∀ key, op.chunkKey = some key → op'.chunkKey ≠ some key

instance : Std.Symm InlineStage.Apart := ⟨fun _ _ h key hkey hkey' => h key hkey' hkey⟩

/-- What a transaction that mints `snapshotId` has staged after the calls of inline verbs, on a base whose
    next file id is `fileId`. -/
structure Transaction.Stages (fileId snapshotId : Nat) (calls : List Call) (tx : Transaction) : Prop where
  newSnapshotId : tx.newSnapshotId = snapshotId
  firstId : fileId ≤ tx.nextFileId
  inserts : ∀ table schemaVersion beginSnapshot chunkSeq rowIdStart rowCount arrowBody,
    .insert table schemaVersion beginSnapshot chunkSeq rowIdStart rowCount arrowBody ∈ tx.inlineOps →
      beginSnapshot = snapshotId ∧ chunkSeq < tx.chunkSeqs.getD (table, schemaVersion) 0
  distinct : tx.inlineOps.Pairwise InlineStage.Apart
  flushes : ∀ table schemaVersion flushSnapshot, .flush table schemaVersion flushSnapshot ∈ tx.inlineOps ↔
    flushSnapshot = snapshotId ∧ ∃ flushed, .flushInlinedData table schemaVersion flushed ∈ calls
  registered : ∀ table schemaVersion flushed, .flushInlinedData table schemaVersion flushed ∈ calls →
    ∀ flush ∈ flushed, tx.Registered fileId table flush

namespace Transaction.Stages

variable {fileId snapshotId : Nat} {calls : List Call} {tx tx' : Transaction}

/-- A call that stages `added`: its chunks take sequence numbers of their own, and it drains only as a flush
    that registers its files. -/
theorem extend {call : Call} {added : List InlineStage} (h : tx.Stages fileId snapshotId calls)
    (hops : tx'.inlineOps = tx.inlineOps ++ added) (hnew : tx'.newSnapshotId = tx.newSnapshotId)
    (hkept : FilesKept tx tx')
    (hseqs : ∀ key, tx.chunkSeqs.getD key 0 ≤ tx'.chunkSeqs.getD key 0)
    (hinserts : ∀ table schemaVersion beginSnapshot chunkSeq rowIdStart rowCount arrowBody,
      .insert table schemaVersion beginSnapshot chunkSeq rowIdStart rowCount arrowBody ∈ added →
        beginSnapshot = tx.newSnapshotId ∧ tx.chunkSeqs.getD (table, schemaVersion) 0 ≤ chunkSeq ∧
          chunkSeq < tx'.chunkSeqs.getD (table, schemaVersion) 0)
    (hdistinct : added.Pairwise InlineStage.Apart)
    (hflushes : ∀ table schemaVersion flushSnapshot, .flush table schemaVersion flushSnapshot ∈ added ↔
      flushSnapshot = tx.newSnapshotId ∧ ∃ flushed, call = .flushInlinedData table schemaVersion flushed)
    (hregistered : ∀ table schemaVersion flushed, call = .flushInlinedData table schemaVersion flushed →
      ∀ flush ∈ flushed, tx'.Registered tx.nextFileId table flush) :
    tx'.Stages fileId snapshotId (calls ++ [call]) where
  newSnapshotId := hnew.trans h.newSnapshotId
  firstId := h.firstId.trans hkept.nextFileId
  inserts := by
    intro table version b q start count body hmem
    rw [hops, List.mem_append] at hmem
    rcases hmem with hmem | hmem
    · obtain ⟨hb, hq⟩ := h.inserts table version b q start count body hmem
      exact ⟨hb, hq.trans_le (hseqs _)⟩
    · obtain ⟨hb, -, hq⟩ := hinserts table version b q start count body hmem
      exact ⟨hb.trans h.newSnapshotId, hq⟩
  distinct := by
    rw [hops, List.pairwise_append]
    refine ⟨h.distinct, hdistinct, fun op hop op' hop' key hopkey hopkey' => ?_⟩
    cases op with
    | insert table version b q start count body =>
      cases op' with
      | insert table' version' b' q' start' count' body' =>
        rw [← hopkey'] at hopkey
        cases hopkey
        have hlt := (h.inserts _ _ _ _ _ _ _ hop).2
        have hle := (hinserts _ _ _ _ _ _ _ hop').2.1
        omega
      | _ => cases hopkey'
    | _ => cases hopkey
  flushes := by
    intro table version n
    rw [hops, List.mem_append, h.flushes, hflushes, h.newSnapshotId]
    simp only [List.mem_append, List.mem_singleton, exists_or, and_or_left, @eq_comm _ call]
  registered := by
    intro table version flushed hmem flush hflush
    rcases List.mem_append.mp hmem with hmem | hmem
    · exact (h.registered table version flushed hmem flush hflush).kept hkept
    · obtain ⟨id, record, hfirst, hrecord⟩ :=
        hregistered table version flushed (List.mem_singleton.mp hmem).symm flush hflush
      exact ⟨id, record, h.firstId.trans hfirst, hrecord⟩

theorem run {call : Call} (h : tx.Stages fileId snapshotId calls) (hcall : call.IsInline)
    (hrun : call.run tx = .ok () tx') : tx'.Stages fileId snapshotId (calls ++ [call]) := by
  cases Call.effect_of_run call hrun with
  | inlineInsert _ _ =>
    refine h.extend rfl rfl (.of_eq rfl rfl) (fun key => ?_) ?_ ?_ ?_ ?_
    · simp only [insertedChunk, ExtTreeMap.getD_insert]
      split
      · next hkey =>
        rw [Std.LawfulEqCmp.compare_eq_iff_eq] at hkey
        rw [hkey]
        exact Nat.le_succ _
      · exact le_rfl
    · intro t version b q start count body hmem
      simp only [List.mem_cons, List.not_mem_nil, or_false, reduceCtorEq, false_or, InlineStage.insert.injEq] at hmem
      obtain ⟨rfl, rfl, rfl, rfl, -⟩ := hmem
      exact ⟨rfl, le_rfl, by simp [insertedChunk]⟩
    · simp [InlineStage.Apart, InlineStage.chunkKey]
    · simp
    · simp
  | inlineDelete _ _ =>
    refine h.extend rfl rfl (.of_eq rfl rfl) (fun _ => le_rfl) ?_ ?_ ?_ ?_
    · simp
    · exact List.pairwise_singleton _ _
    · simp
    · simp
  | @flushInlinedData _ _ flushed _ _ _ _ files =>
    obtain ⟨⟨hops, hseqs, hnew⟩, hkept, hregistered⟩ := registered_of_flushed files
    refine h.extend (by rw [hops, hnew]) hnew (hkept.trans (.of_eq rfl rfl)) (fun key => by rw [hseqs]) ?_ ?_ ?_ ?_
    · simp
    · exact List.pairwise_singleton _ _
    · intro t version n
      simp only [List.mem_singleton, InlineStage.flush.injEq, Call.flushInlinedData.injEq]
      constructor
      · rintro ⟨rfl, rfl, rfl⟩
        exact ⟨rfl, flushed, rfl, rfl, rfl⟩
      · rintro ⟨rfl, _, rfl, rfl, -⟩
        exact ⟨rfl, rfl, rfl⟩
    · intro t version files heq flush hflush
      cases heq
      exact (hregistered flush hflush).kept (.of_eq rfl rfl)
  | _ => cases hcall

theorem runAll {more : List Call} (h : tx.Stages fileId snapshotId calls) (hmore : ∀ c ∈ more, c.IsInline)
    (hrun : Call.runAll more tx = .ok () tx') : tx'.Stages fileId snapshotId (calls ++ more) := by
  induction more generalizing tx calls with
  | nil =>
    cases hrun
    rw [List.append_nil]
    exact h
  | cons call more ih =>
    obtain ⟨_, tx₁, hcall, hrest⟩ := state_bind_eq_ok.mp hrun
    have hstep := h.run (hmore call List.mem_cons_self) hcall
    have := ih hstep (fun c hc => hmore c (List.mem_cons_of_mem _ hc)) hrest
    rwa [List.append_assoc] at this

theorem new (base : CatalogSnapshot) (snapshotId : Nat) :
    (Transaction.new base snapshotId).Stages base.snapshot.nextFileId snapshotId [] where
  newSnapshotId := rfl
  firstId := le_rfl
  inserts := by simp [Transaction.new]
  distinct := by simp [Transaction.new]
  flushes := by simp [Transaction.new]
  registered := by simp

end Transaction.Stages

/-! ## Which flushes keep every row -/

/-- The inline store after commits of inline verbs and other commits that leave it alone, with the head
    snapshot. A commit that lost a race appears as the run that landed, on the head that won. -/
inductive InlineRun : Nat → InlineStore ArrowRow → Prop where
  | start : InlineRun 0 {}
  | commit {head : Nat} {s s' : InlineStore ArrowRow} {base : CatalogSnapshot} {calls : List Call}
      {tx : Transaction} : InlineRun head s → base.snapshot.snapshotId = head → (∀ c ∈ calls, c.IsInline) →
      s.commitCalls base calls = .ok (tx, s') → InlineRun (head + 1) s'
  | other {head head' : Nat} {s : InlineStore ArrowRow} : InlineRun head s → head ≤ head' → InlineRun head' s

/-- A row-id range that contains the row. -/
def FlushedDataFile.Covers (flush : FlushedDataFile) (rowId : Nat) : Prop :=
  flush.rowIdStart ≤ rowId ∧ rowId < flush.rowIdStart + flush.file.recordCount

namespace InlineStore

/-- The chunk under `key` is stored and shows `row` at `snapshot`. -/
def Shown (s : InlineStore ArrowRow) (snapshot table : Nat) (key : InsertKey) (rowId : Nat) (row : ArrowRow) : Prop :=
  ∃ chunk, (s.table table).rows.chunks[key]? = some chunk ∧ chunk.rowAt rowId = some row ∧
    VersionLog.Shows (s.table table).rows.tombstones[rowId]? snapshot (key.beginSnapshot, row)

/-- The row is in the chunk under `key`. -/
def InChunk (s : InlineStore ArrowRow) (table : Nat) (key : InsertKey) (rowId : Nat) (row : ArrowRow) : Prop :=
  ∃ chunk, (s.table table).rows.chunks[key]? = some chunk ∧ chunk.rowAt rowId = some row

/-- Every row that was live at the head, and every row the commit inlined, is afterwards in its chunk or
    covered by a file that a flush of its schema version registers. -/
def LosesNoRow (s s' : InlineStore ArrowRow) (base : CatalogSnapshot) (calls : List Call) (tx : Transaction) : Prop :=
  (∀ table key rowId row, s.Shown base.snapshot.snapshotId table key rowId row →
    s'.InChunk table key rowId row ∨
      ∃ flushed, .flushInlinedData table key.1 flushed ∈ calls ∧ ∃ flush ∈ flushed,
        flush.Covers rowId ∧ tx.Registered base.snapshot.nextFileId table flush) ∧
  ∀ table schemaVersion beginSnapshot chunkSeq rowIdStart rowCount arrowBody,
    .insert table schemaVersion beginSnapshot chunkSeq rowIdStart rowCount arrowBody ∈ tx.inlineOps →
      ∀ i < rowCount, s'.InChunk table (schemaVersion, beginSnapshot, chunkSeq) (rowIdStart + i) (arrowBody, i)

section Commit

variable {s s' : InlineStore ArrowRow} {base : CatalogSnapshot} {calls : List Call} {tx : Transaction}

/-- A commit of inline verbs lands the writes its calls staged. -/
theorem commitCalls_eq_ok (h : s.commitCalls base calls = .ok (tx, s')) (hcalls : ∀ c ∈ calls, c.IsInline) :
    tx.Stages base.snapshot.nextFileId (base.snapshot.snapshotId + 1) calls ∧
      ∃ ws, s.stageInlineWrites tx.inlineOps = .ok ws ∧ s' = s.applyAll ws := by
  unfold commitCalls at h
  split at h
  · cases h
  · next tx₁ hrun =>
    obtain ⟨ws, hws, heq⟩ := map_eq_ok.mp h
    cases heq
    exact ⟨(Transaction.Stages.new base _).runAll hcalls hrun, ws, hws, rfl⟩

/-- A chunk of an earlier snapshot is stored after the commit unless a flush drains its schema version. -/
theorem commitCalls_chunk (h : s.commitCalls base calls = .ok (tx, s')) (hcalls : ∀ c ∈ calls, c.IsInline)
    {key : InsertKey} (hkey : key.beginSnapshot ≤ base.snapshot.snapshotId) (table : Nat)
    (chunk : InlineChunkValue ArrowRow) :
    (s'.table table).rows.chunks[key]? = some chunk ↔ (s.table table).rows.chunks[key]? = some chunk ∧
      ∀ flushed, .flushInlinedData table key.1 flushed ∉ calls := by
  obtain ⟨hstages, ws, hws, rfl⟩ := commitCalls_eq_ok h hcalls
  have hmem := mem_stageInlineWritesFrom hws table key
  rw [applyAll_chunk, and_congr_right_iff]
  · intro hchunk
    rw [hmem]
    simp only [reduceCtorEq, and_false, exists_false, false_or, true_and, hchunk, ne_eq, not_false_eq_true,
      hstages.flushes, InsertKey.drained, decide_eq_true_eq, Bool.and_eq_true]
    constructor
    · intro hnone flushed hflush
      exact hnone ⟨key.1, _, ⟨rfl, flushed, hflush⟩, rfl, hkey.trans (Nat.le_succ _)⟩
    · rintro hnone ⟨version, n, ⟨-, flushed, hflush⟩, rfl, -⟩
      exact hnone flushed hflush
  · intro value hput
    rcases (hmem (some value)).mp hput with ⟨start, count, body, hop, -⟩ | ⟨-, -, -, hvalue, -⟩
    · have hbegin : key.beginSnapshot = _ := (hstages.inserts _ _ _ _ _ _ _ hop).1
      omega
    · cases hvalue

end Commit

end InlineStore

theorem InlineRun.begins {head : Nat} {s : InlineStore ArrowRow} (h : InlineRun head s) (table : Nat)
    (key : InsertKey) (hkey : (s.table table).rows.chunks[key]? ≠ none) : key.beginSnapshot ≤ head := by
  induction h generalizing key with
  | start => simp [InlineStore.table] at hkey
  | @commit head s s' base calls tx hrun hbase hcalls hcommit ih =>
    by_contra hlate
    obtain ⟨hstages, ws, hws, rfl⟩ := InlineStore.commitCalls_eq_ok hcommit hcalls
    obtain ⟨chunk, hchunk⟩ := Option.ne_none_iff_exists'.mp hkey
    rw [InlineStore.applyAll_chunk] at hchunk
    · have := ih key (by rw [hchunk.1]; simp)
      omega
    · intro value hput
      rcases (InlineStore.mem_stageInlineWritesFrom hws table key _).mp hput with
        ⟨start, count, body, hop, -⟩ | ⟨-, -, -, hvalue, -⟩
      · have hbegin : key.beginSnapshot = _ := (hstages.inserts _ _ _ _ _ _ _ hop).1
        omega
      · cases hvalue
  | other hrun hle ih => exact (ih key hkey).trans hle

/-- A commit of inline verbs loses no row if and only if, for each row live at the head in a chunk it drains,
    some file given to a flush of that schema version covers the row. -/
theorem flush_loses_no_row_iff {head : Nat} {s s' : InlineStore ArrowRow} {base : CatalogSnapshot}
    {calls : List Call} {tx : Transaction} (hrun : InlineRun head s) (hbase : base.snapshot.snapshotId = head)
    (hcalls : ∀ c ∈ calls, c.IsInline) (hcommit : s.commitCalls base calls = .ok (tx, s')) :
    s.LosesNoRow s' base calls tx ↔ ∀ table key rowId row, s.Shown head table key rowId row →
      (∃ flushed, .flushInlinedData table key.1 flushed ∈ calls) →
        ∃ flushed, .flushInlinedData table key.1 flushed ∈ calls ∧ ∃ flush ∈ flushed, flush.Covers rowId := by
  subst hbase
  obtain ⟨hstages, ws, hws, happlied⟩ := InlineStore.commitCalls_eq_ok hcommit hcalls
  constructor
  · rintro ⟨hkept, -⟩ table key rowId row hshown ⟨flushed, hflushed⟩
    obtain ⟨chunk, hchunk, -, -⟩ := id hshown
    have hbegin := hrun.begins table key (by rw [hchunk]; simp)
    rcases hkept table key rowId row hshown with ⟨chunk', hchunk', -⟩ | ⟨files, hfiles, flush, hflush, hcovers, -⟩
    · have := ((InlineStore.commitCalls_chunk hcommit hcalls hbegin table chunk').mp hchunk').2
      exact absurd hflushed (this flushed)
    · exact ⟨files, hfiles, flush, hflush, hcovers⟩
  · intro hcovered
    refine ⟨fun table key rowId row hshown => ?_, fun table version b q start count body hop i hi => ?_⟩
    · obtain ⟨chunk, hchunk, hrow, -⟩ := id hshown
      have hbegin := hrun.begins table key (by rw [hchunk]; simp)
      by_cases hflush : ∃ flushed, .flushInlinedData table key.1 flushed ∈ calls
      · obtain ⟨files, hfiles, flush, hflush, hcovers⟩ := hcovered table key rowId row hshown hflush
        exact .inr ⟨files, hfiles, flush, hflush, hcovers, hstages.registered _ _ _ hfiles flush hflush⟩
      · refine .inl ⟨chunk, ?_, hrow⟩
        exact (InlineStore.commitCalls_chunk hcommit hcalls hbegin table chunk).mpr
          ⟨hchunk, fun flushed h => hflush ⟨flushed, h⟩⟩
    · have hb : b = base.snapshot.snapshotId + 1 := (hstages.inserts _ _ _ _ _ _ _ hop).1
      have hchunk : (s'.table table).rows.chunks[(version, b, q)]? = some ⟨start, arrowRows body count⟩ := by
        rw [happlied]
        refine InlineStore.applyAll_chunk_of_put (.inl ?_) fun value hvalue => ?_
        · exact (InlineStore.mem_stageInlineWritesFrom hws _ _ _).mpr (.inl ⟨start, count, body, hop, rfl⟩)
        · rcases (InlineStore.mem_stageInlineWritesFrom hws _ _ _).mp hvalue with
            ⟨start', count', body', hop', rfl⟩ | ⟨_, _, -, -, hstored, -⟩
          · -- The commit inserts one chunk under this key.
            by_contra hne
            have hapart := hstages.distinct.forall hop hop'
            refine hapart (fun heq => hne ?_) _ rfl rfl
            cases heq
            rfl
          · have hbegin : b ≤ _ := hrun.begins table (version, b, q) hstored
            omega
      refine ⟨_, hchunk, ?_⟩
      simp [InlineChunkValue.rowAt, arrowRows, hi]

/-! ## A row inlined after the files were written -/

namespace LateRow

/-- Table 1 has allocated the row ids below `rows` at the head `snapshotId`. -/
def view (snapshotId rows : Nat) : CatalogSnapshot :=
  { snapshot := { (default : SnapshotValue) with snapshotId := snapshotId }
    tables := (∅ : ExtTreeMap Nat TableValue).insert 1 default
    tableStats := (∅ : ExtTreeMap Nat TableStatsValue).insert 1 ⟨1, rows, rows, 0⟩ }

/-- Inlines one row. -/
def insertRow (byte : UInt8) : List Call := [.inlineInsert 1 ⟨0, [], [byte], 1⟩ []]

/-- Flushes schema version 0 into one file of row 0, written when that was the only row. -/
def flushFirst : List Call :=
  [.flushInlinedData 1 0 [
    { file :=
        { path := "f.parquet", pathIsRelative := true, fileFormat := "parquet", recordCount := 1, fileSizeBytes := 1
          footerSize := 1, encryptionKey := none, partitionValues := [], columnStats := [] }
      rowIdStart := 0, beginSnapshot := 1, partialMax := none }]]

/-- The store a commit leaves. -/
def landed (s : InlineStore ArrowRow) (base : CatalogSnapshot) (calls : List Call) : InlineStore ArrowRow :=
  match s.commitCalls base calls with
  | .ok x => x.2
  | .error _ => s

theorem commitCalls_landed (s : InlineStore ArrowRow) (base : CatalogSnapshot) (calls : List Call)
    (h : (s.commitCalls base calls).isOk = true) : ∃ tx, s.commitCalls base calls = .ok (tx, landed s base calls) := by
  unfold landed
  cases hcommit : s.commitCalls base calls with
  | error e => rw [hcommit] at h; cases h
  | ok x => exact ⟨x.1, rfl⟩

def one : InlineStore ArrowRow := landed {} (view 0 0) (insertRow 1)

def two : InlineStore ArrowRow := landed one (view 1 1) (insertRow 2)

theorem run_one : InlineRun 1 one := by
  obtain ⟨tx, h⟩ := commitCalls_landed {} (view 0 0) (insertRow 1) (by decide +kernel)
  exact .commit .start rfl (by simp [insertRow, Call.IsInline]) h

theorem run_two : InlineRun 2 two := by
  obtain ⟨tx, h⟩ := commitCalls_landed one (view 1 1) (insertRow 2) (by decide +kernel)
  exact .commit run_one rfl (by simp [insertRow, Call.IsInline]) h

/-- `flush_loses_no_row_iff` at the flush of the first row. -/
theorem flush_loses_no_row_iff_one :
    ∃ tx s', one.commitCalls (view 1 1) flushFirst = .ok (tx, s') ∧
      (one.LosesNoRow s' (view 1 1) flushFirst tx ↔ ∀ table key rowId row, one.Shown 1 table key rowId row →
        (∃ flushed, .flushInlinedData table key.1 flushed ∈ flushFirst) →
          ∃ flushed, .flushInlinedData table key.1 flushed ∈ flushFirst ∧ ∃ flush ∈ flushed, flush.Covers rowId) := by
  obtain ⟨tx, h⟩ := commitCalls_landed one (view 1 1) flushFirst (by decide +kernel)
  exact ⟨tx, _, h, flush_loses_no_row_iff run_one rfl (by simp [flushFirst, Call.IsInline]) h⟩

/-- The second row was inlined after the file was written: the flush drains it, and no file has it. -/
theorem flush_loses_late_row :
    ∃ tx s', InlineRun 2 two ∧ two.commitCalls (view 2 2) flushFirst = .ok (tx, s') ∧
      two.Shown 2 1 (0, 2, 0) 1 ([2], 0) ∧ ¬ s'.InChunk 1 (0, 2, 0) 1 ([2], 0) ∧
      ¬ two.LosesNoRow s' (view 2 2) flushFirst tx := by
  obtain ⟨tx, h⟩ := commitCalls_landed two (view 2 2) flushFirst (by decide +kernel)
  have hstored : (two.table 1).rows.chunks[((0, 2, 0) : InsertKey)]? = some ⟨1, [([2], 0)]⟩ := by decide +kernel
  have hlive : (two.table 1).rows.tombstones[1]? = none := by decide +kernel
  have hdrained : ((landed two (view 2 2) flushFirst).table 1).rows.chunks[((0, 2, 0) : InsertKey)]? = none := by
    decide +kernel
  have hshown : two.Shown 2 1 (0, 2, 0) 1 ([2], 0) := by
    refine ⟨_, hstored, rfl, le_rfl, fun e he => ?_⟩
    rw [hlive] at he
    cases he
  have hgone : ¬ (landed two (view 2 2) flushFirst).InChunk 1 (0, 2, 0) 1 ([2], 0) := by
    rintro ⟨chunk, hchunk, -⟩
    rw [hdrained] at hchunk
    cases hchunk
  refine ⟨tx, _, run_two, h, hshown, hgone, fun hkept => ?_⟩
  rcases hkept.1 1 (0, 2, 0) 1 ([2], 0) hshown with hchunk | ⟨flushed, hflushed, flush, hflush, hcovers, -⟩
  · exact hgone hchunk
  · simp only [flushFirst, List.mem_singleton, Call.flushInlinedData.injEq, true_and] at hflushed
    subst hflushed
    rw [List.mem_singleton.mp hflush] at hcovers
    exact absurd hcovers.2 (by simp)

end LateRow

end Moraine
