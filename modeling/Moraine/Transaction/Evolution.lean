-- SUMMARY: What calls may write and remove, and what they make of the view a closure starts from.
import Moraine.Transaction.ColumnTrees
import Moraine.Transaction.VerbEffects

/-!
# What calls write and remove

Whatever a call does, the records it leaves are those it found and those it wrote. A record it wrote carries no end. It
begins at the commit's snapshot, unless it is a flushed file, and it has a key that was live, or ids that the call
allocated. Tables are removed by dropping them only, statistics of files and column mappings never. Invariants of the
records alone follow from this, and so does what a whole closure makes of the view it starts from.
-/

namespace Moraine

open OrdMap CatalogSnapshot Transaction

/-! ## Outcomes -/

/-- The transaction a call leaves, whether it returns or fails. -/
def Call.after (call : Call) (tx : Transaction) : Transaction :=
  match call.run tx with
  | .ok _ tx' => tx'
  | .error _ tx' => tx'

/-- The calls a closure makes, in order, each with whether the closure ends if the call fails or goes on. -/
def Call.runClosure : List (Call × Bool) → Verb Unit
  | [] => return ()
  | (call, ends) :: calls => (if ends then call.run else modify call.after) >>= fun _ => runClosure calls

/-- A call has its effect, or it fails and has changed nothing or a part. What holds of each holds after the call. -/
theorem Call.after_of {call : Call} {tx : Transaction} {p : Transaction → Prop}
    (heffect : ∀ {tx'}, Effect tx call tx' → p tx') (hidle : ∀ {tx'}, Idle tx tx' → p tx')
    (hstop : ∀ {tx'}, Partial tx call tx' → p tx') : p (call.after tx) := by
  unfold Call.after
  cases h : call.run tx with
  | ok u tx' => exact heffect (effect_of_run call h)
  | error e tx' => exact (idle_or_stopped call h).elim hidle hstop

/-! ## Written records -/

/-- The id under which the catalog counter hands the entity out. -/
def CurrentKey.catalogId : CurrentKey → Option Nat
  | .entity (.schema id) | .entity (.table id) | .entity (.view id) | .entity (.macroDef id)
  | .entity (.partition _ id) | .entity (.sort _ id) | .entity (.index _ id) => some id
  | _ => none

/-- The id under which the file counter hands the entity out. -/
def CurrentKey.fileId : CurrentKey → Option Nat
  | .entity (.file _ id) | .entity (.deleteFile _ id) | .entity (.fileColumnStats _ id _) => some id
  | _ => none

def CurrentKey.isColumn : CurrentKey → Bool
  | .entity (.column ..) => true
  | _ => false

/-- A record that only dropping a table removes, and that only if it is the table's own. -/
def CurrentKey.stays : CurrentKey → Bool
  | .entity (.table _) | .entity (.fileColumnStats ..) | .entity (.mapping ..) => true
  | _ => false

/-- A record that a commit at `n` may bring: of an unversioned kind, or begun at `n`, or a file with an id from
    `first` up to `next`, which a flush may begin earlier. -/
inductive Begun (n first next : Nat) : EntityRecord → Prop where
  | unversioned {r : EntityRecord} (h : r.lifecycle = none) : Begun n first next r
  | now {r : EntityRecord} (h : r.lifecycle = some (n, none)) (notFile : ∀ file, r ≠ .file file) : Begun n first next r
  | file {file : DataFileValue} (id : first ≤ file.dataFileId) (own : file.dataFileId < next)
      (begun : file.beginSnapshot ≤ n) (live : file.endSnapshot = none) : Begun n first next (.file file)

theorem Begun.isLive {n first next : Nat} {r : EntityRecord} (h : Begun n first next r) : isLive none r := by
  rw [isLive_none]
  cases h with
  | unversioned h => rw [h]; rfl
  | now h => rw [h]; rfl
  | file id own begun live => rw [EntityRecord.lifecycle, live]; rfl

theorem Begun.mono {n first next first' next' : Nat} {r : EntityRecord} (h : Begun n first next r)
    (hfirst : first' ≤ first) (hnext : next ≤ next') : Begun n first' next' r := by
  cases h with
  | unversioned h => exact .unversioned h
  | now h hnot => exact .now h hnot
  | file id own begun live => exact .file (hfirst.trans id) (own.trans_le hnext) begun live

/-- A record that a call which leads from `tx` to `tx'` may write. -/
structure Written (tx tx' : Transaction) (r : EntityRecord) : Prop where
  begun : Begun tx.newSnapshotId tx.nextFileId tx'.nextFileId r
  catalogId : ∀ id, r.key.catalogId = some id →
    (tx.state.get r.key).isSome ∨ tx.nextCatalogId ≤ id ∧ id < tx'.nextCatalogId
  fileId : ∀ id, r.key.fileId = some id → (tx.state.get r.key).isSome ∨ tx.nextFileId ≤ id ∧ id < tx'.nextFileId
  parent : ∀ c p, r = .column c → c.parentColumn = some p → p < c.columnId ∨
    ∃ c', tx.state.get r.key = some (.column c') ∧ c'.parentColumn = some p
  fileStats : ∀ t f c, r.key = .entity (.fileColumnStats t f c) → (tx.state.get (.entity (.table t))).isSome

/-- What a call that leads from `tx` to `tx'` has written and removed. -/
structure Evolves (tx : Transaction) (call : Call) (tx' : Transaction) : Prop where
  snapshot : tx'.newSnapshotId = tx.newSnapshotId
  catalogIds : tx.nextCatalogId ≤ tx'.nextCatalogId
  fileIds : tx.nextFileId ≤ tx'.nextFileId
  records : ∀ k r, tx'.state.get k = some r → tx.state.get k = some r ∨ r.key = k ∧ Written tx tx' r
  stays : ∀ k : CurrentKey, k.stays → (∀ t, call = .dropTable t → k ≠ .entity (.table t)) →
    (tx.state.get k).isSome → (tx'.state.get k).isSome

section Evolves

variable {tx tx' : Transaction} {call : Call} {r r' : EntityRecord}

/-- A new version of a live record. -/
theorem Written.again (hv : tx.state.Sound) {k : CurrentKey} (hlive : tx.state.get k = some r') (hkey : r.key = k)
    {begun : Nat} {ended : Option Nat} (hold : r'.lifecycle = some (begun, ended))
    (hnew : r.lifecycle = some (tx.newSnapshotId, ended)) (hcolumn : k.isColumn = false) (hfile : k.fileId = none) :
    Written tx tx' r where
  begun := .now (hv.unended hlive hold ▸ hnew) (by rintro _ rfl; rw [← hkey] at hfile; cases hfile)
  catalogId _ _ := .inl (by rw [hkey, hlive]; rfl)
  fileId _ hid := by rw [hkey, hfile] at hid; cases hid
  parent c _ hc := by rw [← hkey, hc] at hcolumn; cases hcolumn
  fileStats t f c hk := by rw [← hkey, hk] at hfile; cases hfile

/-- A record of a kind that no counter numbers. -/
theorem Written.unnumbered (hlife : r.lifecycle = none) (hcatalog : r.key.catalogId = none)
    (hfile : r.key.fileId = none) (hcolumn : r.key.isColumn = false) : Written tx tx' r where
  begun := .unversioned hlife
  catalogId id hid := by rw [hcatalog] at hid; cases hid
  fileId id hid := by rw [hfile] at hid; cases hid
  parent c _ hc := by rw [hc] at hcolumn; cases hcolumn
  fileStats t f c hk := by rw [hk] at hfile; cases hfile

/-- A record with the catalog id that was next. -/
theorem Written.allocated (hcatalog : r.key.catalogId = some tx.nextCatalogId)
    (hlife : r.lifecycle = some (tx.newSnapshotId, none)) (hnext : tx'.nextCatalogId = tx.nextCatalogId + 1)
    (hfile : r.key.fileId = none) (hcolumn : r.key.isColumn = false) : Written tx tx' r where
  begun := .now hlife (by rintro _ rfl; cases hfile)
  catalogId id hid := by
    obtain rfl := Option.some.inj (hcatalog.symm.trans hid)
    exact .inr ⟨Nat.le_refl _, by omega⟩
  fileId id hid := by rw [hfile] at hid; cases hid
  parent c _ hc := by rw [hc] at hcolumn; cases hcolumn
  fileStats t f c hk := by rw [hk] at hfile; cases hfile

/-- A new version of a live column, under the same parent. -/
theorem Written.column (hv : tx.state.Sound) {t d : Nat} {c c' : ColumnValue}
    (hlive : tx.state.get (.entity (.column t d)) = some (.column c'))
    (hkey : EntityRecord.key (.column c) = .entity (.column t d)) (hparent : c.parentColumn = c'.parentColumn)
    (hlife : (EntityRecord.column c).lifecycle = some (tx.newSnapshotId, c'.endSnapshot)) :
    Written tx tx' (.column c) where
  begun := .now (hv.unended hlive rfl ▸ hlife) (by rintro _ ⟨⟩)
  catalogId _ hid := by cases hid
  fileId _ hid := by cases hid
  parent _ p hc hp := by
    obtain rfl := EntityRecord.column.inj hc
    exact .inr ⟨c', hkey ▸ hlive, hparent ▸ hp⟩
  fileStats _ _ _ hk := by cases hk

/-- The record of a new column. -/
theorem Written.inTree {t id size : Nat} {c : ColumnValue} (h : InTree t tx.newSnapshotId none id size c) :
    Written tx tx' (.column c) where
  begun := .now h.begun (by rintro _ ⟨⟩)
  catalogId _ hid := by cases hid
  fileId _ hid := by cases hid
  parent _ p hc hp := by
    obtain rfl := EntityRecord.column.inj hc
    rcases h.parents with hnone | ⟨q, hq, -, hlt⟩
    · rw [hnone] at hp; cases hp
    · exact .inl (Option.some.inj (hq.symm.trans hp) ▸ hlt)
  fileStats _ _ _ hk := by cases hk

/-- A record with a file id that the call allocated. -/
theorem Written.file {id : Nat} (hbegun : Begun tx.newSnapshotId tx.nextFileId tx'.nextFileId r)
    (hfile : r.key.fileId = some id) (hfirst : tx.nextFileId ≤ id) (hlast : id < tx'.nextFileId)
    (hcatalog : r.key.catalogId = none) (hcolumn : r.key.isColumn = false)
    (hstats : ∀ t f c, r.key = .entity (.fileColumnStats t f c) → (tx.state.get (.entity (.table t))).isSome) :
    Written tx tx' r where
  begun := hbegun
  catalogId id' hid := by rw [hcatalog] at hid; cases hid
  fileId id' hid := by
    obtain rfl := Option.some.inj (hfile.symm.trans hid)
    exact .inr ⟨hfirst, hlast⟩
  parent c _ hc := by rw [hc] at hcolumn; cases hcolumn
  fileStats := hstats

/-- The second view is the first without some records, none of them of a kind that stays. -/
structure Trimmed (v w : CatalogSnapshot) : Prop where
  records : ∀ k r, w.get k = some r → v.get k = some r
  stays : ∀ k : CurrentKey, k.stays → w.get k = v.get k

theorem Trimmed.refl (v : CatalogSnapshot) : Trimmed v v := ⟨fun _ _ h => h, fun _ _ => rfl⟩

theorem trimmed_of_ite {v w : CatalogSnapshot} {D : CurrentKey → Prop} [DecidablePred D]
    (h : ∀ k, w.get k = if D k then none else v.get k) (hstays : ∀ k, D k → k.stays = false) : Trimmed v w where
  records _ _ := get_of_ite h
  stays k hk := by rw [h, if_neg fun hD => by rw [hstays k hD] at hk; cases hk]

/-- One record goes. -/
theorem trimmed_of_ne {v w : CatalogSnapshot} {k₀ : CurrentKey} (h : ∀ k, w.get k = if k = k₀ then none else v.get k)
    (hstays : k₀.stays = false) : Trimmed v w :=
  trimmed_of_ite h fun _ heq => heq ▸ hstays

/-- A put record is one of the list under its own key, and what was live stays live. -/
theorem get_putAll_cases {rs : List EntityRecord} {v : CatalogSnapshot} {k : CurrentKey}
    (h : (putAll v rs).get k = some r) : v.get k = some r ∨ r.key = k ∧ r ∈ rs := by
  induction rs generalizing v with
  | nil => exact .inl h
  | cons r' rs ih =>
    rcases ih h with h | ⟨hkey, h⟩
    · rw [get_putRecord] at h
      split at h
      · next hk =>
        obtain rfl := Option.some.inj h
        exact .inr ⟨hk.symm, List.mem_cons_self⟩
      · exact .inl h
    · exact .inr ⟨hkey, List.mem_cons_of_mem _ h⟩

theorem isSome_putAll {rs : List EntityRecord} {v : CatalogSnapshot} {k : CurrentKey} (h : (v.get k).isSome) :
    ((putAll v rs).get k).isSome := by
  induction rs generalizing v with
  | nil => exact h
  | cons r' rs ih =>
    refine ih ?_
    rw [get_putRecord]
    split
    · rfl
    · exact h

/-- Records that the call may write are put after some are removed. -/
theorem Evolves.edit {v : CatalogSnapshot} (rs : List EntityRecord) (hsnapshot : tx'.newSnapshotId = tx.newSnapshotId)
    (hcatalog : tx.nextCatalogId ≤ tx'.nextCatalogId) (hfile : tx.nextFileId ≤ tx'.nextFileId)
    (hv : Trimmed tx.state v) (hstate : tx'.state = putAll v rs) (hrs : ∀ r ∈ rs, Written tx tx' r) :
    Evolves tx call tx' where
  snapshot := hsnapshot
  catalogIds := hcatalog
  fileIds := hfile
  records k r h := by
    rw [hstate] at h
    exact (get_putAll_cases h).imp (hv.records k r) fun ⟨hkey, hr⟩ => ⟨hkey, hrs r hr⟩
  stays k hk _ h := by
    rw [hstate]
    exact isSome_putAll (hv.stays k hk ▸ h)

/-- One record is put. -/
theorem Evolves.put (hstate : tx'.state = tx.state.putRecord r) (hsnapshot : tx'.newSnapshotId = tx.newSnapshotId)
    (hr : Written tx tx' r) (hcatalog : tx.nextCatalogId ≤ tx'.nextCatalogId)
    (hfile : tx.nextFileId ≤ tx'.nextFileId) : Evolves tx call tx' :=
  .edit [r] hsnapshot hcatalog hfile (.refl _) hstate fun _ hmem => List.mem_singleton.mp hmem ▸ hr

/-- Records are removed, and no more. -/
theorem Evolves.trim (hstate : Trimmed tx.state tx'.state) (hcatalog : tx'.nextCatalogId = tx.nextCatalogId)
    (hfile : tx'.nextFileId = tx.nextFileId) (hsnapshot : tx'.newSnapshotId = tx.newSnapshotId) :
    Evolves tx call tx' :=
  .edit [] hsnapshot hcatalog.ge hfile.ge hstate rfl (List.forall_mem_nil _)

/-! ## Flushed files -/

/-- The records that come with a new file. -/
def fileRecords (t id : Nat) (tstat : TableStatsValue) (file : DataFileValue) (stats : List FileColumnStats) :
    List EntityRecord :=
  .tableStats tstat :: .file file :: fileStatsRecords t id stats

/-- A record that comes with new files of a table in a commit at `n`, under file ids from `first` up to `last`. -/
def FileRecord (n t first last : Nat) (r : EntityRecord) : Prop :=
  Begun n first last r ∧ ((∃ tstat, r = .tableStats tstat) ∨
    ∃ id, r.key.fileId = some id ∧ first ≤ id ∧ id < last ∧ r.key.catalogId = none ∧ r.key.isColumn = false ∧
      ∀ t' f c, r.key = .entity (.fileColumnStats t' f c) → t' = t)

theorem fileRecord_of_mem {n t id : Nat} {tstat : TableStatsValue} {file : DataFileValue} {stats : List FileColumnStats}
    (hfile : file.dataFileId = id) (hbegun : file.beginSnapshot ≤ n) (hlive : file.endSnapshot = none)
    (hr : r ∈ fileRecords t id tstat file stats) : FileRecord n t id (id + 1) r := by
  simp only [fileRecords, List.mem_cons] at hr
  rcases hr with rfl | rfl | hr
  · exact ⟨.unversioned rfl, .inl ⟨_, rfl⟩⟩
  · exact ⟨.file hfile.ge (hfile ▸ Nat.lt_succ_self _) hbegun hlive, .inr ⟨id, by rw [← hfile]; rfl, Nat.le_refl _,
      Nat.lt_succ_self _, rfl, rfl, fun _ _ _ hk => by cases hk⟩⟩
  · obtain ⟨entry, -, rfl⟩ := List.mem_map.mp hr
    refine ⟨.unversioned rfl, .inr ⟨id, rfl, Nat.le_refl _, Nat.lt_succ_self _, rfl, rfl, fun t' f c hk => ?_⟩⟩
    simp only [EntityRecord.key, CurrentKey.entity.injEq, EntityKey.fileColumnStats.injEq] at hk
    exact hk.1.symm

theorem registeredFile_state (tx : Transaction) (t : Nat) (file : DataFile) (tstat : TableStatsValue)
    (partitionId : Option Nat) :
    (registeredFile tx t file tstat partitionId).state = putAll tx.state (fileRecords t tx.nextFileId
      { tstat with
        nextRowId := saturatingAdd tstat.nextRowId file.recordCount
        recordCount := saturatingAdd tstat.recordCount file.recordCount
        fileSizeBytes := saturatingAdd tstat.fileSizeBytes file.fileSizeBytes }
      (dataFileRecord tx.nextFileId t tx.newSnapshotId file tstat.nextRowId partitionId none) file.columnStats) := rfl

theorem FileRecord.mono {n t first last first' last' : Nat} (h : FileRecord n t first last r) (hfirst : first' ≤ first)
    (hlast : last ≤ last') : FileRecord n t first' last' r :=
  ⟨h.1.mono hfirst hlast, h.2.imp_right fun ⟨id, hid, hle, hlt, hrest⟩ =>
    ⟨id, hid, hfirst.trans hle, hlt.trans_le hlast, hrest⟩⟩

theorem flushed_puts {t ceiling : Nat} {flushes : List FlushedDataFile} (h : FlushedFiles t ceiling flushes tx tx') :
    tx'.newSnapshotId = tx.newSnapshotId ∧ tx'.nextCatalogId = tx.nextCatalogId ∧ tx.nextFileId ≤ tx'.nextFileId ∧
      ∃ rs, tx'.state = putAll tx.state rs ∧
        ∀ r ∈ rs, FileRecord tx.newSnapshotId t tx.nextFileId tx'.nextFileId r := by
  induction h with
  | nil => exact ⟨rfl, rfl, Nat.le_refl _, [], rfl, List.forall_mem_nil _⟩
  | @cons flush flushes tx tx' tstat partitionId fits rest ih =>
    obtain ⟨hsnapshot, hcatalog, hfile, rs, hstate, hrs⟩ := ih
    have hnext : tx.nextFileId + 1 ≤ tx'.nextFileId := hfile
    refine ⟨hsnapshot, hcatalog, by omega, fileRecords t tx.nextFileId
      { tstat with fileSizeBytes := saturatingAdd tstat.fileSizeBytes flush.file.fileSizeBytes }
      (dataFileRecord tx.nextFileId t flush.beginSnapshot flush.file flush.rowIdStart partitionId flush.partialMax)
      flush.file.columnStats ++ rs, ?_, fun r hr => ?_⟩
    · rw [hstate]
      simp only [flushedFile, putAll, fileRecords, List.foldl_cons, List.foldl_append]
    · rcases List.mem_append.mp hr with hr | hr
      · exact (fileRecord_of_mem rfl fits.begun.le rfl hr).mono (Nat.le_refl _) hnext
      · exact (hrs r hr).mono (Nat.le_succ _) (Nat.le_refl _)

theorem FileRecord.written {t last : Nat} (h : FileRecord tx.newSnapshotId t tx.nextFileId last r)
    (hlast : last = tx'.nextFileId) (hlive : tx.state.tables[t]?.isSome) : Written tx tx' r := by
  subst hlast
  obtain ⟨hbegun, ⟨tstat, rfl⟩ | ⟨id, hid, hle, hlt, hcatalog, hcolumn, hstats⟩⟩ := h
  · exact .unnumbered rfl rfl rfl rfl
  · refine .file hbegun hid hle hlt hcatalog hcolumn fun t' f c hk => ?_
    rw [hstats t' f c hk]
    simpa [CatalogSnapshot.get] using hlive

/-! ## Every call -/

theorem trimmed_withoutPartition (v : CatalogSnapshot) (t : Nat) : Trimmed v (Call.withoutPartition v t) := by
  unfold Call.withoutPartition
  split
  · exact trimmed_of_ne (v.get_deletePartition _ _) rfl
  · exact .refl v

theorem trimmed_withoutSort (v : CatalogSnapshot) (t : Nat) : Trimmed v (Call.withoutSort v t) := by
  unfold Call.withoutSort
  split
  · exact trimmed_of_ne (v.get_deleteSort _ _) rfl
  · exact .refl v

theorem Trimmed.trans {u v w : CatalogSnapshot} (h : Trimmed u v) (h' : Trimmed v w) : Trimmed u w where
  records k r hr := h.records k r (h'.records k r hr)
  stays k hk := (h'.stays k hk).trans (h.stays k hk)

theorem trimmed_foldl {remove : CatalogSnapshot → Nat → CatalogSnapshot} (h : ∀ v id, Trimmed v (remove v id))
    (v : CatalogSnapshot) (ids : List Nat) : Trimmed v (ids.foldl remove v) := by
  induction ids generalizing v with
  | nil => exact .refl v
  | cons id ids ih => exact (h v id).trans (ih _)

theorem trimmed_withoutDataFile (v : CatalogSnapshot) (t f : Nat) : Trimmed v (withoutDataFile v t f) := by
  have hone : ∀ (v : CatalogSnapshot) (d : Nat), Trimmed v (v.deleteDeleteFile t d) := fun v d =>
    trimmed_of_ne (v.get_deleteDeleteFile t d) rfl
  have hfile : ∀ v : CatalogSnapshot, Trimmed v (v.deleteDataFile t f) := fun v =>
    trimmed_of_ne (v.get_deleteDataFile t f) rfl
  unfold withoutDataFile
  exact (trimmed_foldl hone v _).trans (hfile _)

theorem trimmed_deleteColumns (v : CatalogSnapshot) (t : Nat) (ids : List Nat) :
    Trimmed v (ids.foldl (fun v id => v.deleteColumn t id) v) := by
  refine trimmed_foldl (fun v c => trimmed_of_ite (v.get_deleteColumn t c) ?_) v ids
  rintro _ (rfl | rfl) <;> rfl

/-- Tags and options are exchanged, and no more. -/
theorem Evolves.exchange {tags : Std.ExtTreeMap Nat TagValue} {options : Std.ExtTreeMap (Nat × Nat) OptionScopeValue}
    (htags : ∀ (o : Nat) (c : TagValue), tags[o]? = some c → c.objectId = o)
    (hstate : tx'.state = { tx.state with tags := tags, options := options })
    (hcatalog : tx'.nextCatalogId = tx.nextCatalogId) (hfile : tx'.nextFileId = tx.nextFileId)
    (hsnapshot : tx'.newSnapshotId = tx.newSnapshotId) : Evolves tx call tx' where
  snapshot := hsnapshot
  catalogIds := hcatalog.ge
  fileIds := hfile.ge
  records k r h := by
    rw [hstate] at h
    rcases k with ⟨⟨⟩⟩ | _
    case entity.tag o =>
      obtain ⟨c, hc, rfl⟩ := Option.map_eq_some_iff.mp h
      exact .inr ⟨by rw [EntityRecord.key, htags o c hc], .unnumbered rfl rfl rfl rfl⟩
    case entity.option =>
      obtain ⟨_, _, rfl⟩ := Option.map_eq_some_iff.mp h
      exact .inr ⟨rfl, .unnumbered rfl rfl rfl rfl⟩
    all_goals exact .inl h
  stays k hk _ h := by
    rw [hstate]
    rcases k with ⟨⟨⟩⟩ | _
    all_goals first | exact h | cases hk

/-- A dropped table takes no statistics of files and no mapping along. -/
theorem Evolves.dropTable {t : Nat} (hstate : tx'.state = tx.state.deleteTable t)
    (hcatalog : tx'.nextCatalogId = tx.nextCatalogId) (hfile : tx'.nextFileId = tx.nextFileId)
    (hsnapshot : tx'.newSnapshotId = tx.newSnapshotId) : Evolves tx (.dropTable t) tx' where
  snapshot := hsnapshot
  catalogIds := hcatalog.ge
  fileIds := hfile.ge
  records k r h := .inl (get_of_ite (get_deleteTable _ t) (hstate ▸ h))
  stays k hk hcall h := by
    rw [hstate, get_deleteTable, if_neg]
    · exact h
    · intro hdrops
      rcases k with ⟨⟨⟩⟩ | _
      case entity.table t' =>
        obtain rfl : t' = t := by simpa [CurrentKey.dropsWith] using hdrops
        exact hcall t' rfl rfl
      all_goals first | exact absurd hk Bool.false_ne_true | exact absurd hdrops Bool.false_ne_true

/-- The tag containers of a sound view stand under their own ids. -/
theorem CatalogSnapshot.Sound.tag {v : CatalogSnapshot} (hv : v.Sound) (o : Nat) (c : TagValue)
    (h : v.tags[o]? = some c) : c.objectId = o := by
  have hkey := (hv (.entity (.tag o)) (.tag c) (by simp [CatalogSnapshot.get, h])).1
  simpa [EntityRecord.key] using hkey

theorem Evolves.retag {o : Nat} {v : CatalogSnapshot} (hv : tx.state.Sound) (h : Retagged tx.state o v)
    (hstate : tx'.state = v) (hcatalog : tx'.nextCatalogId = tx.nextCatalogId) (hfile : tx'.nextFileId = tx.nextFileId)
    (hsnapshot : tx'.newSnapshotId = tx.newSnapshotId) : Evolves tx call tx' := by
  obtain ⟨tags, rfl, htags, hkeyed⟩ := h
  refine .exchange (fun (o' : Nat) c (hc : tags[o']? = some c) => ?_) hstate hcatalog hfile hsnapshot
  by_cases ho : o' = o
  · subst ho
    exact hkeyed (hv.tag o') c hc
  · exact hv.tag o' c (htags o' ho ▸ hc)

theorem written_columns {t id order : Nat} {defs : List ColumnDef}
    (hr : r ∈ (columnRecords t tx.newSnapshotId defs none id order).map EntityRecord.column) : Written tx tx' r := by
  obtain ⟨c, hc, rfl⟩ := List.mem_map.mp hr
  exact .inTree (inTree_of_mem_columnRecords t _ defs none id order hc)

/-- A build step keeps an index's identity, name, columns and end. -/
theorem advanceBuild_identity (value : IndexValue) (batch : List IndexEntry) (isFinal : Bool)
    (source : Option (Nat × Nat)) (n : Nat) :
    (advanceBuild value batch isFinal source n).indexId = value.indexId ∧
      (advanceBuild value batch isFinal source n).tableId = value.tableId ∧
      (advanceBuild value batch isFinal source n).indexName = value.indexName ∧
      (advanceBuild value batch isFinal source n).columnIds = value.columnIds ∧
      (EntityRecord.index (advanceBuild value batch isFinal source n)).lifecycle = some (n, value.endSnapshot) := by
  cases source with
  | none => exact ⟨rfl, rfl, rfl, rfl, rfl⟩
  | some position =>
    simp only [advanceBuild, coverSource]
    split <;> split <;> exact ⟨rfl, rfl, rfl, rfl, rfl⟩

theorem evolves_effect (heffect : Call.Effect tx call tx') (hv : tx.state.Sound) : Evolves tx call tx' := by
  cases heffect with
  | createSchema id _ _ begun =>
    exact .put (r := .schema _) rfl rfl (.allocated (congrArg some id) begun rfl rfl rfl) (Nat.le_succ _)
      (Nat.le_refl _)
  | createView _ _ id _ _ begun =>
    exact .put (r := .view _) rfl rfl (.allocated (congrArg some id) begun rfl rfl rfl) (Nat.le_succ _) (Nat.le_refl _)
  | createMacro _ _ _ id _ _ begun =>
    exact .put (r := .macroDef _) rfl rfl (.allocated (congrArg some id) begun rfl rfl rfl) (Nat.le_succ _)
      (Nat.le_refl _)
  | createIndex | createIndexOrderedWithMaintenance | createIndexStagedOrderedWithMaintenance =>
    exact .put (r := .index _) rfl rfl (.allocated rfl rfl rfl rfl rfl) (Nat.le_succ _) (Nat.le_refl _)
  | dropSchema =>
    refine .trim (trimmed_of_ite (get_deleteSchema _ _) ?_) rfl rfl rfl
    rintro _ (rfl | rfl) <;> rfl
  | @createTable schema name uuid columns schemaRec value live free distinct id _ _ _ begun =>
    refine .edit (.table value :: ((columnRecords tx.nextCatalogId tx.newSnapshotId columns none 1 1).map .column ++
      [.tableStats { tableId := tx.nextCatalogId, recordCount := 0, nextRowId := 0, fileSizeBytes := 0 }]))
      rfl (Nat.le_succ _) (Nat.le_refl _) (.refl _) ?_ fun r hr => ?_
    · simp only [putColumns, putAll, List.foldl_cons, List.foldl_append, List.foldl_nil]
    · simp only [List.mem_cons, List.mem_append, List.not_mem_nil, or_false] at hr
      rcases hr with rfl | hr | rfl
      · exact .allocated (congrArg some id) begun rfl rfl rfl
      · exact written_columns hr
      · exact .unnumbered rfl rfl rfl rfl
  | renameTable live | setTableSchema live =>
    have hold := get_table live
    exact .put (r := .table _) rfl rfl (.again hv hold (hv _ _ hold).1 rfl rfl rfl rfl) (Nat.le_refl _) (Nat.le_refl _)
  | dropTable => exact .dropTable rfl rfl rfl rfl
  | @addColumn t nextOrder column value live free distinct nextId next =>
    have hold := get_table live
    refine .edit ((treeRecords t tx.newSnapshotId column none nextId nextOrder).map .column ++
      [.table { value with nextColumnId := nextId + nodeCount column, beginSnapshot := tx.newSnapshotId }])
      rfl (Nat.le_refl _) (Nat.le_refl _) (.refl _) ?_ fun r hr => ?_
    · simp only [putColumns, putAll, List.foldl_append, List.foldl_cons, List.foldl_nil]
    · simp only [List.mem_cons, List.mem_append, List.not_mem_nil, or_false] at hr
      rcases hr with hr | rfl
      · obtain ⟨c, hc, rfl⟩ := List.mem_map.mp hr
        exact .inTree (inTree_of_mem_treeRecords t _ column none nextId nextOrder hc)
      · exact .again hv hold (hv _ _ hold).1 rfl rfl rfl rfl
  | renameColumn live | alterColumn live =>
    have hold := get_column live
    exact .put (r := .column _) rfl rfl (.column hv hold (hv _ _ hold).1 rfl rfl) (Nat.le_refl _) (Nat.le_refl _)
  | dropColumn => exact .trim (trimmed_deleteColumns _ _ _) rfl rfl rfl
  | setPartitioning live columnsLive id _ _ begun =>
    refine .edit [.partition _] rfl (Nat.le_succ _) (Nat.le_refl _) (trimmed_withoutPartition _ _) rfl fun r hr => ?_
    obtain rfl := List.mem_singleton.mp hr
    exact .allocated (congrArg some id) begun rfl rfl rfl
  | clearPartitioning => exact .trim (trimmed_withoutPartition _ _) rfl rfl rfl
  | setSorting live id _ begun =>
    refine .edit [.sort _] rfl (Nat.le_succ _) (Nat.le_refl _) (trimmed_withoutSort _ _) rfl fun r hr => ?_
    obtain rfl := List.mem_singleton.mp hr
    exact .allocated (congrArg some id) begun rfl rfl rfl
  | clearSorting => exact .trim (trimmed_withoutSort _ _) rfl rfl rfl
  | dropIndex =>
    exact .trim (trimmed_of_ne (get_deleteIndex _ _ _) rfl) rfl rfl rfl
  | buildIndexSourceStep found =>
    have hold := get_index (findIndex_some found)
    obtain ⟨hid, htable, -, -, hlife⟩ := advanceBuild_identity _ _ _ _ _
    refine .put (r := .index _) rfl rfl (.again hv hold ?_ rfl hlife rfl rfl) (Nat.le_refl _) (Nat.le_refl _)
    rw [EntityRecord.key, hid, htable]
    exact (hv _ _ hold).1
  | registerDataFile fits =>
    refine .edit _ rfl (Nat.le_refl _) (Nat.le_succ _) (.refl _) (registeredFile_state _ _ _ _ _) fun r hr => ?_
    exact (fileRecord_of_mem rfl (Nat.le_refl _) rfl hr).written rfl fits.live
  | expireDataFile live stats =>
    refine .edit (v := withoutDataFile tx.state _ _) [.tableStats _] rfl (Nat.le_refl _) (Nat.le_refl _)
      (trimmed_withoutDataFile _ _ _) rfl fun r hr => ?_
    obtain rfl := List.mem_singleton.mp hr
    exact .unnumbered rfl rfl rfl rfl
  | registerDeleteFile =>
    exact .put (r := .deleteFile _) rfl rfl (.file (.now rfl (by rintro _ ⟨⟩)) rfl (Nat.le_refl _) (Nat.lt_succ_self _)
      rfl rfl (fun _ _ _ h => by cases h)) (Nat.le_refl _) (Nat.le_succ _)
  | expireDeleteFile =>
    exact .trim (trimmed_of_ne (get_deleteDeleteFile _ _ _) rfl) rfl rfl rfl
  | updateTableStats | inlineInsert =>
    exact .put (r := .tableStats _) rfl rfl (.unnumbered rfl rfl rfl rfl) (Nat.le_refl _) (Nat.le_refl _)
  | updateColumnStats =>
    exact .put (r := .tableColumnStats _) rfl rfl (.unnumbered rfl rfl rfl rfl) (Nat.le_refl _) (Nat.le_refl _)
  | alterView live =>
    have hold := get_view live
    exact .put (r := .view _) rfl rfl (.again hv hold (hv _ _ hold).1 rfl rfl rfl rfl) (Nat.le_refl _) (Nat.le_refl _)
  | dropView =>
    exact .trim (trimmed_of_ne (get_deleteView _ _) rfl) rfl rfl rfl
  | dropMacro =>
    exact .trim (trimmed_of_ne (get_deleteMacro _ _) rfl) rfl rfl rfl
  | setOption | unsetOption => exact .exchange hv.tag rfl rfl rfl rfl
  | setTag _ retagged | removeTag _ retagged => exact .retag hv retagged rfl rfl rfl rfl
  | inlineDelete => exact .trim (.refl _) rfl rfl rfl
  | flushInlinedData live stats files =>
    obtain ⟨hsnapshot, hcatalog, hfile, rs, hstate, hrs⟩ := flushed_puts files
    exact .edit rs hsnapshot hcatalog.ge hfile (.refl _) hstate fun r hr => (hrs r hr).written rfl live

theorem evolves_stopped (hstop : Call.Partial tx call tx') : Evolves tx call tx' := by
  cases hstop with
  | createIndex | createIndexOrderedWithMaintenance =>
    exact .put (r := .index _) rfl rfl (.allocated rfl rfl rfl rfl rfl) (Nat.le_succ _) (Nat.le_refl _)
  | buildIndexSourceStep | removeTag | inlineDelete => exact .trim (.refl _) rfl rfl rfl
  | registerDataFile fits =>
    refine .edit _ rfl (Nat.le_refl _) (Nat.le_succ _) (.refl _) (registeredFile_state _ _ _ _ _) fun r hr => ?_
    exact (fileRecord_of_mem rfl (Nat.le_refl _) rfl hr).written rfl fits.live
  | expireDataFile => exact .trim (trimmed_withoutDataFile _ _ _) rfl rfl rfl
  | registerDeleteFile =>
    exact .put (r := .deleteFile _) rfl rfl (.file (.now rfl (by rintro _ ⟨⟩)) rfl (Nat.le_refl _) (Nat.lt_succ_self _)
      rfl rfl (fun _ _ _ h => by cases h)) (Nat.le_refl _) (Nat.le_succ _)
  | inlineInsert =>
    exact .put (r := .tableStats _) rfl rfl (.unnumbered rfl rfl rfl rfl) (Nat.le_refl _) (Nat.le_refl _)
  | flushInlinedData live stats _ files _ idle =>
    obtain ⟨next, hnext, rfl⟩ := idle
    obtain ⟨hsnapshot, hcatalog, hfile, rs, hstate, hrs⟩ := flushed_puts files
    refine .edit rs hsnapshot hcatalog.ge (hfile.trans hnext) (.refl _) hstate fun r hr => ?_
    exact ((hrs r hr).mono (Nat.le_refl _) hnext).written rfl live

/-- Whether it returns or fails, a call writes and removes no more than calls may. -/
theorem evolves_after (call : Call) (hv : tx.state.Sound) : Evolves tx call (call.after tx) := by
  refine Call.after_of (p := fun tx' => Evolves tx call tx') (evolves_effect · hv) ?_ evolves_stopped
  rintro _ ⟨next, hnext, rfl⟩
  exact .edit [] rfl (Nat.le_refl _) hnext (.refl _) rfl (List.forall_mem_nil _)

end Evolves

/-! ## What closures make of a view -/

/-- What a commit closure starts from: the view, the commit's snapshot and its first own file id. -/
structure Origin where
  base : CatalogSnapshot
  snapshotId : Nat
  firstFile : Nat

/-- What calls make of the view they start from. -/
structure Transaction.Grown (tx : Transaction) (o : Origin) : Prop where
  snapshot : tx.newSnapshotId = o.snapshotId
  files : o.firstFile ≤ tx.nextFileId
  sound : tx.state.Sound
  mappings : ∀ t m, (o.base.get (.entity (.mapping t m))).isSome → (tx.state.get (.entity (.mapping t m))).isSome
  version : ∀ k r, tx.state.get k = some r →
    o.base.get k = some r ∨ Begun o.snapshotId o.firstFile tx.nextFileId r

section Grown

variable {tx tx' : Transaction} {o : Origin}

theorem Transaction.Grown.refl (hv : tx.state.Sound) : tx.Grown ⟨tx.state, tx.newSnapshotId, tx.nextFileId⟩ :=
  ⟨rfl, Nat.le_refl _, hv, fun _ _ h => h, fun _ _ h => .inl h⟩

theorem Evolves.grown {call : Call} (h : Evolves tx call tx') (hg : tx.Grown o) : tx'.Grown o where
  snapshot := h.snapshot.trans hg.snapshot
  files := hg.files.trans h.fileIds
  sound k r hr := by
    rcases h.records k r hr with hold | ⟨hkey, hwritten⟩
    · exact hg.sound k r hold
    · exact ⟨hkey, hwritten.begun.isLive⟩
  mappings t m hm := h.stays _ rfl (fun _ _ heq => by cases heq) (hg.mappings t m hm)
  version k r hr := by
    rcases h.records k r hr with hold | ⟨-, hwritten⟩
    · exact (hg.version k r hold).imp_right (·.mono (Nat.le_refl _) h.fileIds)
    · exact .inr (hg.snapshot ▸ hwritten.begun.mono hg.files (Nat.le_refl _))

theorem grown_after (h : tx.Grown o) (call : Call) : (call.after tx).Grown o := (evolves_after call h.sound).grown h

theorem sound_after (hv : tx.state.Sound) (call : Call) : (call.after tx).state.Sound :=
  (grown_after (.refl hv) call).sound

theorem Call.grown_of_runClosure {calls : List (Call × Bool)} (hg : tx.Grown o)
    (h : runClosure calls tx = .ok () tx') : tx'.Grown o := by
  induction calls generalizing tx with
  | nil =>
    cases h
    exact hg
  | cons c calls ih =>
    obtain ⟨call, ends⟩ := c
    obtain ⟨_, tx₁, hcall, hrest⟩ := Commands.bind_eq_ok.mp h
    refine ih ?_ hrest
    cases ends with
    | true => exact (evolves_effect (effect_of_run call hcall) hg.sound).grown hg
    | false =>
      cases hcall
      exact grown_after hg call

/-- A closure that ends at its first failure. -/
theorem Call.runClosure_map (calls : List Call) : runClosure (calls.map (·, true)) = runAll calls := by
  induction calls with
  | nil => rfl
  | cons call calls ih => rw [List.map_cons, runClosure, ih, if_pos rfl, runAll]

/-- A sequence of successful calls ends in a sound view if it starts in one. -/
theorem Call.sound_of_runAll {calls : List Call} (hv : tx.state.Sound) (h : runAll calls tx = .ok () tx') :
    tx'.state.Sound :=
  (grown_of_runClosure (.refl hv) ((congrFun (runClosure_map calls) tx).trans h)).sound

end Grown

end Moraine
