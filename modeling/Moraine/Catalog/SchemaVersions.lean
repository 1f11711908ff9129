-- SUMMARY: The schema-version rows assembled from stored records, snapshots and data files cover every file.
import Moraine.Base.OrdMap
import Moraine.Store.Proto

/-!
# Schema versions

A row says in which snapshot a table's shape changed and which schema version that snapshot minted. Rows are stored as
records; snapshots of older stores fold the same rows in. Expiry may have taken the rows of a table's first snapshots,
so a table whose oldest data file is below all of its rows gets one more, the floor, at that file.

`schema_version_rows_cover` says what the assembled rows are.
-/

namespace Moraine

open Std (ExtTreeMap ExtTreeSet TransOrd LawfulEqOrd)
open OrdMap

/-! ## The projection -/

structure SchemaVersionRow where
  beginSnapshot : Nat
  schemaVersion : Nat
  tableId : Nat
  deriving DecidableEq

/-- Schema versions by table and snapshot. -/
abbrev VersionMap := ExtTreeMap (Nat × Nat) Nat

/-- The stored records, and the rows of snapshots where there is no record. -/
def versionRecords (records : List (Nat × Nat × Nat)) (snapshots : List SnapshotValue) : VersionMap :=
  snapshots.foldl
    (fun rows snapshot => snapshot.schemaChangedTableIds.foldl
      (fun rows table => rows.insertIfNew (table, snapshot.snapshotId) snapshot.schemaVersion) rows)
    (.ofList (records.map fun (table, beginSnapshot, version) => ((table, beginSnapshot), version)) compare)

/-- For every table with data files the snapshot in which the oldest begins. -/
def oldestFiles (files : List DataFileValue) : ExtTreeMap Nat Nat :=
  files.foldl (fun oldest file => oldest.alter file.tableId fun
    | some begins => some (min begins file.beginSnapshot)
    | none => some file.beginSnapshot) ∅

/-- The first row of the table that begins at or before the snapshot. -/
def firstUpTo (rows : VersionMap) (table snapshot : Nat) : Option ((Nat × Nat) × Nat) :=
  rows.toList.find? fun row => row.1.1 == table && decide (row.1.2 ≤ snapshot)

/-- The first row of the table. The source bounds the snapshot by the largest one there can be. -/
def firstOf (rows : VersionMap) (table : Nat) : Option ((Nat × Nat) × Nat) :=
  rows.toList.find? (·.1.1 == table)

/-- The version of the last snapshot. -/
def currentSchemaVersion (snapshots : List SnapshotValue) : Nat :=
  (snapshots.getLast?.map SnapshotValue.schemaVersion).getD 0

/-- One row for each table whose oldest file no row covers. -/
def schemaVersionFloors (rows : VersionMap) (snapshots : List SnapshotValue) (files : List DataFileValue) :
    VersionMap :=
  let uncovered := (oldestFiles files).toList.filter fun (table, begins) => (firstUpTo rows table begins).isNone
  if uncovered.isEmpty then ∅
  else
    .ofList (uncovered.map fun (table, begins) =>
      ((table, begins), ((firstOf rows table).map (·.2)).getD (currentSchemaVersion snapshots))) compare

def schemaVersionRowsFrom (records : List (Nat × Nat × Nat)) (snapshots : List SnapshotValue)
    (files : List DataFileValue) : List SchemaVersionRow :=
  let rows := versionRecords records snapshots
  (rows ∪ schemaVersionFloors rows snapshots files).toList.map
    fun ((tableId, beginSnapshot), schemaVersion) => { beginSnapshot, schemaVersion, tableId }

/-! ## Input rows -/

section Inputs

variable {records : List (Nat × Nat × Nat)} {snapshots : List SnapshotValue} {files : List DataFileValue}
  {t b version : Nat}

/-- There is a record for the table and the snapshot. -/
def Stored (records : List (Nat × Nat × Nat)) (t b : Nat) : Prop := ∃ version, (t, b, version) ∈ records

/-- The snapshot folds in a row for the table. -/
def SnapshotValue.Folds (snapshot : SnapshotValue) (t b : Nat) : Prop :=
  snapshot.snapshotId = b ∧ t ∈ snapshot.schemaChangedTableIds

/-- The inputs have a row for the table and the snapshot. -/
def KnownVersion (records : List (Nat × Nat × Nat)) (snapshots : List SnapshotValue) (t b : Nat) : Prop :=
  Stored records t b ∨ ∃ snapshot ∈ snapshots, snapshot.Folds t b

/-- The rows that the snapshots fold in, in the order in which they are met. -/
def foldedRows (snapshots : List SnapshotValue) : List ((Nat × Nat) × Nat) :=
  snapshots.flatMap fun snapshot =>
    snapshot.schemaChangedTableIds.map fun table => ((table, snapshot.snapshotId), snapshot.schemaVersion)

theorem mem_foldedRows : ((t, b), version) ∈ foldedRows snapshots ↔
    ∃ snapshot ∈ snapshots, snapshot.Folds t b ∧ snapshot.schemaVersion = version := by
  simp only [foldedRows, List.mem_flatMap, List.mem_map, Prod.mk.injEq, SnapshotValue.Folds]
  constructor
  · rintro ⟨snapshot, hsnapshot, table, htable, ⟨rfl, hid⟩, hversion⟩
    exact ⟨snapshot, hsnapshot, ⟨hid, htable⟩, hversion⟩
  · rintro ⟨snapshot, hsnapshot, ⟨hid, htable⟩, hversion⟩
    exact ⟨snapshot, hsnapshot, t, htable, ⟨rfl, hid⟩, hversion⟩

theorem versionRecords_eq (records : List (Nat × Nat × Nat)) (snapshots : List SnapshotValue) :
    versionRecords records snapshots = (foldedRows snapshots).foldl (fun rows row => rows.insertIfNew row.1 row.2)
      (.ofList (records.map fun (table, beginSnapshot, version) => ((table, beginSnapshot), version)) compare) := by
  rw [foldedRows, List.foldl_flatMap]
  simp only [List.foldl_map]
  rfl

/-- A stored record is found before a folded row. -/
theorem getElem?_versionRecords (records : List (Nat × Nat × Nat)) (snapshots : List SnapshotValue) (t b : Nat) :
    (versionRecords records snapshots)[(t, b)]? =
      (ExtTreeMap.ofList (records.map fun (table, beginSnapshot, version) => ((table, beginSnapshot), version))
        compare)[(t, b)]?.or (((foldedRows snapshots).find? (·.1 == (t, b))).map (·.2)) := by
  rw [versionRecords_eq, getElem?_foldl_insertIfNew]

theorem mem_versionRecords (h : (versionRecords records snapshots)[(t, b)]? = some version) :
    (t, b, version) ∈ records ∨
      ¬ Stored records t b ∧ ∃ snapshot ∈ snapshots, snapshot.Folds t b ∧ snapshot.schemaVersion = version := by
  rw [getElem?_versionRecords, Option.or_eq_some_iff] at h
  rcases h with hstored | ⟨hnone, hfolded⟩
  · obtain ⟨⟨t', b', version'⟩, hmem, heq⟩ := List.mem_map.mp (mem_of_getElem?_ofList hstored)
    cases heq
    exact .inl hmem
  · obtain ⟨⟨k, version'⟩, hrow, rfl⟩ := Option.map_eq_some_iff.mp hfolded
    obtain rfl : k = (t, b) := by simpa using List.find?_some hrow
    refine .inr ⟨?_, mem_foldedRows.mp (List.mem_of_find?_eq_some hrow)⟩
    rintro ⟨version, hmem⟩
    have hrecord := List.mem_map_of_mem
      (f := fun (table, beginSnapshot, version) => ((table, beginSnapshot), version)) hmem
    have hsome := isSome_getElem?_ofList.mpr (List.mem_map_of_mem (f := Prod.fst) hrecord)
    rw [hnone] at hsome
    cases hsome

theorem isSome_versionRecords : (versionRecords records snapshots)[(t, b)]?.isSome ↔
    KnownVersion records snapshots t b := by
  rw [getElem?_versionRecords, Option.isSome_or, Bool.or_eq_true, isSome_getElem?_ofList, Option.isSome_map,
    List.find?_isSome]
  refine or_congr ⟨?_, ?_⟩ ⟨?_, ?_⟩
  · rintro hkey
    obtain ⟨⟨k, version⟩, hmem, rfl⟩ := List.mem_map.mp hkey
    obtain ⟨⟨t', b', version'⟩, hrecord, heq⟩ := List.mem_map.mp hmem
    cases heq
    exact ⟨version, hrecord⟩
  · rintro ⟨version, hmem⟩
    exact List.mem_map.mpr ⟨_, List.mem_map_of_mem hmem, rfl⟩
  · rintro ⟨⟨k, version⟩, hmem, hk⟩
    obtain rfl := beq_iff_eq.mp hk
    obtain ⟨snapshot, hsnapshot, hfolds, -⟩ := mem_foldedRows.mp hmem
    exact ⟨snapshot, hsnapshot, hfolds⟩
  · rintro ⟨snapshot, hsnapshot, hfolds⟩
    exact ⟨((t, b), snapshot.schemaVersion), mem_foldedRows.mpr ⟨snapshot, hsnapshot, hfolds, rfl⟩, beq_self_eq_true _⟩

end Inputs

/-! ## Floors -/

/-- The oldest data file of the table begins in the snapshot. -/
def OldestFile (files : List DataFileValue) (t b : Nat) : Prop :=
  (∃ file ∈ files, file.tableId = t ∧ file.beginSnapshot = b) ∧
    ∀ file ∈ files, file.tableId = t → b ≤ file.beginSnapshot

section Floors

variable {rows : VersionMap} {snapshots : List SnapshotValue} {files : List DataFileValue} {t b version : Nat}

theorem oldestFiles_concat (files : List DataFileValue) (file : DataFileValue) (t : Nat) :
    (oldestFiles (files ++ [file]))[t]? = if file.tableId = t
      then some (((oldestFiles files)[t]?.map (min · file.beginSnapshot)).getD file.beginSnapshot)
      else (oldestFiles files)[t]? := by
  rw [oldestFiles, List.foldl_concat, ← oldestFiles, ExtTreeMap.getElem?_alter]
  simp only [Std.LawfulEqCmp.compare_eq_iff_eq]
  split
  · next heq =>
    rw [heq]
    cases (oldestFiles files)[t]? <;> rfl
  · rfl

theorem oldestFiles_spec (files : List DataFileValue) (t : Nat) :
    (∀ b, (oldestFiles files)[t]? = some b → OldestFile files t b) ∧
      ((oldestFiles files)[t]? = none → ∀ file ∈ files, file.tableId ≠ t) := by
  induction files using List.reverseRecOn with
  | nil => simp [oldestFiles]
  | append_singleton files file ih =>
    obtain ⟨hsome, hnone⟩ := ih
    rw [oldestFiles_concat]
    simp only [OldestFile, List.mem_append, List.mem_singleton] at hsome ⊢
    by_cases htable : file.tableId = t
    · rw [if_pos htable]
      refine ⟨fun b hb => ?_, nofun⟩
      obtain rfl := Option.some.inj hb
      cases hold : (oldestFiles files)[t]? with
      | none =>
        refine ⟨⟨file, .inr rfl, htable, rfl⟩, ?_⟩
        rintro other (hother | rfl) hin
        · exact absurd hin (hnone hold other hother)
        · exact Nat.le_refl _
      | some b =>
        obtain ⟨⟨oldest, holdest, hin, hbegins⟩, hleast⟩ := hsome b hold
        refine ⟨?_, ?_⟩
        · rcases Nat.le_total b file.beginSnapshot with hle | hle
          · exact ⟨oldest, .inl holdest, hin, hbegins.trans (Nat.min_eq_left hle).symm⟩
          · exact ⟨file, .inr rfl, htable, (Nat.min_eq_right hle).symm⟩
        · rintro other (hother | rfl) hin'
          · exact (Nat.min_le_left _ _).trans (hleast other hother hin')
          · exact Nat.min_le_right _ _
    · rw [if_neg htable]
      refine ⟨fun b hb => ?_, fun hb => ?_⟩
      · obtain ⟨⟨oldest, holdest, hrest⟩, hleast⟩ := hsome b hb
        refine ⟨⟨oldest, .inl holdest, hrest⟩, ?_⟩
        rintro other (hother | rfl) hin
        · exact hleast other hother hin
        · exact absurd hin htable
      · rintro other (hother | rfl)
        · exact hnone hb other hother
        · exact htable

theorem OldestFile.unique {b' : Nat} (h : OldestFile files t b) (h' : OldestFile files t b') : b = b' := by
  obtain ⟨⟨file, hfile, hin, rfl⟩, hleast⟩ := h
  obtain ⟨⟨file', hfile', hin', rfl⟩, hleast'⟩ := h'
  exact Nat.le_antisymm (hleast file' hfile' hin') (hleast' file hfile hin)

theorem getElem?_oldestFiles : (oldestFiles files)[t]? = some b ↔ OldestFile files t b := by
  refine ⟨(oldestFiles_spec files t).1 b, fun h => ?_⟩
  obtain ⟨file, hfile, hin, -⟩ := h.1
  cases hb : (oldestFiles files)[t]? with
  | none => exact absurd hin ((oldestFiles_spec files t).2 hb file hfile)
  | some b' => rw [((oldestFiles_spec files t).1 b' hb).unique h]

/-- A table with a file has an oldest one. -/
theorem exists_oldestFile {file : DataFileValue} (h : file ∈ files) :
    ∃ b, OldestFile files file.tableId b ∧ b ≤ file.beginSnapshot := by
  cases hb : (oldestFiles files)[file.tableId]? with
  | none => exact absurd rfl ((oldestFiles_spec files _).2 hb file h)
  | some b =>
    have holdest := getElem?_oldestFiles.mp hb
    exact ⟨b, holdest, holdest.2 file h rfl⟩

theorem firstUpTo_isNone : (firstUpTo rows t b).isNone ↔ ∀ b' ≤ b, rows[(t, b')]? = none := by
  simp only [firstUpTo, Option.isNone_iff_eq_none, List.find?_eq_none, Prod.forall,
    ExtTreeMap.mem_toList_iff_getElem?_eq_some, Bool.and_eq_true, beq_iff_eq, decide_eq_true_eq, not_and, not_le]
  constructor
  · intro h b' hle
    refine Option.eq_none_iff_forall_ne_some.mpr fun version hversion => ?_
    exact absurd (h t b' version hversion rfl) (Nat.not_lt.mpr hle)
  · rintro h t' b' version hversion rfl
    refine Nat.lt_of_not_le fun hle => ?_
    rw [h b' hle] at hversion
    cases hversion

theorem firstOf_eq_none (h : firstOf rows t = none) (b : Nat) : rows[(t, b)]? = none := by
  refine Option.eq_none_iff_forall_ne_some.mpr fun version hversion => ?_
  have := List.find?_eq_none.mp h ((t, b), version) (ExtTreeMap.mem_toList_iff_getElem?_eq_some.mpr hversion)
  exact this (beq_self_eq_true t)

/-- The first row of a table is its oldest. -/
theorem firstOf_eq_some {row : (Nat × Nat) × Nat} (h : firstOf rows t = some row) :
    ∃ b version, row = ((t, b), version) ∧ rows[(t, b)]? = some version ∧ ∀ b', rows[(t, b')]?.isSome → b ≤ b' := by
  obtain ⟨hlive, htable, hleast⟩ := find?_toList_eq_some h
  obtain ⟨⟨t', b⟩, version⟩ := row
  obtain rfl : t' = t := by simpa using htable
  refine ⟨b, version, rfl, hlive, fun b' hb' => ?_⟩
  obtain ⟨version', hversion'⟩ := Option.isSome_iff_exists.mp hb'
  rcases hleast (t', b') version' hversion' (beq_self_eq_true t') with heq | hlt
  · cases heq
    exact Nat.le_refl _
  · rcases compare_pair_eq_lt.mp hlt with hlt | ⟨-, hlt⟩
    · exact absurd (Nat.compare_eq_lt.mp hlt) (Nat.lt_irrefl _)
    · exact (Nat.compare_eq_lt.mp hlt).le

/-- The floors: at the oldest file of a table that no row covers, with the version of the table's first row. -/
theorem getElem?_schemaVersionFloors : (schemaVersionFloors rows snapshots files)[(t, b)]? = some version ↔
    OldestFile files t b ∧ (∀ b' ≤ b, rows[(t, b')]? = none) ∧
      version = ((firstOf rows t).map (·.2)).getD (currentSchemaVersion snapshots) := by
  have hmem : ∀ {t b : Nat}, (t, b) ∈ ((oldestFiles files).toList.filter fun (table, begins) =>
      (firstUpTo rows table begins).isNone) ↔ OldestFile files t b ∧ ∀ b' ≤ b, rows[(t, b')]? = none := by
    intro t b
    rw [List.mem_filter, ExtTreeMap.mem_toList_iff_getElem?_eq_some, getElem?_oldestFiles]
    exact and_congr_right fun _ => firstUpTo_isNone
  unfold schemaVersionFloors
  simp only
  split
  · next hempty =>
    rw [List.isEmpty_iff] at hempty
    rw [hempty] at hmem
    refine iff_of_false (by simp) fun ⟨holdest, huncovered, _⟩ => ?_
    cases hmem.mpr ⟨holdest, huncovered⟩
  · constructor
    · intro h
      obtain ⟨⟨t', b'⟩, hin, heq⟩ := List.mem_map.mp (mem_of_getElem?_ofList h)
      cases heq
      exact ⟨(hmem.mp hin).1, (hmem.mp hin).2, rfl⟩
    · rintro ⟨holdest, huncovered, rfl⟩
      refine ExtTreeMap.getElem?_ofList_of_mem Std.ReflCmp.compare_self ?_
        (List.mem_map.mpr ⟨(t, b), hmem.mpr ⟨holdest, huncovered⟩, rfl⟩)
      -- Two floors are of two tables.
      rw [List.pairwise_map]
      refine (ExtTreeMap.distinct_keys_toList.sublist List.filter_sublist).imp fun {x y} hne heq => hne ?_
      rw [Std.LawfulEqCmp.compare_eq_iff_eq] at heq ⊢
      exact congrArg Prod.fst heq

end Floors

/-! ## What is assembled -/

section Assembled

variable (records : List (Nat × Nat × Nat)) (snapshots : List SnapshotValue) (files : List DataFileValue)

/-- The row is a floor among the rows: it is at the oldest file of its table, the inputs have no row for the table at
    or before it, and it carries the oldest version that the inputs know for the table, or the current one. -/
structure IsFloor (rows : List SchemaVersionRow) (row : SchemaVersionRow) : Prop where
  oldest : OldestFile files row.tableId row.beginSnapshot
  uncovered : ∀ b ≤ row.beginSnapshot, ¬ KnownVersion records snapshots row.tableId b
  version : ∀ first ∈ rows, first.tableId = row.tableId →
    KnownVersion records snapshots first.tableId first.beginSnapshot →
    (∀ b, KnownVersion records snapshots row.tableId b → first.beginSnapshot ≤ b) →
      row.schemaVersion = first.schemaVersion
  unknown : (∀ b, ¬ KnownVersion records snapshots row.tableId b) → row.schemaVersion = currentSchemaVersion snapshots

/-- The rows are those of the inputs and the floors. -/
structure Assembled (rows : List SchemaVersionRow) : Prop where
  /-- Every data file has a row of its table at or before it. -/
  covers : ∀ file ∈ files, ∃ row ∈ rows, row.tableId = file.tableId ∧ row.beginSnapshot ≤ file.beginSnapshot
  /-- No two rows are for one table and snapshot. -/
  single : (rows.map fun row => (row.tableId, row.beginSnapshot)).Nodup
  /-- A stored record is kept, where no other record contradicts it. -/
  stored : ∀ t b version, (t, b, version) ∈ records → (∀ other, (t, b, other) ∈ records → other = version) →
    ⟨b, version, t⟩ ∈ rows
  /-- So is a folded row, where no record is stored. -/
  folded : ∀ snapshot ∈ snapshots, ∀ t b, snapshot.Folds t b → ¬ Stored records t b →
    (∀ other ∈ snapshots, other.Folds t b → other.schemaVersion = snapshot.schemaVersion) →
    ⟨b, snapshot.schemaVersion, t⟩ ∈ rows
  /-- Every row is a stored record, a folded row where none is stored, or a floor. -/
  origin : ∀ row ∈ rows, (row.tableId, row.beginSnapshot, row.schemaVersion) ∈ records ∨
    (¬ Stored records row.tableId row.beginSnapshot ∧
      ∃ snapshot ∈ snapshots, snapshot.Folds row.tableId row.beginSnapshot ∧
        snapshot.schemaVersion = row.schemaVersion) ∨
    IsFloor records snapshots files rows row
  /-- A table whose oldest file the inputs do not cover has one floor. -/
  floors : ∀ t b, OldestFile files t b → (∀ b' ≤ b, ¬ KnownVersion records snapshots t b') →
    ∃! row, row ∈ rows ∧ row.tableId = t ∧ IsFloor records snapshots files rows row

variable {records snapshots files} {t b version : Nat}

theorem mem_schemaVersionRowsFrom : ⟨b, version, t⟩ ∈ schemaVersionRowsFrom records snapshots files ↔
    (schemaVersionFloors (versionRecords records snapshots) snapshots files)[(t, b)]? = some version ∨
      (versionRecords records snapshots)[(t, b)]? = some version := by
  have hlookup : ⟨b, version, t⟩ ∈ schemaVersionRowsFrom records snapshots files ↔
      (versionRecords records snapshots ∪
        schemaVersionFloors (versionRecords records snapshots) snapshots files)[(t, b)]? = some version := by
    simp only [schemaVersionRowsFrom, List.mem_map, ← ExtTreeMap.mem_toList_iff_getElem?_eq_some]
    constructor
    · rintro ⟨⟨⟨t', b'⟩, version'⟩, hmem, heq⟩
      cases heq
      exact hmem
    · exact fun hmem => ⟨_, hmem, rfl⟩
  rw [hlookup, ExtTreeMap.getElem?_union, Option.or_eq_some_iff]
  refine or_congr_right ⟨fun h => h.2, fun h => ⟨?_, h⟩⟩
  -- Where the inputs have a row there is no floor.
  refine Option.eq_none_iff_forall_ne_some.mpr fun floor hfloor => ?_
  rw [(getElem?_schemaVersionFloors.mp hfloor).2.1 b (Nat.le_refl b)] at h
  cases h

theorem versionRecords_eq_none_iff : (versionRecords records snapshots)[(t, b)]? = none ↔
    ¬ KnownVersion records snapshots t b := by
  rw [← isSome_versionRecords, Option.not_isSome_iff_eq_none]

/-- What is put as a floor is one. -/
theorem isFloor_of_mem
    (h : (schemaVersionFloors (versionRecords records snapshots) snapshots files)[(t, b)]? = some version) :
    IsFloor records snapshots files (schemaVersionRowsFrom records snapshots files) ⟨b, version, t⟩ := by
  obtain ⟨holdest, huncovered, rfl⟩ := getElem?_schemaVersionFloors.mp h
  simp only [versionRecords_eq_none_iff] at huncovered
  refine ⟨holdest, huncovered, ?_, fun hunknown => ?_⟩
  · rintro ⟨first, firstVersion, t'⟩ hmem rfl hknown hleast
    cases hfirst : firstOf (versionRecords records snapshots) t' with
    | none => exact absurd hknown (versionRecords_eq_none_iff.mp (firstOf_eq_none hfirst first))
    | some row =>
      obtain ⟨begins, oldestVersion, rfl, hlive, hbefore⟩ := firstOf_eq_some hfirst
      have heq : begins = first := by
        refine Nat.le_antisymm (hbefore first (isSome_versionRecords.mpr hknown)) (hleast begins ?_)
        exact isSome_versionRecords.mp (by rw [hlive]; rfl)
      subst heq
      rcases mem_schemaVersionRowsFrom.mp hmem with hfloor | hrow
      · have hnone := (getElem?_schemaVersionFloors.mp hfloor).2.1 begins (Nat.le_refl _)
        rw [hlive] at hnone
        cases hnone
      · exact Option.some.inj (hlive.symm.trans hrow)
  · have hnone : firstOf (versionRecords records snapshots) t = none := by
      refine Option.eq_none_iff_forall_ne_some.mpr fun row hrow => ?_
      obtain ⟨begins, _, -, hlive, -⟩ := firstOf_eq_some hrow
      exact hunknown begins (isSome_versionRecords.mp (by rw [hlive]; rfl))
    simp only [hnone, Option.map_none, Option.getD_none]

/-- A floor is at or before every file of its table, and where there is none an input row is. -/
theorem covered_by_rows (file : DataFileValue) (hfile : file ∈ files) :
    ∃ row ∈ schemaVersionRowsFrom records snapshots files,
      row.tableId = file.tableId ∧ row.beginSnapshot ≤ file.beginSnapshot := by
  obtain ⟨b, holdest, hle⟩ := exists_oldestFile hfile
  by_cases huncovered : ∀ b' ≤ b, (versionRecords records snapshots)[(file.tableId, b')]? = none
  · exact ⟨⟨b, _, file.tableId⟩,
      mem_schemaVersionRowsFrom.mpr (.inl (getElem?_schemaVersionFloors.mpr ⟨holdest, huncovered, rfl⟩)), rfl, hle⟩
  · push Not at huncovered
    obtain ⟨b', hb', hsome⟩ := huncovered
    obtain ⟨version, hversion⟩ := Option.ne_none_iff_exists'.mp hsome
    exact ⟨⟨b', version, file.tableId⟩, mem_schemaVersionRowsFrom.mpr (.inr hversion), rfl, hb'.trans hle⟩

theorem nodup_rowKeys : ((schemaVersionRowsFrom records snapshots files).map
    fun row => (row.tableId, row.beginSnapshot)).Nodup := by
  rw [schemaVersionRowsFrom, List.map_map]
  refine List.pairwise_map.mpr (ExtTreeMap.distinct_keys_toList.imp fun {x y} hne heq => hne ?_)
  rw [Std.LawfulEqCmp.compare_eq_iff_eq]
  exact heq

end Assembled

/-- Whatever the stored records, the snapshots and the data files are, the assembled rows cover every data file, keep
    the stored records and, where none is stored, the rows that snapshots fold in, have at most one row for a table and
    a snapshot, and add one floor for each table whose oldest file the inputs do not cover and for no other, with the
    oldest version that is known for it. -/
theorem schema_version_rows_cover (records : List (Nat × Nat × Nat)) (snapshots : List SnapshotValue)
    (files : List DataFileValue) :
    Assembled records snapshots files (schemaVersionRowsFrom records snapshots files) where
  covers := covered_by_rows
  single := nodup_rowKeys
  stored t b version hmem honly := by
    obtain ⟨other, hother⟩ := Option.isSome_iff_exists.mp
      (isSome_versionRecords.mpr (.inl ⟨version, hmem⟩ : KnownVersion records snapshots t b))
    rcases mem_versionRecords hother with hstored | ⟨hnot, -⟩
    · exact mem_schemaVersionRowsFrom.mpr (.inr (honly other hstored ▸ hother))
    · exact absurd ⟨version, hmem⟩ hnot
  folded snapshot hmem t b hfolds hnot honly := by
    obtain ⟨other, hother⟩ := Option.isSome_iff_exists.mp
      (isSome_versionRecords.mpr (.inr ⟨snapshot, hmem, hfolds⟩ : KnownVersion records snapshots t b))
    rcases mem_versionRecords hother with hstored | ⟨-, other', hmem', hfolds', hversion⟩
    · exact absurd ⟨other, hstored⟩ hnot
    · have heq := honly other' hmem' hfolds'
      exact mem_schemaVersionRowsFrom.mpr (.inr (heq ▸ hversion ▸ hother))
  origin := by
    rintro ⟨b, version, t⟩ hrow
    rcases mem_schemaVersionRowsFrom.mp hrow with hfloor | hinput
    · exact .inr (.inr (isFloor_of_mem hfloor))
    · exact (mem_versionRecords hinput).imp_right .inl
  floors t b holdest huncovered := by
    have hfloor : (schemaVersionFloors (versionRecords records snapshots) snapshots files)[(t, b)]? = some _ :=
      getElem?_schemaVersionFloors.mpr
        ⟨holdest, fun b' hb' => versionRecords_eq_none_iff.mpr (huncovered b' hb'), rfl⟩
    refine ⟨_, ⟨mem_schemaVersionRowsFrom.mpr (.inl hfloor), rfl, isFloor_of_mem hfloor⟩, ?_⟩
    rintro row ⟨hrow, htable, hisFloor⟩
    refine List.inj_on_of_nodup_map nodup_rowKeys hrow (mem_schemaVersionRowsFrom.mpr (.inl hfloor)) ?_
    have holdest' := hisFloor.oldest
    rw [htable] at holdest'
    simp only [htable, holdest'.unique holdest]

end Moraine
