-- SUMMARY: The catalog subspaces of the store, staged writes, and materializing the head view.
import Moraine.Catalog.Snapshot

/-!
# The store

The store is an ordered key-value map split into subspaces. The subspaces the catalog view is built
from, and those a commit's batch maintains beside them, are one field each; inlined data and index
entries have their own model in the modules about rows. A staged write names a key of one subspace and
either puts a value or deletes.
-/

namespace Moraine

open Std (ExtTreeMap TransOrd LawfulEqOrd)
open OrdMap NameIndex

/-- The crate's error variants. The payload is the message. -/
inductive Error where
  | commitConflict (message : String)
  | retryBudgetExhausted (message : String)
  | corruption (message : String)
  | notFound (message : String)
  | alreadyExists (message : String)
  | constraint (message : String)
  | unsupported (message : String)
  | snapshotExpired (message : String)
  | interrupted (message : String)
  | migration (message : String)
  | indexBuilding (message : String)
  | configuration (message : String)
  | fenced (message : String)
  | openRaced (message : String)
  | store
  deriving DecidableEq

/-- An ended entity version. -/
structure HistoryKey where
  entity : EntityKey
  endSnapshot : Nat

/-- One entity's versions sort by when they ended. -/
instance : LinearOrder HistoryKey :=
  LinearOrder.lift' (fun k => toLex (CurrentKey.entity k.entity, k.endSnapshot)) (by
    rintro ⟨e, s⟩ ⟨e', s'⟩ h
    simpa using h)

instance : LawfulEqOrd HistoryKey := ⟨fun h => compare_eq_iff_eq.mp h⟩

instance : TransOrd HistoryKey := inferInstance

/-- The structural-migration marker, present only while a migration runs. -/
structure MigrationValue where
  fromFormat : Nat
  toFormat : Nat
  /-- Where the running unit resumes. -/
  cursor : List UInt8 := []
  deriving DecidableEq

/-- One staged write: a key of some subspace, and the value to put there or `none` to delete. A
    changelog's value is the sorted list of `current` keys its commit wrote. -/
inductive StagedWrite where
  | head (value : HeadValue)
  | snapshot (snapshotId : Nat) (value : Option SnapshotValue)
  | current (key : CurrentKey) (value : Option EntityRecord)
  | history (key : HistoryKey) (value : Option EntityRecord)
  | schemaVersion (tableId beginSnapshot : Nat) (value : Option Nat)
  | changelog (snapshotId : Nat) (value : Option (List CurrentKey))
  deriving DecidableEq

/-- The store's catalog subspaces. -/
structure Store where
  migration : Option MigrationValue := none
  head : HeadValue := ⟨0, 0⟩
  snapshots : ExtTreeMap Nat SnapshotValue := ∅
  current : ExtTreeMap CurrentKey EntityRecord := ∅
  history : ExtTreeMap HistoryKey EntityRecord := ∅
  schemaVersions : ExtTreeMap (Nat × Nat) Nat := ∅
  changelog : ExtTreeMap Nat (List CurrentKey) := ∅

namespace Store

/-- One write lands. -/
def apply (s : Store) : StagedWrite → Store
  | .head value => { s with head := value }
  | .snapshot id value => { s with snapshots := setKey s.snapshots id value }
  | .current key value => { s with current := setKey s.current key value }
  | .history key value => { s with history := setKey s.history key value }
  | .schemaVersion t b value => { s with schemaVersions := setKey s.schemaVersions (t, b) value }
  | .changelog id value => { s with changelog := setKey s.changelog id value }

/-- A batch lands: its writes in order. -/
def applyBatch (s : Store) (writes : List StagedWrite) : Store := writes.foldl apply s

@[simp] theorem applyBatch_nil (s : Store) : s.applyBatch [] = s := rfl

@[simp] theorem applyBatch_cons (s : Store) (w : StagedWrite) (ws : List StagedWrite) :
    s.applyBatch (w :: ws) = (s.apply w).applyBatch ws := rfl

theorem applyBatch_append (s : Store) (us ws : List StagedWrite) :
    s.applyBatch (us ++ ws) = (s.applyBatch us).applyBatch ws := by
  simp [applyBatch]

/-- Every record stands under the key its own ids name: the code builds a record's key from its ids. -/
def WellKeyed (s : Store) : Prop :=
  ∀ (k : CurrentKey) (r : EntityRecord), s.current[k]? = some r → r.key = k

/-- The `current` records, in key order. -/
def scanCurrentEntities (s : Store) : List EntityRecord := s.current.toList.map Prod.snd

def refuseMidMigration (s : Store) : Except Error Unit :=
  match s.migration with
  | some marker => .error (.migration
      (s!"store is migrating from format {marker.fromFormat} to {marker.toFormat}; " ++
        "reads are unavailable until it completes"))
  | none => .ok ()

def belowHorizon (requested head : Nat) : Error :=
  .snapshotExpired s!"snapshot {requested} is below the retention horizon (head is {head}); re-resolve from head"

/-- The head's snapshot record. A missing record at head is an expired snapshot. -/
def resolveHead (s : Store) : Except Error SnapshotValue :=
  match s.snapshots[s.head.snapshotId]? with
  | some snapshot => .ok snapshot
  | none => .error (belowHorizon s.head.snapshotId s.head.snapshotId)

/-- The view a scan of `current` builds for the snapshot record `snapshot`. -/
def viewAt (s : Store) (snapshot : SnapshotValue) : CatalogSnapshot :=
  { CatalogSnapshot.build snapshot s.scanCurrentEntities [] none with batchSeq := s.head.batchSeq }

/-- Materializes the head view: one scan of `current`, stamped with the head's batch count. -/
def materialize (s : Store) : Except Error CatalogSnapshot := do
  s.refuseMidMigration
  let snapshot ← s.resolveHead
  return s.viewAt snapshot

/-! ## What the materialized view shows -/

variable {s : Store}

/-- The live records of a scan. -/
private def liveRecords (s : Store) : List EntityRecord :=
  s.scanCurrentEntities.filter (CatalogSnapshot.isLive none)

theorem mem_scan {r : EntityRecord} (hs : s.WellKeyed) :
    r ∈ s.scanCurrentEntities ↔ s.current[r.key]? = some r := by
  simp only [scanCurrentEntities, List.mem_map, Prod.exists, exists_eq_right,
    ExtTreeMap.mem_toList_iff_getElem?_eq_some]
  constructor
  · rintro ⟨k, hk⟩
    rwa [hs k r hk]
  · exact fun h => ⟨r.key, h⟩

theorem scan_sorted (hs : s.WellKeyed) :
    s.scanCurrentEntities.Pairwise fun a b => a.key < b.key := by
  have hkeys : s.scanCurrentEntities.map EntityRecord.key = s.current.keys := by
    rw [← ExtTreeMap.map_fst_toList_eq_keys, scanCurrentEntities, List.map_map]
    refine List.map_congr_left fun p hp => ?_
    exact hs p.1 p.2 (ExtTreeMap.mem_toList_iff_getElem?_eq_some.mp hp)
  have hord : (s.scanCurrentEntities.map EntityRecord.key).Pairwise (· < ·) := by
    rw [hkeys]
    exact ExtTreeMap.ordered_keys.imp fun h => compare_lt_iff_lt.mp h
  exact List.pairwise_map.mp hord

private theorem liveRecords_nodup (hs : s.WellKeyed) : (s.liveRecords.map EntityRecord.key).Nodup := by
  rw [List.nodup_iff_pairwise_ne, List.pairwise_map]
  exact ((scan_sorted hs).filter _).imp fun h => h.ne

private theorem viewAt_eq (snapshot : SnapshotValue) :
    s.viewAt snapshot =
      { s.liveRecords.foldl CatalogSnapshot.putRecord { snapshot := snapshot } with
        batchSeq := s.head.batchSeq } := by
  rw [viewAt, CatalogSnapshot.build_eq, List.append_nil, liveRecords]

/-- The view holds exactly the stored records without an end. -/
theorem viewAt_get (hs : s.WellKeyed) (snapshot : SnapshotValue) (k : CurrentKey) :
    (s.viewAt snapshot).get k = s.current[k]?.filter (CatalogSnapshot.isLive none) := by
  rw [viewAt_eq, CatalogSnapshot.get_stamp]
  by_cases hk : k ∈ s.liveRecords.map EntityRecord.key
  · obtain ⟨r, hr, rfl⟩ := List.mem_map.mp hk
    obtain ⟨hmem, hlive⟩ := List.mem_filter.mp hr
    rw [CatalogSnapshot.get_foldl_putRecord_of_mem (liveRecords_nodup hs) hr, (mem_scan hs).mp hmem,
      Option.filter_some, if_pos hlive]
  · rw [CatalogSnapshot.get_foldl_putRecord_of_not_mem hk, CatalogSnapshot.get_empty, eq_comm,
      Option.filter_eq_none_iff]
    intro r hr hlive
    have hkey := hs k r hr
    refine hk (List.mem_map.mpr ⟨r, List.mem_filter.mpr ⟨(mem_scan hs).mpr (hkey ▸ hr), hlive⟩, hkey⟩)

/-- The view's name index resolves every name to the greatest live id holding it. -/
theorem viewAt_faithful (hs : s.WellKeyed) (snapshot : SnapshotValue) :
    (s.viewAt snapshot).directory.Faithful := by
  rw [viewAt_eq, CatalogSnapshot.directory_stamp, CatalogSnapshot.directory_foldl_putRecord,
    CatalogSnapshot.directory_empty]
  apply Directory.faithful_rebuild
  rw [List.pairwise_map]
  exact (scan_sorted hs).filter _

theorem viewAt_wellKeyed (hs : s.WellKeyed) (snapshot : SnapshotValue) :
    (s.viewAt snapshot).WellKeyed := by
  intro k r h
  rw [viewAt_get hs, Option.filter_eq_some_iff] at h
  exact hs k r h.1

theorem viewAt_finite (hs : s.WellKeyed) (snapshot : SnapshotValue) :
    {k | (s.viewAt snapshot).directory.held k ≠ none}.Finite := by
  refine (finite_present s.current).subset fun k hk habsent => hk ?_
  simp [CatalogSnapshot.directory, viewAt_get hs, habsent]

@[simp] theorem viewAt_snapshot (snapshot : SnapshotValue) : (s.viewAt snapshot).snapshot = snapshot := by
  rw [viewAt_eq]
  exact CatalogSnapshot.foldl_putRecord_snapshot

@[simp] theorem viewAt_batchSeq (snapshot : SnapshotValue) :
    (s.viewAt snapshot).batchSeq = s.head.batchSeq := rfl

end Store

end Moraine
