-- SUMMARY: What one commit writes, runs of commits, and the changelog records they leave.
import Moraine.Transaction.CommitFold

/-!
# Commits and their changelogs

Every commit, whichever way it was authored, reaches the store as a batch of one shape: writes of catalog
records, then either a minted snapshot with the changelog of the batch, or nothing more than the unchanged
head with its batch count moved. `Member` is that shape. A verb commit is one (`prepareAndStage`); a
staged-row commit is one whose catalog writes come from its rows; a maintenance or options-only commit is
one that mints no snapshot. The members of a group land one after another in one batch.

What a reader can learn from the changelogs of a run is `current_eq_of_recorded`: if the batch count moved
by as much as the snapshot id and every snapshot of the gap has its record, then the records together name
every `current` key the gap wrote.
-/

namespace Moraine

open Std (ExtTreeMap ExtTreeSet TransOrd LawfulEqOrd)
open OrdMap NameIndex CatalogSnapshot

/-! ## Changelogs -/

/-- The largest changelog a commit records. -/
def MAX_REFRESH_KEYS : Nat := 256

/-- How many commits' changelogs the store keeps. -/
def CHANGELOG_WINDOW : Nat := 64

/-- The `current` keys a batch wrote, sorted and without duplicates, unless there are too many. -/
def refreshKeysOf (writes : List StagedWrite) : Option (List CurrentKey) :=
  let keys := (ExtTreeSet.ofList ((currentWrites writes).map Prod.fst)).toList
  if keys.length > MAX_REFRESH_KEYS then none else some keys

/-- The changelog writes of a batch that mints `snapshotId`: its own record, if it has a usable one, and
    the deletion of the record a window back. -/
def changelogWrites (snapshotId : Nat) (writes : List StagedWrite) : List StagedWrite :=
  (match refreshKeysOf writes with
    | some keys => [.changelog snapshotId (some keys)]
    | none => []) ++
  if CHANGELOG_WINDOW ≤ snapshotId then [.changelog (snapshotId - CHANGELOG_WINDOW) none] else []

theorem mem_refreshKeysOf {writes : List StagedWrite} {keys : List CurrentKey}
    (h : refreshKeysOf writes = some keys) (k : CurrentKey) :
    k ∈ keys ↔ k ∈ (currentWrites writes).map Prod.fst := by
  simp only [refreshKeysOf] at h
  split at h
  · cases h
  · cases h
    rw [ExtTreeSet.mem_toList, ExtTreeSet.mem_ofList, List.contains_iff_mem]

/-! ## Members -/

/-- Whether a write belongs to the catalog part of a batch: anything but the head, a changelog or a new
    snapshot record. -/
def StagedWrite.isCatalog : StagedWrite → Bool
  | .head _ => false
  | .changelog _ _ => false
  | .snapshot _ value => value.isNone
  | .current _ _ => true
  | .history _ _ => true
  | .schemaVersion _ _ _ => true

/-- A write of an entity, of its history or of a table's schema version. -/
def StagedWrite.isEntity : StagedWrite → Bool
  | .current _ _ | .history _ _ | .schemaVersion _ _ _ => true
  | _ => false

theorem StagedWrite.isCatalog_of_isEntity {w : StagedWrite} (h : w.isEntity) : w.isCatalog := by
  cases w <;> simp_all [StagedWrite.isEntity, StagedWrite.isCatalog]

/-- One commit: its catalog writes and the snapshot it mints, if any. -/
structure Member where
  writes : List StagedWrite
  minted : Option SnapshotValue
  deriving DecidableEq

namespace Member

/-- The head write every batch carries: the snapshot id it leaves at head, and a batch count one above the
    one standing. -/
def headWrite (s : Store) (snapshotId : Nat) : StagedWrite :=
  .head ⟨snapshotId, s.head.batchSeq + 1⟩

/-- The batch a member stages on the store state it reads. -/
def batch (s : Store) (m : Member) : List StagedWrite :=
  match m.minted with
  | none => m.writes ++ [headWrite s s.head.snapshotId]
  | some snapshot =>
    m.writes ++ changelogWrites snapshot.snapshotId m.writes ++
      [.snapshot snapshot.snapshotId (some snapshot), headWrite s snapshot.snapshotId]

/-- The snapshot id the member mints. -/
def mintedId (m : Member) : Option Nat := m.minted.map SnapshotValue.snapshotId

/-- What both commit paths give: catalog writes under the keys the records' own ids name, and a snapshot
    id past the head. -/
structure Lands (s : Store) (m : Member) : Prop where
  keyed : ∀ k r, (k, some r) ∈ currentWrites m.writes → r.key = k
  catalog : ∀ w ∈ m.writes, w.isCatalog
  ahead : ∀ id, m.mintedId = some id → s.head.snapshotId < id

end Member

/-- The store after a member's batch. -/
def Store.commit (s : Store) (m : Member) : Store := s.applyBatch (m.batch s)

namespace Store

section Apply

variable {s : Store} {writes : List StagedWrite}

private theorem apply_catalog {w : StagedWrite} (h : w.isCatalog) :
    (s.apply w).head = s.head ∧ (s.apply w).changelog = s.changelog := by
  cases w <;> simp_all [apply, StagedWrite.isCatalog]

theorem applyBatch_catalog (h : ∀ w ∈ writes, w.isCatalog) :
    (s.applyBatch writes).head = s.head ∧ (s.applyBatch writes).changelog = s.changelog := by
  induction writes generalizing s with
  | nil => exact ⟨rfl, rfl⟩
  | cons w ws ih =>
    have hw := apply_catalog (s := s) (h w List.mem_cons_self)
    have hws := ih (s := s.apply w) fun w' hw' => h w' (List.mem_cons_of_mem _ hw')
    rw [applyBatch_cons, hws.1, hws.2]
    exact hw

@[simp] theorem applyBatch_migration : (s.applyBatch writes).migration = s.migration := by
  induction writes generalizing s with
  | nil => rfl
  | cons w ws ih =>
    rw [applyBatch_cons, ih]
    cases w <;> rfl

/-- A batch of writes under the right keys keeps every record under its key. -/
theorem WellKeyed.applyBatch_keyed (hs : s.WellKeyed)
    (h : ∀ k r, (k, some r) ∈ currentWrites writes → r.key = k) : (s.applyBatch writes).WellKeyed := by
  induction writes generalizing s with
  | nil => exact hs
  | cons w ws ih =>
    rw [currentWrites_cons] at h
    rw [applyBatch_cons]
    refine ih (fun k r hr => ?_) fun k r hr => h k r (List.mem_append_right _ hr)
    cases w with
    | current key value =>
      simp only [apply, getElem?_setKey] at hr
      split at hr
      · next hk => exact h k r (List.mem_append_left _ (by simp [currentWrites, hk, hr]))
      · exact hs k r hr
    | _ => exact hs k r hr

end Apply

section Commit

variable {s : Store} {m : Member}

/-- The head a member leaves: the id it mints, or the standing one, and one batch more. -/
theorem commit_head :
    (s.commit m).head = ⟨m.mintedId.getD s.head.snapshotId, s.head.batchSeq + 1⟩ := by
  cases hm : m.minted with
  | none => simp [commit, Member.batch, Member.mintedId, hm, Member.headWrite, applyBatch_append, apply]
  | some snapshot =>
    simp [commit, Member.batch, Member.mintedId, hm, Member.headWrite, applyBatch_append, apply]

@[simp] theorem commit_migration : (s.commit m).migration = s.migration := applyBatch_migration

theorem currentWrites_batch : currentWrites (m.batch s) = currentWrites m.writes := by
  have hlog : ∀ id ws, currentWrites (changelogWrites id ws) = [] := by
    intro id ws
    unfold changelogWrites
    split <;> split <;> rfl
  cases hm : m.minted with
  | none =>
    simp only [Member.batch, hm, currentWrites_append]
    exact List.append_nil _
  | some snapshot =>
    simp only [Member.batch, hm, currentWrites_append, hlog, List.append_nil]
    exact List.append_nil _

theorem commit_current : (s.commit m).current = setKeys s.current (currentWrites m.writes) := by
  rw [commit, applyBatch_current, currentWrites_batch]

private theorem changelogWrites_changelog {id j : Nat} {ws : List StagedWrite} {keys : List CurrentKey}
    (h : (s.applyBatch (changelogWrites id ws)).changelog[j]? = some keys) :
    s.changelog[j]? = some keys ∨ id = j ∧ refreshKeysOf ws = some keys := by
  -- The deletion a window back leaves a record only where it was.
  have hexpire : ∀ s' : Store,
      (s'.applyBatch (if CHANGELOG_WINDOW ≤ id then [.changelog (id - CHANGELOG_WINDOW) none] else []))
        |>.changelog[j]? = some keys → s'.changelog[j]? = some keys := by
    intro s' h'
    split at h'
    · rw [applyBatch_cons, applyBatch_nil, apply, getElem?_setKey] at h'
      split at h'
      · cases h'
      · exact h'
    · exact h'
  rw [changelogWrites, applyBatch_append] at h
  replace h := hexpire _ h
  split at h
  · next recorded hrec =>
    rw [applyBatch_cons, applyBatch_nil, apply, getElem?_setKey] at h
    split at h
    · next hj => exact .inr ⟨hj.symm, hrec.trans h⟩
    · exact .inl h
  · exact .inl h

/-- A member writes no changelog but the record of the snapshot it mints, and that only if it has one. -/
theorem commit_changelog (h : ∀ w ∈ m.writes, w.isCatalog) {id : Nat} {keys : List CurrentKey}
    (hid : (s.commit m).changelog[id]? = some keys) :
    s.changelog[id]? = some keys ∨ m.mintedId = some id ∧ refreshKeysOf m.writes = some keys := by
  cases hm : m.minted with
  | none =>
    refine .inl ?_
    simp only [commit, Member.batch, hm, applyBatch_append] at hid
    rwa [← (applyBatch_catalog (s := s) h).2]
  | some snapshot =>
    simp only [commit, Member.batch, hm, applyBatch_append] at hid
    rcases changelogWrites_changelog hid with hid | ⟨rfl, hkeys⟩
    · exact .inl (by rwa [← (applyBatch_catalog (s := s) h).2])
    · exact .inr ⟨by simp [Member.mintedId, hm], hkeys⟩

/-- A snapshot record stands under its own id. -/
def SnapshotsKeyed (s : Store) : Prop :=
  ∀ (id : Nat) (snapshot : SnapshotValue), s.snapshots[id]? = some snapshot → snapshot.snapshotId = id

private theorem SnapshotsKeyed.applyBatch {writes : List StagedWrite} (hs : s.SnapshotsKeyed)
    (h : ∀ id snapshot, .snapshot id (some snapshot) ∈ writes → snapshot.snapshotId = id) :
    (s.applyBatch writes).SnapshotsKeyed := by
  induction writes generalizing s with
  | nil => exact hs
  | cons w ws ih =>
    rw [applyBatch_cons]
    refine ih ?_ fun id snapshot hw => h id snapshot (List.mem_cons_of_mem _ hw)
    intro id snapshot hid
    cases w with
    | snapshot id' value =>
      simp only [apply, getElem?_setKey] at hid
      split at hid
      · next heq =>
        subst hid heq
        exact h id snapshot List.mem_cons_self
      · exact hs id snapshot hid
    | _ => exact hs id snapshot hid

theorem SnapshotsKeyed.commit (hs : s.SnapshotsKeyed) (h : ∀ w ∈ m.writes, w.isCatalog) :
    (s.commit m).SnapshotsKeyed := by
  refine hs.applyBatch fun id snapshot hw => ?_
  have hcatalog : StagedWrite.snapshot id (some snapshot) ∉ m.writes := fun hw => by
    simpa [StagedWrite.isCatalog] using h _ hw
  have hlog : ∀ id' ws, StagedWrite.snapshot id (some snapshot) ∉ changelogWrites id' ws := by
    intro id' ws hw
    unfold changelogWrites at hw
    split at hw <;> split at hw <;> simp at hw
  cases hm : m.minted with
  | none =>
    simp [Member.batch, hm, hcatalog, Member.headWrite] at hw
  | some minted =>
    simp only [Member.batch, hm, Member.headWrite, List.mem_append, hcatalog, hlog, false_or,
      List.mem_cons, StagedWrite.snapshot.injEq, Option.some.injEq, List.not_mem_nil, or_false,
      reduceCtorEq] at hw
    rw [hw.1, hw.2]

/-- Only a write of a snapshot changes its record. -/
private theorem applyBatch_snapshots {writes : List StagedWrite} {id : Nat}
    (h : ∀ value, StagedWrite.snapshot id value ∉ writes) :
    (s.applyBatch writes).snapshots[id]? = s.snapshots[id]? := by
  induction writes generalizing s with
  | nil => rfl
  | cons w ws ih =>
    rw [applyBatch_cons, ih fun value hw => h value (List.mem_cons_of_mem _ hw)]
    cases w with
    | snapshot id' value =>
      refine (getElem?_setKey ..).trans (if_neg ?_)
      rintro rfl
      exact h value List.mem_cons_self
    | _ => rfl

/-- A member whose writes leave the record of a snapshot leaves it, unless it mints the snapshot. -/
theorem commit_snapshots_of_kept {id : Nat} (h : ∀ value, StagedWrite.snapshot id value ∉ m.writes) :
    (s.commit m).snapshots[id]? = if m.mintedId = some id then m.minted else s.snapshots[id]? := by
  have hlog : ∀ id' ws value, StagedWrite.snapshot id value ∉ changelogWrites id' ws := by
    intro id' ws value hw
    unfold changelogWrites at hw
    split at hw <;> split at hw <;> simp at hw
  cases hm : m.minted with
  | none =>
    have hbatch : (s.commit m).snapshots[id]? = s.snapshots[id]? :=
      applyBatch_snapshots (by simp [Member.batch, hm, Member.headWrite, h])
    simp [hbatch, Member.mintedId, hm]
  | some minted =>
    simp only [commit, Member.batch, hm, applyBatch_append, applyBatch_cons, applyBatch_nil, apply, Member.headWrite,
      getElem?_setKey, applyBatch_snapshots (hlog _ _), applyBatch_snapshots h, Member.mintedId, Option.map_some,
      Option.some.injEq, eq_comm]

/-- A member of entity writes adds the snapshot it mints, and keeps the others. -/
theorem commit_snapshots (h : ∀ w ∈ m.writes, w.isEntity) (id : Nat) :
    (s.commit m).snapshots[id]? = if m.mintedId = some id then m.minted else s.snapshots[id]? :=
  commit_snapshots_of_kept fun value hw => by simpa [StagedWrite.isEntity] using h _ hw

theorem WellKeyed.commit (hs : s.WellKeyed) (h : m.Lands s) : (s.commit m).WellKeyed :=
  hs.applyBatch_keyed fun k r hr => h.keyed k r (by rwa [currentWrites_batch] at hr)

end Commit

end Store

/-! ## Runs -/

/-- `Run s₀ ms s`: the members `ms`, landing one after another, lead from `s₀` to `s`. -/
inductive Run (s₀ : Store) : List Member → Store → Prop where
  | refl : Run s₀ [] s₀
  | step {ms : List Member} {s : Store} {m : Member} (run : Run s₀ ms s) (lands : m.Lands s) :
      Run s₀ (ms ++ [m]) (s.commit m)

/-- Records stand under their own keys, and no changelog stands past the head. -/
structure Store.Consistent (s : Store) : Prop where
  keyed : s.WellKeyed
  snapshots : s.SnapshotsKeyed
  recorded : ∀ id, s.head.snapshotId < id → s.changelog[id]? = none

namespace Run

variable {s₀ s : Store} {ms : List Member}

theorem trans {t : Store} {ms' : List Member} (h : Run s₀ ms s) (h' : Run s ms' t) : Run s₀ (ms ++ ms') t := by
  induction h' with
  | refl => rwa [List.append_nil]
  | step _ lands ih => exact List.append_assoc .. ▸ ih.step lands

theorem wellKeyed (h : Run s₀ ms s) (h₀ : s₀.WellKeyed) : s.WellKeyed := by
  induction h with
  | refl => exact h₀
  | step _ lands ih => exact ih.commit lands

theorem snapshotsKeyed (h : Run s₀ ms s) (h₀ : s₀.SnapshotsKeyed) : s.SnapshotsKeyed := by
  induction h with
  | refl => exact h₀
  | step _ lands ih => exact ih.commit lands.catalog

theorem migration (h : Run s₀ ms s) : s.migration = s₀.migration := by
  induction h with
  | refl => rfl
  | step _ _ ih => rw [Store.commit_migration, ih]

/-- Every member moves the batch count by one. -/
theorem batchSeq (h : Run s₀ ms s) : s.head.batchSeq = s₀.head.batchSeq + ms.length := by
  induction h with
  | refl => rfl
  | step _ _ ih => rw [Store.commit_head, ih, List.length_append, List.length_singleton, Nat.add_assoc]

/-- A key no member writes keeps its record. -/
theorem current_eq (h : Run s₀ ms s) {k : CurrentKey}
    (hk : ∀ m ∈ ms, k ∉ (currentWrites m.writes).map Prod.fst) : s.current[k]? = s₀.current[k]? := by
  induction h with
  | refl => rfl
  | @step ms s m _ _ ih =>
    rw [Store.commit_current, getElem?_setKeys_of_not_mem (hk m (by simp)),
      ih fun m' hm' => hk m' (List.mem_append_left _ hm')]

/-- The ids the members mint. -/
def mintedIds (ms : List Member) : List Nat := ms.filterMap Member.mintedId

theorem head_le (h : Run s₀ ms s) : s₀.head.snapshotId ≤ s.head.snapshotId := by
  induction h with
  | refl => exact le_rfl
  | @step ms s m _ lands ih =>
    rw [Store.commit_head]
    cases hid : m.mintedId with
    | none => exact ih
    | some id => exact ih.trans (lands.ahead id hid).le

/-- Minted ids ascend, past the head the run starts at and up to the one it ends at. -/
theorem mintedIds_ascend (h : Run s₀ ms s) :
    (mintedIds ms).Pairwise (· < ·) ∧
      ∀ id ∈ mintedIds ms, s₀.head.snapshotId < id ∧ id ≤ s.head.snapshotId := by
  induction h with
  | refl => exact ⟨.nil, by simp [mintedIds]⟩
  | @step ms s m run lands ih =>
    rw [mintedIds, List.filterMap_append, Store.commit_head]
    cases hid : m.mintedId with
    | none => simpa [hid, mintedIds] using ih
    | some id =>
      have hahead := lands.ahead id hid
      have hle := run.head_le
      simp only [List.filterMap_cons, hid, List.filterMap_nil, List.pairwise_append, Option.getD_some,
        List.mem_append, List.mem_singleton]
      refine ⟨⟨ih.1, List.pairwise_singleton _ _, ?_⟩, ?_⟩
      · rintro a ha b rfl
        exact (ih.2 a ha).2.trans_lt hahead
      · rintro a (ha | rfl)
        · exact ⟨(ih.2 a ha).1, (ih.2 a ha).2.trans hahead.le⟩
        · exact ⟨hle.trans_lt hahead, le_rfl⟩

/-- No two members mint one id. -/
theorem eq_of_mintedId (h : Run s₀ ms s) {id : Nat} {m m' : Member} (hm : m ∈ ms) (hm' : m' ∈ ms)
    (hid : m.mintedId = some id) (hid' : m'.mintedId = some id) : m = m' := by
  induction h with
  | refl => cases hm
  | @step ms s last run lands ih =>
    -- An id minted before the last member is at most the head it is staged on.
    have hle : ∀ a ∈ ms, a.mintedId = some id → id ≤ s.head.snapshotId := fun a ha haid =>
      (run.mintedIds_ascend.2 id (List.mem_filterMap.mpr ⟨a, ha, haid⟩)).2
    simp only [List.mem_append, List.mem_singleton] at hm hm'
    rcases hm with hm | rfl <;> rcases hm' with hm' | rfl
    · exact ih hm hm'
    · exact absurd (hle m hm hid) (not_le.mpr (lands.ahead id hid'))
    · exact absurd (hle m' hm' hid') (not_le.mpr (lands.ahead id hid))
    · rfl

/-- A changelog past the starting head is the record of the member that minted its snapshot. -/
theorem changelog_eq (h : Run s₀ ms s) (h₀ : s₀.Consistent) {id : Nat} {keys : List CurrentKey}
    (hpast : s₀.head.snapshotId < id) (hid : s.changelog[id]? = some keys) :
    ∃ m ∈ ms, m.mintedId = some id ∧ refreshKeysOf m.writes = some keys := by
  induction h with
  | refl => rw [h₀.recorded id hpast] at hid; cases hid
  | @step ms s m _ lands ih =>
    rcases Store.commit_changelog lands.catalog hid with hid | hm
    · obtain ⟨m', hm', h'⟩ := ih hid
      exact ⟨m', List.mem_append_left _ hm', h'⟩
    · exact ⟨m, by simp, hm⟩

/-- Runs keep the store consistent. -/
theorem consistent (h : Run s₀ ms s) (h₀ : s₀.Consistent) : s.Consistent where
  keyed := h.wellKeyed h₀.keyed
  snapshots := h.snapshotsKeyed h₀.snapshots
  recorded id hid := by
    by_contra hne
    obtain ⟨keys, hkeys⟩ := Option.ne_none_iff_exists'.mp hne
    obtain ⟨m, hm, hmint, -⟩ := h.changelog_eq h₀ (h.head_le.trans_lt hid) hkeys
    exact absurd (h.mintedIds_ascend.2 id (List.mem_filterMap.mpr ⟨m, hm, hmint⟩)).2 (not_le.mpr hid)

/-- If the batch count moved as far as the snapshot id and every snapshot of the gap has its record, then
    every member of the gap minted a snapshot. -/
theorem minted_of_recorded (h : Run s₀ ms s) (h₀ : s₀.Consistent)
    (hcount : s.head.batchSeq - s₀.head.batchSeq = s.head.snapshotId - s₀.head.snapshotId)
    (hrec : ∀ id, s₀.head.snapshotId < id → id ≤ s.head.snapshotId → s.changelog[id]?.isSome)
    {m : Member} (hm : m ∈ ms) : m.mintedId.isSome := by
  have hlen : ms.length = s.head.snapshotId - s₀.head.snapshotId := by
    rw [← hcount, h.batchSeq, Nat.add_sub_cancel_left]
  -- The gap's ids are all minted, and there are as many of them as members.
  have hsub : Finset.Ioc s₀.head.snapshotId s.head.snapshotId ⊆ (mintedIds ms).toFinset := by
    intro id hid
    rw [Finset.mem_Ioc] at hid
    obtain ⟨keys, hkeys⟩ := Option.isSome_iff_exists.mp (hrec id hid.1 hid.2)
    obtain ⟨m', hm', hmint, -⟩ := h.changelog_eq h₀ hid.1 hkeys
    exact List.mem_toFinset.mpr (List.mem_filterMap.mpr ⟨m', hm', hmint⟩)
  have hcard := (Finset.card_le_card hsub).trans (List.toFinset_card_le _)
  rw [Nat.card_Ioc, ← hlen] at hcard
  have hall := List.filterMap_length_eq_length.mp (le_antisymm (List.length_filterMap_le _ _) hcard)
  exact hall m hm

/-- Under the same conditions the records name every `current` key the gap wrote. -/
theorem current_eq_of_recorded (h : Run s₀ ms s) (h₀ : s₀.Consistent)
    (hcount : s.head.batchSeq - s₀.head.batchSeq = s.head.snapshotId - s₀.head.snapshotId)
    (hrec : ∀ id, s₀.head.snapshotId < id → id ≤ s.head.snapshotId → s.changelog[id]?.isSome)
    {k : CurrentKey}
    (hk : ∀ id keys, s₀.head.snapshotId < id → id ≤ s.head.snapshotId → s.changelog[id]? = some keys → k ∉ keys) :
    s.current[k]? = s₀.current[k]? := by
  refine h.current_eq fun m hm hwritten => ?_
  obtain ⟨id, hid⟩ := Option.isSome_iff_exists.mp (h.minted_of_recorded h₀ hcount hrec hm)
  obtain ⟨hlo, hhi⟩ := h.mintedIds_ascend.2 id (List.mem_filterMap.mpr ⟨m, hm, hid⟩)
  obtain ⟨keys, hkeys⟩ := Option.isSome_iff_exists.mp (hrec id hlo hhi)
  obtain ⟨m', hm', hid', hkeys'⟩ := h.changelog_eq h₀ hlo hkeys
  obtain rfl := h.eq_of_mintedId hm hm' hid hid'
  exact hk id keys hlo hhi hkeys ((mem_refreshKeysOf hkeys' k).mpr hwritten)

end Run

/-! ## The verb path -/

section EntityWrites

variable {M : Type} [DecidableEq M]

variable {record : M → EntityRecord} {newSnapshot : Nat} {setEnd internalFree : M → M} {entity : EntityKey}
  {key : CurrentKey} {b s : Option M} {w : StagedWrite} (hw : ¬ w.isEntity)

include hw

private theorem not_mem_stageTransition : w ∉ stageTransition record newSnapshot setEnd entity b s := by
  rintro hmem
  unfold stageTransition at hmem
  split at hmem <;> try split at hmem
  all_goals grind [StagedWrite.isEntity]

private theorem not_mem_stageOverwrite : w ∉ stageOverwrite record key b s := by
  rintro hmem
  unfold stageOverwrite at hmem
  split at hmem <;> try split at hmem
  all_goals grind [StagedWrite.isEntity]

private theorem not_mem_stageTransitionWithInternal :
    w ∉ stageTransitionWithInternal record newSnapshot setEnd internalFree entity b s := by
  unfold stageTransitionWithInternal
  split
  · split
    · rintro hmem
      grind [StagedWrite.isEntity]
    · exact not_mem_stageTransition hw
  · exact not_mem_stageTransition hw

omit hw

/-- The diff writes entity records and their history mirrors, nothing else. -/
theorem diffWrites_entity (base state : CatalogSnapshot) (newSnapshot : Nat) :
    ∀ w ∈ diffWrites base state newSnapshot, w.isEntity := by
  intro w hmem
  by_contra hw
  rw [diffWrites, List.mem_flatten] at hmem
  simp only [diffParts, List.mem_cons, List.not_mem_nil, exists_eq_or_imp, or_false, exists_eq_left,
    diffSchemas, diffTables, diffViews, diffColumns, diffDataFiles, diffDeleteFiles, diffPartitions, diffSorts,
    diffIndexes, diffMacros, mem_diffMappings, diffTableStats, diffTableColumnStats, mem_diffFileColumnStats,
    diffOptions, diffTags, diffGcFiles] at hmem
  repeat rw [mem_diffMap_writes fun _ => rfl] at hmem
  repeat rw [mem_diffNested_writes fun _ _ => rfl] at hmem
  simp [not_mem_stageTransition hw, not_mem_stageTransitionWithInternal hw, not_mem_stageOverwrite hw] at hmem

theorem diffWrites_catalog (base state : CatalogSnapshot) (newSnapshot : Nat) :
    ∀ w ∈ diffWrites base state newSnapshot, w.isCatalog :=
  fun w hw => StagedWrite.isCatalog_of_isEntity (diffWrites_entity base state newSnapshot w hw)

end EntityWrites

namespace Operation

/-- Whether the operation changes the catalog's shape. -/
def isSchemaChanging : Operation → Bool
  | .createSchema .. | .dropSchema .. | .alterSchema .. | .createTable .. | .alterTable ..
  | .dropTable .. | .createView .. | .alterView .. | .dropView .. | .createMacro .. | .dropMacro .. => true
  | .alterTableSorting .. | .advanceIndexBuild .. | .finishIndexMaintenance .. | .registerDataFile ..
  | .registerDeleteFile .. | .expireDataFile .. | .expireDeleteFile .. | .updateStats ..
  | .inlineInsert .. | .inlineDelete .. | .flushInlinedData .. => false

/-- The table or view whose shape the operation changes. A drop mints no new shape. -/
def schemaChangedTableId : Operation → Option Nat
  | .createTable _ tableId _ _ | .alterTable tableId => some tableId
  | .createView _ viewId _ _ | .alterView viewId => some viewId
  | _ => none

end Operation

/-- Marks one definition poisoned, wherever it stands. -/
def poison (v : CatalogSnapshot) (indexId : Nat) : CatalogSnapshot :=
  { v with
    indexes := v.indexes.map fun _ perTable =>
      match perTable[indexId]? with
      | some value => perTable.insert indexId { value with poisoned := some true }
      | none => perTable }

/-- Records `poisoned` on the working state's definitions. -/
def applyPoison (state : CatalogSnapshot) (poisoned : List Nat) : CatalogSnapshot := poisoned.foldl poison state

theorem getNested_poison (v : CatalogSnapshot) (indexId t i : Nat) :
    getNested (poison v indexId).indexes t i =
      (getNested v.indexes t i).map fun value =>
        if i = indexId then { value with poisoned := some true } else value := by
  simp only [poison, getNested, ExtTreeMap.getElem?_map]
  cases v.indexes[t]? with
  | none => rfl
  | some perTable =>
    simp only [Option.map_some, Option.bind_some]
    cases h : perTable[indexId]? with
    | none =>
      by_cases hi : i = indexId
      · simp [hi, h]
      · simp [hi]
    | some value =>
      by_cases hi : i = indexId
      · simp [hi, h]
      · simp [hi]

theorem getNested_applyPoison (v : CatalogSnapshot) (poisoned : List Nat) (t i : Nat) :
    getNested (applyPoison v poisoned).indexes t i =
      (getNested v.indexes t i).map fun value =>
        if i ∈ poisoned then { value with poisoned := some true } else value := by
  induction poisoned generalizing v with
  | nil => simp [applyPoison]
  | cons indexId poisoned ih =>
    rw [applyPoison, List.foldl_cons, ← applyPoison, ih, getNested_poison, Option.map_map]
    congr 1
    funext value
    by_cases hi : i = indexId <;> by_cases hmem : i ∈ poisoned <;> simp [hi, hmem]

/-- Poison changes index definitions only. -/
theorem applyPoison_eq (v : CatalogSnapshot) (poisoned : List Nat) :
    ∃ indexes, applyPoison v poisoned = { v with indexes } := by
  induction poisoned generalizing v with
  | nil => exact ⟨v.indexes, rfl⟩
  | cons indexId poisoned ih =>
    obtain ⟨indexes, h⟩ := ih (poison v indexId)
    exact ⟨indexes, h⟩

/-- What poison makes of the record under a key. -/
def poisonRecord (poisoned : List Nat) : CurrentKey → EntityRecord → EntityRecord
  | .entity (.index _ i), .index value =>
    .index (if i ∈ poisoned then { value with poisoned := some true } else value)
  | _, r => r

theorem get_applyPoison (v : CatalogSnapshot) (poisoned : List Nat) (k : CurrentKey) :
    (applyPoison v poisoned).get k = (v.get k).map (poisonRecord poisoned k) := by
  obtain ⟨indexes, h⟩ := applyPoison_eq v poisoned
  rcases k with ⟨⟨⟩⟩ | _
  case entity.index t i =>
    simp only [CatalogSnapshot.get, getNested_applyPoison, Option.map_map]
    rfl
  all_goals
    simp only [h, CatalogSnapshot.get, Option.map_map]
    rfl

theorem poisonRecord_lifecycle (poisoned : List Nat) (k : CurrentKey) (r : EntityRecord) :
    (poisonRecord poisoned k r).lifecycle = r.lifecycle := by
  unfold poisonRecord
  split
  · split <;> rfl
  · rfl

theorem poisonRecord_key (poisoned : List Nat) (k : CurrentKey) (r : EntityRecord) :
    (poisonRecord poisoned k r).key = r.key := by
  unfold poisonRecord
  split
  · split <;> rfl
  · rfl

theorem CatalogSnapshot.Sound.applyPoison {v : CatalogSnapshot} (hv : v.Sound) (poisoned : List Nat) :
    (applyPoison v poisoned).Sound := by
  intro k r hr
  rw [get_applyPoison] at hr
  obtain ⟨old, hold, rfl⟩ := Option.map_eq_some_iff.mp hr
  obtain ⟨hkey, hlive⟩ := hv k old hold
  rw [isLive_none] at hlive ⊢
  exact ⟨(poisonRecord_key poisoned k old).trans hkey, by rwa [poisonRecord_lifecycle]⟩

/-- The tables and views whose shape the operations change, in id order. -/
def schemaChangedTableIds (ops : List Operation) : List Nat :=
  (ExtTreeSet.ofList (ops.filterMap Operation.schemaChangedTableId)).toList

section Prepare

variable (base : CatalogSnapshot) (poisoned : List Nat) (changes : List Operation → String × List Nat)
  (micros : Int)

/-- The snapshot record of a verb commit, one past the head. `changes` gives the change-set text of the
    recorded operations and the data files they delete from. -/
def mintedSnapshot (tx : Transaction) : SnapshotValue :=
  { snapshotId := base.snapshot.snapshotId + 1
    snapshotTimeMicros := micros
    schemaVersion :=
      base.snapshot.schemaVersion + if tx.ops.any Operation.isSchemaChanging then 1 else 0
    nextCatalogId := tx.nextCatalogId
    nextFileId := tx.nextFileId
    changesMade := (changes tx.ops).1
    author := none
    commitMessage := none
    commitExtraInfo := none
    schemaChangedTableIds := schemaChangedTableIds tx.ops
    deletedDataFileIds := (changes tx.ops).2 }

/-- What a transaction with recorded operations commits. -/
def mintingMember (tx : Transaction) : Member :=
  let snapshot := mintedSnapshot base changes micros tx
  { writes := diffWrites base (applyPoison tx.state poisoned) snapshot.snapshotId ++
      snapshot.schemaChangedTableIds.map fun tableId =>
        .schemaVersion tableId snapshot.snapshotId (some snapshot.schemaVersion)
    minted := some snapshot }

/-- What a closure's run leaves to commit. -/
inductive Prepared where
  | nothing (head : Nat)
  | staged (m : Member)

/-- What a transaction commits: with no operation recorded, the changed options and no snapshot. -/
def prepared (tx : Transaction) : Prepared :=
  if tx.ops.isEmpty then
    if (diffOptions base tx.state).isEmpty then .nothing base.snapshot.snapshotId
    else .staged ⟨diffOptions base tx.state, none⟩
  else .staged (mintingMember base poisoned changes micros tx)

/-- Runs the closure's calls on the head view and stages their writes. `poisoned` are the building indexes
    in which the staged entries collide. -/
def prepareAndStage (calls : List Call) : Except Error Prepared :=
  match Call.runAll calls (.new base (base.snapshot.snapshotId + 1)) with
  | .error e _ => .error e
  | .ok _ tx => .ok (prepared base poisoned changes micros tx)

end Prepare

theorem diffOptions_sublist (base state : CatalogSnapshot) (newSnapshot : Nat) :
    (diffOptions base state).Sublist (diffWrites base state newSnapshot) :=
  List.sublist_flatten_of_mem (by simp [diffParts])

section Lands

variable {s : Store} {base : CatalogSnapshot} {poisoned : List Nat}
  {changes : List Operation → String × List Nat} {micros : Int}

private theorem keyed_of_diff {state : CatalogSnapshot} (hstate : state.Sound) (newSnapshot : Nat)
    {k : CurrentKey} {r : EntityRecord}
    (h : (k, some r) ∈ currentWrites (diffWrites base state newSnapshot)) : r.key = k :=
  hstate.wellKeyed k r (diffWrites_sound base state newSnapshot h).1.symm

private theorem mintingMember_lands {tx : Transaction} (htx : tx.state.Sound)
    (hhead : base.snapshot.snapshotId = s.head.snapshotId) :
    (mintingMember base poisoned changes micros tx).Lands s where
  keyed k r hr := by
    rw [mintingMember, currentWrites_append, List.mem_append] at hr
    rcases hr with hr | hr
    · exact keyed_of_diff (htx.applyPoison poisoned) _ hr
    · simp [currentWrites] at hr
  catalog w hw := by
    rw [mintingMember, List.mem_append] at hw
    rcases hw with hw | hw
    · exact diffWrites_catalog _ _ _ w hw
    · obtain ⟨_, -, rfl⟩ := List.mem_map.mp hw
      rfl
  ahead id hid := by
    obtain rfl : base.snapshot.snapshotId + 1 = id := by
      simpa [mintingMember, Member.mintedId, mintedSnapshot] using hid
    rw [hhead]
    exact Nat.lt_succ_self _

private theorem optionsMember_lands {state : CatalogSnapshot} (hstate : state.Sound) :
    Member.Lands s ⟨diffOptions base state, none⟩ where
  keyed k r hr := by
    have hsub := currentWrites_sublist (diffOptions_sublist base state 0)
    exact keyed_of_diff hstate 0 (hsub.subset hr)
  catalog w hw := diffWrites_catalog base state 0 w ((diffOptions_sublist base state 0).subset hw)
  ahead id hid := by cases hid

/-- A verb commit on the head view is a member that lands. -/
theorem prepareAndStage_lands (hbase : base.Sound) (hhead : base.snapshot.snapshotId = s.head.snapshotId)
    {calls : List Call} {m : Member}
    (h : prepareAndStage base poisoned changes micros calls = .ok (.staged m)) : m.Lands s := by
  unfold prepareAndStage at h
  cases hrun : Call.runAll calls (.new base (base.snapshot.snapshotId + 1)) with
  | error e tx => rw [hrun] at h; cases h
  | ok u tx =>
    have hnew : (Transaction.new base (base.snapshot.snapshotId + 1)).state.Sound := hbase
    have htx : tx.state.Sound := Call.sound_of_runAll hnew hrun
    rw [hrun] at h
    have hm : prepared base poisoned changes micros tx = .staged m := Except.ok.inj h
    unfold prepared at hm
    split at hm
    · split at hm
      · cases hm
      · exact Prepared.staged.inj hm ▸ optionsMember_lands htx
    · exact Prepared.staged.inj hm ▸ mintingMember_lands htx hhead

end Lands

/-! ## The starting catalog -/

/-- What opening an empty store writes: snapshot 0, the schema `main`, and the global options. -/
def Store.bootstrap (micros : Int) (uuid : String) (encrypted : Bool) (dataPath : Option String) : Store :=
  { head := ⟨0, 0⟩
    snapshots := (∅ : ExtTreeMap Nat SnapshotValue).insert 0
      { snapshotId := 0
        snapshotTimeMicros := micros
        schemaVersion := 0
        nextCatalogId := 1
        nextFileId := 0
        changesMade := "created_schema:\"main\""
        author := none
        commitMessage := none
        commitExtraInfo := none
        schemaChangedTableIds := []
        deletedDataFileIds := [] }
    current := (∅ : ExtTreeMap CurrentKey EntityRecord)
      |>.insert (.entity (.schema 0)) (.schema
        { schemaId := 0
          schemaUuid := uuid
          beginSnapshot := 0
          endSnapshot := none
          schemaName := "main"
          path := "main/"
          pathIsRelative := true })
      |>.insert (.entity (.option 0 0)) (.option 0 0 ⟨globalOptions⟩) }
where
  globalOptions : ExtTreeMap String String :=
    let options := (∅ : ExtTreeMap String String).insert "encrypted" (if encrypted then "true" else "false")
    match dataPath with
    | some path => options.insert "data_path" path
    | none => options

theorem Store.bootstrap_consistent (micros : Int) (uuid : String) (encrypted : Bool)
    (dataPath : Option String) : (bootstrap micros uuid encrypted dataPath).Consistent where
  keyed k r h := by
    simp only [bootstrap, getElem?_insert_ite] at h
    split at h
    · next hk => cases h; exact hk.symm
    · split at h
      · next hk => cases h; exact hk.symm
      · simp at h
  snapshots id snapshot h := by
    simp only [bootstrap, getElem?_insert_ite] at h
    split at h
    · next hid => cases h; exact hid.symm
    · simp at h
  recorded id _ := by simp [bootstrap]

end Moraine
