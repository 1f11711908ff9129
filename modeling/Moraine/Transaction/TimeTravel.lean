-- SUMMARY: Time travel over runs of verb commits: when a view built at a snapshot shows what was committed there.
import Moraine.Base.Runs
import Moraine.Base.Timeline
import Moraine.Catalog.EntityDumps
import Moraine.Transaction.Batch
import Moraine.Transaction.DiffExact

/-!
# Time travel

The store keeps an entity's current version and, under the snapshots that ended them, its earlier ones. A view at
an earlier snapshot is built from all of them. A commit archives the version it changes and puts the new one, which
begins at the commit, so the versions follow each other. Poison is the exception: it changes an index without a new
begin, and then two versions of the index cover the snapshots before it.
-/

namespace Moraine

open OrdMap CatalogSnapshot Timeline

/-! ## Views at a snapshot -/

namespace Store

/-- The record of a snapshot that is asked for by its id. -/
def resolveBelow (s : Store) (requested : Nat) : Except Error SnapshotValue :=
  if requested > s.head.snapshotId then
    .error (.notFound s!"snapshot {requested} (head is {s.head.snapshotId})")
  else
    match s.snapshots[requested]? with
    | some snapshot => .ok snapshot
    | none => .error (belowHorizon requested s.head.snapshotId)

/-- Materializes the view at a snapshot, from the current and the ended versions. -/
def materializeAt (s : Store) (requested : Nat) : Except Error CatalogSnapshot := do
  s.refuseMidMigration
  let snapshot ← s.resolveBelow requested
  let history ← s.scanHistoryEntities
  return CatalogSnapshot.build snapshot s.scanCurrentEntities history (some requested)

end Store

/-! ## Versions of an entity -/

namespace EntityRecord

/-- What a version says, whenever it ended. -/
def described (r : EntityRecord) : EntityRecord := r.definition.ended 0

/-- A record of a versioned kind as a version of its entity. -/
def version (r : EntityRecord) : Option (Version EntityRecord) :=
  r.lifecycle.map fun x => ⟨x.1, x.2, r.described⟩

theorem lifecycle_definition (r : EntityRecord) : r.definition.lifecycle = r.lifecycle := by
  cases r <;> rfl

theorem described_ended (r : EntityRecord) (n : Nat) : (r.ended n).described = r.described := by
  cases r <;> rfl

theorem key_ended (r : EntityRecord) (n : Nat) : (r.ended n).key = r.key := by
  cases r <;> rfl

theorem lifecycle_ended (r : EntityRecord) (n : Nat) :
    (r.ended n).lifecycle = r.lifecycle.map fun x => (x.1, some n) := by
  cases r <;> rfl

/-- Equal definitions are one version. -/
theorem version_eq_of_definition {r r' : EntityRecord} (h : r.definition = r'.definition) :
    r.version = r'.version := by
  unfold version described
  rw [← lifecycle_definition r, ← lifecycle_definition r', h]

theorem start_of_version {r : EntityRecord} {v : Version EntityRecord} {b : Nat} {x : Option Nat}
    (hv : r.version = some v) (hlifecycle : r.lifecycle = some (b, x)) : v.start = b := by
  rw [version, hlifecycle] at hv
  cases hv
  rfl

theorem version_ended (r : EntityRecord) (n : Nat) :
    (r.ended n).version = r.version.map fun v => { v with stop := some n } := by
  unfold version
  rw [lifecycle_ended, described_ended]
  cases r.lifecycle <;> rfl

/-- The versioned kinds are those whose records have a lifecycle. -/
theorem lifecycle_isSome_iff {r : EntityRecord} {e : EntityKey} (hkey : r.key = .entity e) :
    r.lifecycle.isSome ↔ e.isVersioned := by
  cases r <;> simp [EntityRecord.key] at hkey <;> subst hkey <;> simp [lifecycle, EntityKey.isVersioned]

/-- A record of a versioned entity is one of its versions. -/
theorem exists_version_iff {o : Option EntityRecord} {e : EntityKey} (he : e.isVersioned)
    (hkey : ∀ r, o = some r → r.key = .entity e) (y : EntityRecord) :
    (∃ v, o.bind EntityRecord.version = some v ∧ v.value = y) ↔ o.map EntityRecord.described = some y := by
  cases o with
  | none => simp
  | some r =>
    obtain ⟨span, hspan⟩ := Option.isSome_iff_exists.mp ((lifecycle_isSome_iff (hkey r rfl)).mpr he)
    simp [version, hspan]

/-- A version is part of the view at the snapshots it covers. -/
theorem isLive_iff_covers {r : EntityRecord} {v : Version EntityRecord} (h : r.version = some v) (n : Nat) :
    isLive (some n) r ↔ v.Covers n := by
  obtain ⟨⟨start, stop⟩, hlifecycle, rfl⟩ := Option.map_eq_some_iff.mp h
  simp [isLive, hlifecycle, included, Version.Covers, Option.all_eq_true]

end EntityRecord

namespace Store

variable {s : Store}

/-- The versions of an entity. -/
def timeline (s : Store) (e : EntityKey) : Versions EntityRecord
  | none => s.current[CurrentKey.entity e]?.bind EntityRecord.version
  | some ended => s.history[HistoryKey.mk e ended]?.bind EntityRecord.version

/-- Records stand under their own keys; current versions are open and have begun, ended ones ended at the snapshot
    they are kept under. -/
structure Dated (s : Store) : Prop where
  keyed : s.WellKeyed
  current : ∀ (k : CurrentKey) (r : EntityRecord), s.current[k]? = some r → ∀ b x, r.lifecycle = some (b, x) →
    b ≤ s.head.snapshotId ∧ x = none
  history : ∀ (h : HistoryKey) (r : EntityRecord), s.history[h]? = some r → r.key = .entity h.entity ∧
    h.entity.isVersioned ∧ h.endSnapshot ≤ s.head.snapshotId ∧ ∃ b, r.lifecycle = some (b, some h.endSnapshot)

theorem Dated.isLive (h : s.Dated) {k : CurrentKey} {r : EntityRecord} (hr : s.current[k]? = some r) :
    isLive none r := by
  rw [isLive_none]
  cases hlifecycle : r.lifecycle with
  | none => rfl
  | some x =>
    have := (h.current k r hr x.1 x.2 hlifecycle).2
    simp [this]

/-- The head view has all current records. -/
theorem Dated.get (h : s.Dated) {base : CatalogSnapshot} (hbase : s.Lists base) (k : CurrentKey) :
    base.get k = s.current[k]? := by
  rw [hbase.get]
  cases hr : s.current[k]? with
  | none => rfl
  | some r => rw [Option.filter_some, if_pos (h.isLive hr)]

theorem Dated.upto (h : s.Dated) (e : EntityKey) : Upto (s.timeline e) s.head.snapshotId where
  current v hv := by
    obtain ⟨r, hr, hversion⟩ := Option.bind_eq_some_iff.mp hv
    obtain ⟨x, hlifecycle, rfl⟩ := Option.map_eq_some_iff.mp hversion
    exact h.current _ r hr x.1 x.2 hlifecycle
  archived ended v hv := by
    obtain ⟨r, hr, hversion⟩ := Option.bind_eq_some_iff.mp hv
    obtain ⟨x, hlifecycle, rfl⟩ := Option.map_eq_some_iff.mp hversion
    obtain ⟨-, -, hle, b, hb⟩ := h.history _ r hr
    rw [hb] at hlifecycle
    cases hlifecycle
    exact ⟨hle, rfl⟩

theorem mem_scanHistory {records : List EntityRecord} (h : s.scanHistoryEntities = .ok records) {r : EntityRecord} :
    r ∈ records ↔ ∃ k : HistoryKey, s.history[k]? = some r ∧ k.entity.isVersioned := by
  rw [Results.mem_each h]
  constructor
  · rintro ⟨⟨k, r'⟩, hmem, hr⟩
    split at hr
    · next hversioned =>
      cases hr
      exact ⟨k, Std.ExtTreeMap.mem_toList_iff_getElem?_eq_some.mp hmem, hversioned⟩
    · cases hr
  · rintro ⟨k, hr, hversioned⟩
    exact ⟨(k, r), Std.ExtTreeMap.mem_toList_iff_getElem?_eq_some.mpr hr, by simp [hversioned]⟩

theorem Dated.scanHistory (h : s.Dated) : ∃ records, s.scanHistoryEntities = .ok records := by
  refine Results.each_total fun x hx => ⟨x.2, ?_⟩
  have hr := Std.ExtTreeMap.mem_toList_iff_getElem?_eq_some.mp hx
  rw [if_pos (h.history x.1 x.2 hr).2.1]

end Store

namespace CatalogSnapshot

/-- What stands under a key after a list of records is one of them. -/
theorem mem_of_get_foldl_putRecord {rs : List EntityRecord} {v : CatalogSnapshot} {k : CurrentKey}
    {r : EntityRecord} (h : (rs.foldl putRecord v).get k = some r) : r ∈ rs ∧ r.key = k ∨ v.get k = some r := by
  induction rs generalizing v with
  | nil => exact .inr h
  | cons r' rs ih =>
    rcases ih h with ⟨hmem, hkey⟩ | hget
    · exact .inl ⟨List.mem_cons_of_mem _ hmem, hkey⟩
    · rw [get_putRecord] at hget
      split at hget
      · next hkey =>
        cases hget
        exact .inl ⟨List.mem_cons_self, hkey.symm⟩
      · exact .inr hget

theorem get_foldl_putRecord_ne_none {rs : List EntityRecord} {k : CurrentKey} (h : k ∈ rs.map EntityRecord.key)
    (v : CatalogSnapshot) : (rs.foldl putRecord v).get k ≠ none := by
  induction rs generalizing v with
  | nil => cases h
  | cons r rs ih =>
    by_cases hrest : k ∈ rs.map EntityRecord.key
    · exact ih hrest _
    · obtain rfl : k = r.key := (List.mem_cons.mp h).resolve_right hrest
      rw [List.foldl_cons, get_foldl_putRecord_of_not_mem hrest, get_putRecord, if_pos rfl]
      exact Option.some_ne_none _

end CatalogSnapshot

namespace Store

variable {s : Store}

/-- The view at a snapshot shows the version of an entity that covers it. -/
theorem Dated.get_build (h : s.Dated) {records : List EntityRecord} (hrecords : s.scanHistoryEntities = .ok records)
    {e : EntityKey} (he : e.isVersioned) (hapart : Apart (s.timeline e)) (snapshot : SnapshotValue) (n : Nat)
    (x : EntityRecord) :
    ((CatalogSnapshot.build snapshot s.scanCurrentEntities records (some n)).get (.entity e)).map
      EntityRecord.described = some x ↔ Live (s.timeline e) n x := by
  -- The records of the entity are its versions.
  have hslot : ∀ r, r ∈ s.scanCurrentEntities ++ records → r.key = .entity e →
      ∃ i v, s.timeline e i = some v ∧ r.version = some v := by
    intro r hr hkey
    obtain ⟨lifecycle, hlifecycle⟩ := Option.isSome_iff_exists.mp ((EntityRecord.lifecycle_isSome_iff hkey).mpr he)
    have hversion : r.version = some ⟨lifecycle.1, lifecycle.2, r.described⟩ := by
      rw [EntityRecord.version, hlifecycle]
      rfl
    rcases List.mem_append.mp hr with hr | hr
    · rw [mem_scan h.keyed, hkey] at hr
      exact ⟨none, _, by rw [timeline, hr]; exact hversion, hversion⟩
    · obtain ⟨k, hk, -⟩ := (mem_scanHistory hrecords).mp hr
      obtain ⟨hkey', -⟩ := h.history k r hk
      obtain rfl : k.entity = e := CurrentKey.entity.inj (hkey'.symm.trans hkey)
      exact ⟨some k.endSnapshot, _, by rw [timeline, hk]; exact hversion, hversion⟩
  rw [CatalogSnapshot.build_eq]
  set rs := (s.scanCurrentEntities ++ records).filter (CatalogSnapshot.isLive (some n)) with hrs
  have hmem : ∀ r, r ∈ rs ↔ r ∈ s.scanCurrentEntities ++ records ∧ CatalogSnapshot.isLive (some n) r := by
    intro r
    rw [hrs, List.mem_filter]
  constructor
  · intro hget
    obtain ⟨r, hr, rfl⟩ := Option.map_eq_some_iff.mp hget
    rcases mem_of_get_foldl_putRecord hr with ⟨hr, hkey⟩ | hempty
    · obtain ⟨hall, hlive⟩ := (hmem r).mp hr
      obtain ⟨i, v, hv, hversion⟩ := hslot r hall hkey
      refine ⟨i, v, hv, (EntityRecord.isLive_iff_covers hversion n).mp hlive, ?_⟩
      obtain ⟨_, -, rfl⟩ := Option.map_eq_some_iff.mp hversion
      rfl
    · rw [get_empty] at hempty
      cases hempty
  · rintro ⟨i, v, hv, hcovers, rfl⟩
    obtain ⟨r, hall, hkey, hversion⟩ : ∃ r, r ∈ s.scanCurrentEntities ++ records ∧ r.key = .entity e ∧
        r.version = some v := by
      cases i with
      | none =>
        obtain ⟨r, hr, hversion⟩ := Option.bind_eq_some_iff.mp hv
        have hkey := h.keyed _ r hr
        exact ⟨r, List.mem_append_left _ ((mem_scan h.keyed).mpr (hkey ▸ hr)), hkey, hversion⟩
      | some ended =>
        obtain ⟨r, hr, hversion⟩ := Option.bind_eq_some_iff.mp hv
        have hmem := (mem_scanHistory hrecords).mpr ⟨_, hr, he⟩
        exact ⟨r, List.mem_append_right _ hmem, (h.history _ r hr).1, hversion⟩
    have hr : r ∈ rs := (hmem r).mpr ⟨hall, (EntityRecord.isLive_iff_covers hversion n).mpr hcovers⟩
    have hlisted := List.mem_map_of_mem hr (f := EntityRecord.key)
    have hne := get_foldl_putRecord_ne_none (v := { snapshot := snapshot }) hlisted
    rw [hkey] at hne
    obtain ⟨r', hr'⟩ := Option.ne_none_iff_exists'.mp hne
    rw [hr']
    rcases mem_of_get_foldl_putRecord hr' with ⟨hmem', hkey'⟩ | hempty
    · obtain ⟨hall', hlive'⟩ := (hmem r').mp hmem'
      obtain ⟨j, w, hw, hversion'⟩ := hslot r' hall' hkey'
      have heq := hapart.eq_of_covers hv hw hcovers ((EntityRecord.isLive_iff_covers hversion' n).mp hlive')
      obtain ⟨_, -, rfl⟩ := Option.map_eq_some_iff.mp hversion
      obtain ⟨_, -, rfl⟩ := Option.map_eq_some_iff.mp hversion'
      exact congrArg some (congrArg Version.value heq).symm
    · rw [get_empty] at hempty
      cases hempty

/-- A view at a snapshot the store still has is built. -/
theorem Dated.materializeAt (h : s.Dated) (hmigration : s.migration = none) {n : Nat} {snapshot : SnapshotValue}
    (hn : n ≤ s.head.snapshotId) (hsnapshot : s.snapshots[n]? = some snapshot) :
    ∃ records, s.scanHistoryEntities = .ok records ∧
      s.materializeAt n = .ok (CatalogSnapshot.build snapshot s.scanCurrentEntities records (some n)) := by
  obtain ⟨records, hrecords⟩ := h.scanHistory
  refine ⟨records, hrecords, ?_⟩
  have hrefuse : s.refuseMidMigration = .ok () := by rw [refuseMidMigration, hmigration]
  have hresolve : s.resolveBelow n = .ok snapshot := by
    rw [resolveBelow, if_neg (by omega), hsnapshot]
  simp only [Store.materializeAt, hrefuse, hresolve, hrecords, bind, Except.bind, pure, Except.pure]

end Store

/-! ## One commit -/

section Commit

variable {s : Store} {m : Member} {base state : CatalogSnapshot} {n : Nat} {versions : List StagedWrite}

theorem Member.history_mem_batch {h : HistoryKey} {value : Option EntityRecord} :
    .history h value ∈ m.batch s ↔ .history h value ∈ m.writes := by
  have hlog : ∀ id, StagedWrite.history h value ∉ changelogWrites id m.writes := by
    intro id hmem
    unfold changelogWrites at hmem
    split at hmem <;> split at hmem <;> simp at hmem
  unfold Member.batch
  split <;> simp [headWrite, hlog]

/-- What a commit that changes the head view to `state` writes, at the snapshot it mints. -/
structure Member.Changes (m : Member) (base state : CatalogSnapshot) (n : Nat) : Prop where
  current : ∀ k value, .current k value ∈ m.writes ↔ .current k value ∈ diffWrites base state n
  history : ∀ h value, .history h value ∈ m.writes ↔ .history h value ∈ diffWrites base state n
  minted : m.mintedId = some n

variable (hm : m.Changes base state n) (hs : s.Dated) (hbase : s.Lists base)
include hm

open Classical in
theorem Member.Changes.commit_history (h : HistoryKey) :
    (s.commit m).history[h]? =
      if h.endSnapshot = n ∧ ∃ prior, base.get (.entity h.entity) = some prior ∧ prior.isVersioned ∧
          (state.get (.entity h.entity)).map EntityRecord.definition ≠ some prior.definition then
        (base.get (.entity h.entity)).map (EntityRecord.ended n)
      else s.history[h]? := by
  refine (historyCell h).read_foldl_of_unique (fun v => ?_) s
  rw [historyCell_written, Member.history_mem_batch, hm.history, history_mem_diffWrites]
  constructor
  · rintro ⟨hend, prior, hprior, hversioned, hne, rfl⟩
    exact ⟨⟨hend, prior, hprior, hversioned, hne⟩, by rw [hprior]; rfl⟩
  · rintro ⟨⟨hend, prior, hprior, hversioned, hne⟩, rfl⟩
    exact ⟨hend, prior, hprior, hversioned, hne, by rw [hprior]; rfl⟩

open Classical in
theorem Member.Changes.commit_current (k : CurrentKey) :
    (s.commit m).current[k]? =
      if base.get k ≠ state.get k ∧ ¬ Unstaged base state k then state.get k else s.current[k]? := by
  rw [Store.commit_current, ← applyBatch_current]
  refine (currentCell k).read_foldl_of_unique (fun v => ?_) s
  rw [currentCell_written, hm.current, current_mem_diffWrites]
  tauto

/-- A record after the commit is one of the staged view or of before. -/
theorem Member.Changes.mem_current {k : CurrentKey} {r : EntityRecord} (hr : (s.commit m).current[k]? = some r) :
    state.get k = some r ∨ s.current[k]? = some r := by
  rw [hm.commit_current] at hr
  split at hr
  · exact .inl hr
  · exact .inr hr

include hs hbase

/-- The commit leaves the staged view's records. -/
theorem Member.Changes.current_eq {k : CurrentKey} (hk : ¬ Unstaged base state k) :
    (s.commit m).current[k]? = state.get k := by
  rw [hm.commit_current]
  split
  · rfl
  · next heq =>
    rw [← hs.get hbase]
    by_contra hne
    exact heq ⟨hne, hk⟩

/-- An entity whose definition the commit changes has its version archived. -/
theorem Member.Changes.timeline (hn : s.head.snapshotId < n) {e : EntityKey} (he : e.isVersioned) :
    (s.commit m).timeline e =
      if (base.get (.entity e)).map EntityRecord.definition = (state.get (.entity e)).map EntityRecord.definition
      then s.timeline e
      else archive (s.timeline e) n ((state.get (.entity e)).bind EntityRecord.version) := by
  have hunstaged : ¬ Unstaged base state (.entity e) := by
    cases e <;> simp [Unstaged] <;> simp [EntityKey.isVersioned] at he
  have hcurrent := hm.current_eq hs hbase hunstaged
  have hold := hs.get hbase (.entity e)
  funext i
  cases i with
  | none =>
    rw [Store.timeline, hcurrent]
    split
    · next hsame =>
      rw [Store.timeline, ← hold]
      cases hb : base.get (.entity e) with
      | none =>
        rw [hb, Option.map_none, eq_comm, Option.map_eq_none_iff] at hsame
        rw [hsame]
      | some r =>
        rw [hb, Option.map_some, eq_comm] at hsame
        obtain ⟨r', hr', hdefinition⟩ := Option.map_eq_some_iff.mp hsame
        rw [hr']
        exact EntityRecord.version_eq_of_definition hdefinition
    · rfl
  | some ended =>
    rw [Store.timeline, hm.commit_history]
    by_cases hsame :
        (base.get (.entity e)).map EntityRecord.definition = (state.get (.entity e)).map EntityRecord.definition
    · rw [if_pos hsame, if_neg]
      · rfl
      · rintro ⟨-, prior, hprior, -, hne⟩
        exact hne (by rw [← hsame, hprior]; rfl)
    · rw [if_neg hsame, archive, Store.timeline, ← hold]
      by_cases hend : ended = n
      · subst hend
        rw [if_pos rfl]
        cases hb : base.get (.entity e) with
        | none =>
          rw [if_neg (by simp)]
          cases hr : s.history[HistoryKey.mk e ended]? with
          | none => rfl
          | some r =>
            have hle := (hs.history _ r hr).2.2.1
            exact absurd hle (by simpa using hn)
        | some prior =>
          have hkey := hs.keyed _ prior (hold ▸ hb)
          have hversioned := (EntityRecord.lifecycle_isSome_iff hkey).mpr he
          rw [hb] at hsame
          rw [if_pos ⟨rfl, prior, rfl, hversioned, fun heq => hsame heq.symm⟩]
          exact EntityRecord.version_ended prior ended
      · rw [if_neg (fun h => hend h.1), if_neg hend]
        rfl

end Commit

section Staged

variable {s : Store} {m : Member} {base : CatalogSnapshot} {tx : Transaction} {poisoned : List Nat} {n : Nat}

theorem mintingMember_changes (base : CatalogSnapshot) (poisoned : List Nat)
    (changes : List Operation → String × List Nat) (micros : Int) (tx : Transaction) :
    (mintingMember base poisoned changes micros tx).Changes base (applyPoison tx.state poisoned)
      (base.snapshot.snapshotId + 1) := by
  refine ⟨fun k value => ?_, fun h value => ?_, rfl⟩ <;> simp [mintingMember, mintedSnapshot]

/-- What the calls of a commit at `n` make of the head view. -/
abbrev Transaction.GrownFrom (tx : Transaction) (base : CatalogSnapshot) (n : Nat) : Prop :=
  tx.Grown ⟨base, n, base.snapshot.nextFileId⟩

variable (hs : s.Dated) (hbase : s.Lists base) (htx : tx.GrownFrom base n) (hn : s.head.snapshotId < n)
include hs hbase htx hn

theorem staged_begun {k : CurrentKey} {r : EntityRecord} {b : Nat} {x : Option Nat}
    (hr : (applyPoison tx.state poisoned).get k = some r) (hlifecycle : r.lifecycle = some (b, x)) :
    b ≤ n ∧ x = none := by
  have hlive := (htx.sound.applyPoison poisoned k r hr).2
  rw [isLive_none, hlifecycle] at hlive
  refine ⟨?_, by simpa using hlive⟩
  rw [get_applyPoison] at hr
  obtain ⟨r', hr', rfl⟩ := Option.map_eq_some_iff.mp hr
  rw [poisonRecord_lifecycle] at hlifecycle
  rcases htx.version k r' hr' with hsame | hbegun
  · rw [hs.get hbase] at hsame
    exact (hs.current k r' hsame b x hlifecycle).1.trans hn.le
  · cases hbegun with
    | unversioned h => rw [h] at hlifecycle; cases hlifecycle
    | now h =>
      rw [h] at hlifecycle
      cases hlifecycle
      exact le_rfl
    | file id own begun =>
      cases hlifecycle
      exact begun

/-- A commit keeps the store's versions dated. -/
theorem dated_commit (hm : m.Changes base (applyPoison tx.state poisoned) n) : (s.commit m).Dated := by
  have hhead : (s.commit m).head.snapshotId = n := by rw [Store.commit_head, hm.minted]; rfl
  refine ⟨fun k r hr => ?_, fun k r hr b x hlifecycle => ?_, fun h r hr => ?_⟩
  · rcases hm.mem_current hr with hr | hr
    · exact (htx.sound.applyPoison poisoned k r hr).1
    · exact hs.keyed k r hr
  · rw [hhead]
    rcases hm.mem_current hr with hr | hr
    · exact staged_begun hs hbase htx hn hr hlifecycle
    · obtain ⟨hle, hend⟩ := hs.current k r hr b x hlifecycle
      exact ⟨hle.trans hn.le, hend⟩
  · rw [hm.commit_history] at hr
    rw [hhead]
    split at hr
    · next hcond =>
      obtain ⟨hend, prior, hprior, hversioned, -⟩ := hcond
      rw [hprior] at hr
      cases hr
      have hkey := hs.keyed _ prior (hs.get hbase _ ▸ hprior)
      obtain ⟨x, hx⟩ := Option.isSome_iff_exists.mp hversioned
      have he := (EntityRecord.lifecycle_isSome_iff hkey).mp hversioned
      refine ⟨(prior.key_ended n).trans hkey, he, hend.le, x.1, ?_⟩
      rw [EntityRecord.lifecycle_ended, hx, hend]
      rfl
    · obtain ⟨hkey, hversioned, hle, hb⟩ := hs.history h r hr
      exact ⟨hkey, hversioned, hle.trans hn.le, hb⟩

/-- Poison strikes only indexes that the commit begins, and such as are poisoned already. -/
def PoisonFits (tx : Transaction) (poisoned : List Nat) : Prop :=
  ∀ t i value, i ∈ poisoned → getNested tx.state.indexes t i = some value →
    value.beginSnapshot = tx.newSnapshotId ∨ value.poisoned = some true

omit hs hbase hn htx in
/-- Poison that fits leaves a record, or strikes one begun by the commit. -/
theorem PoisonFits.record (h : PoisonFits tx poisoned) {k : CurrentKey} {r : EntityRecord}
    (hr : tx.state.get k = some r) :
    poisonRecord poisoned k r = r ∨ ∃ x, r.lifecycle = some (tx.newSnapshotId, x) := by
  unfold poisonRecord
  split
  · next t i value =>
    have hvalue : getNested tx.state.indexes t i = some value := by simpa [CatalogSnapshot.get] using hr
    split
    · next hmem =>
      rcases h t i value hmem hvalue with hbegin | hpoisoned
      · exact .inr ⟨value.endSnapshot, by simp [EntityRecord.lifecycle, hbegin]⟩
      · exact .inl (by rw [← hpoisoned])
    · exact .inl rfl
  · exact .inl rfl

omit hs hbase hn in
/-- The new version of an entity begins at the commit, but for a file with an own id. -/
theorem staged_version (hfits : PoisonFits tx poisoned) {e : EntityKey} {r : EntityRecord} {v : Version EntityRecord}
    (hne : (base.get (.entity e)).map EntityRecord.definition ≠
      ((applyPoison tx.state poisoned).get (.entity e)).map EntityRecord.definition)
    (hr : (applyPoison tx.state poisoned).get (.entity e) = some r) (hv : r.version = some v) :
    v.start = n ∨ ∃ t f, e = .file t f ∧ base.snapshot.nextFileId ≤ f ∧ f < tx.nextFileId := by
  have hr' := hr
  rw [get_applyPoison] at hr'
  obtain ⟨r, hstate, rfl⟩ := Option.map_eq_some_iff.mp hr'
  rcases htx.version _ r hstate with hsame | hbegun
  · rcases hfits.record hstate with hkept | ⟨x, hnow⟩
    · rw [hsame, hr, hkept] at hne
      exact absurd rfl hne
    · rw [← poisonRecord_lifecycle poisoned (.entity e), htx.snapshot] at hnow
      exact .inl (EntityRecord.start_of_version hv hnow)
  · cases hbegun with
    | unversioned h =>
      rw [EntityRecord.version, poisonRecord_lifecycle, h] at hv
      cases hv
    | now h =>
      rw [← poisonRecord_lifecycle poisoned (.entity e)] at h
      exact .inl (EntityRecord.start_of_version hv h)
    | @file file id own begun =>
      have hkey := (htx.sound _ _ hstate).1
      simp only [EntityRecord.key, CurrentKey.entity.injEq] at hkey
      exact .inr ⟨_, _, hkey.symm, id, own⟩

omit hs hbase hn in
/-- Poison that does not fit changes a version of before the commit and leaves its begin. -/
theorem version_of_not_fits (h : ¬ PoisonFits tx poisoned) :
    ∃ e r r', e.isVersioned ∧ base.get (.entity e) = some r ∧
      (applyPoison tx.state poisoned).get (.entity e) = some r' ∧ r.definition ≠ r'.definition ∧
      r'.lifecycle = r.lifecycle := by
  simp only [PoisonFits, not_forall, not_or] at h
  obtain ⟨t, i, value, hmem, hvalue, hbegin, hpoisoned⟩ := h
  have hget : tx.state.get (.entity (.index t i)) = some (.index value) := by simp [CatalogSnapshot.get, hvalue]
  have hbase : base.get (.entity (.index t i)) = some (.index value) := by
    rcases htx.version _ _ hget with hsame | hbegun
    · exact hsame
    · cases hbegun with
      | unversioned h => cases h
      | now h => exact absurd ((congrArg Prod.fst (Option.some.inj h)).trans htx.snapshot.symm) hbegin
  refine ⟨.index t i, .index value, .index { value with poisoned := some true }, rfl, hbase, ?_, ?_, rfl⟩
  · rw [get_applyPoison, hget]
    simp [poisonRecord, hmem]
  · intro heq
    simp only [EntityRecord.definition, EntityRecord.index.injEq] at heq
    exact hpoisoned (congrArg IndexValue.poisoned heq)

end Staged

section Options

variable {s : Store} {base state : CatalogSnapshot}

theorem option_of_mem_diffOptions {k : CurrentKey} {value : Option EntityRecord}
    (h : .current k value ∈ diffOptions base state) : ∃ x y, k = .entity (.option x y) := by
  obtain ⟨ks, hks⟩ := (mem_diffMap_writes fun _ => rfl).mp h
  exact ⟨ks.1, ks.2, (current_mem_stageOverwrite.mp hks).1⟩

theorem history_not_mem_diffOptions {h : HistoryKey} {value : Option EntityRecord} :
    .history h value ∉ diffOptions base state := by
  intro hmem
  obtain ⟨ks, hks⟩ := (mem_diffMap_writes fun _ => rfl).mp hmem
  exact history_not_mem_stageOverwrite hks

theorem foldable_diffOptions (hstate : state.WellKeyed) : Foldable (currentWrites (diffOptions base state)) := by
  have hsub := currentWrites_sublist (diffOptions_sublist base state 0)
  have hall := foldable_diffWrites base 0 hstate
  exact ⟨hall.nodup.sublist (hsub.map _), fun w hw => hall.keyed w (hsub.subset hw),
    fun w hw => hall.noMappingDelete w (hsub.subset hw)⟩

theorem record_of_mem_diffOptions {k : CurrentKey} {r : EntityRecord}
    (h : (k, some r) ∈ currentWrites (diffOptions base state)) : state.get k = some r := by
  have hsub := currentWrites_sublist (diffOptions_sublist base state 0)
  exact (diffWrites_sound base state 0 (hsub.subset h)).1.symm

/-- Changed options leave all other records. -/
theorem current_commit_options (s : Store) (base state : CatalogSnapshot) {k : CurrentKey}
    (hk : ∀ x y, k ≠ .entity (.option x y)) :
    (s.commit ⟨diffOptions base state, none⟩).current[k]? = s.current[k]? := by
  rw [Store.commit_current]
  refine getElem?_setKeys_of_not_mem fun hmem => ?_
  obtain ⟨⟨_, value⟩, hw, rfl⟩ := List.mem_map.mp hmem
  obtain ⟨x, y, heq⟩ := option_of_mem_diffOptions (mem_currentWrites.mp hw)
  exact hk x y heq

/-- Changed options are unversioned records. -/
theorem dated_commit_options (base : CatalogSnapshot) (hs : s.Dated) (hstate : state.Sound) :
    (s.commit ⟨diffOptions base state, none⟩).Dated ∧
      ∀ e, e.isVersioned → (s.commit ⟨diffOptions base state, none⟩).timeline e = s.timeline e := by
  have hfoldable : Foldable (currentWrites (diffOptions base state)) := foldable_diffOptions hstate.wellKeyed
  have hhistory : ∀ h : HistoryKey, (s.commit ⟨diffOptions base state, none⟩).history[h]? = s.history[h]? := by
    intro h
    refine (historyCell h).read_foldl_of_unwritten (fun v => ?_) s
    rw [historyCell_written, Member.history_mem_batch]
    exact history_not_mem_diffOptions
  have hrecord : ∀ (k : CurrentKey) (r : EntityRecord),
      (s.commit ⟨diffOptions base state, none⟩).current[k]? = some r →
        s.current[k]? = some r ∨ r.key = k ∧ r.lifecycle = none := by
    intro k r hr
    by_cases hoption : ∃ x y, k = .entity (.option x y)
    · obtain ⟨x, y, rfl⟩ := hoption
      rw [Store.commit_current] at hr
      by_cases hmem : CurrentKey.entity (.option x y) ∈ (currentWrites (diffOptions base state)).map Prod.fst
      · obtain ⟨⟨k, value⟩, hw, rfl⟩ := List.mem_map.mp hmem
        rw [getElem?_setKeys_of_mem hfoldable.nodup hw] at hr
        obtain rfl : value = some r := hr
        have hkey := (hstate _ r (record_of_mem_diffOptions hw)).1
        refine .inr ⟨hkey, Option.not_isSome_iff_eq_none.mp fun hsome => ?_⟩
        cases (EntityRecord.lifecycle_isSome_iff hkey).mp hsome
      · rw [getElem?_setKeys_of_not_mem hmem] at hr
        exact .inl hr
    · rw [current_commit_options s base state fun x y heq => hoption ⟨x, y, heq⟩] at hr
      exact .inl hr
  have hhead : (s.commit ⟨diffOptions base state, none⟩).head.snapshotId = s.head.snapshotId := by
    rw [Store.commit_head]
    rfl
  refine ⟨⟨fun k r hr => ?_, fun k r hr b x hlifecycle => ?_, fun h r hr => ?_⟩, fun e he => ?_⟩
  · rcases hrecord k r hr with hr | ⟨hkey, -⟩
    · exact hs.keyed k r hr
    · exact hkey
  · rw [hhead]
    rcases hrecord k r hr with hr | ⟨-, hnone⟩
    · exact hs.current k r hr b x hlifecycle
    · rw [hnone] at hlifecycle
      cases hlifecycle
  · rw [hhead]
    exact hs.history h r (hhistory h ▸ hr)
  · funext i
    cases i with
    | none =>
      rw [Store.timeline, Store.timeline, current_commit_options s base state]
      rintro x y heq
      cases heq
      cases he
    | some ended => rw [Store.timeline, Store.timeline, hhistory]

end Options

/-! ## Runs -/

/-- The view that a commit whose closure makes these calls runs on and the state it commits, if it mints a snapshot. -/
def Batch.committed (b : Batch) (calls : List (Call × Bool)) : Option (CatalogSnapshot × CatalogSnapshot) :=
  match b.refold with
  | .error _ => none
  | .ok b =>
    match Call.runClosure calls (.new b.view (b.view.snapshot.snapshotId + 1)) with
    | .error _ _ => none
    | .ok _ tx =>
      if tx.ops.isEmpty then none
      else
        match b.db.entries.stageIndexEntries tx.indexEntries with
        | .error _ => none
        | .ok (_, poisoned) => some (b.view, applyPoison tx.state poisoned)

/-- A run of verb commits: the batch they stage onto, the state committed at each snapshot, and for each file that
    was begun before the commit that registered it, that commit's snapshot. -/
structure TravelRun where
  batch : Batch
  states : List (Nat × CatalogSnapshot)
  flushed : Nat → Nat → Option Nat

/-- A commit joins the batch, or a new batch opens on the head view of what was staged so far. The first is a
    member of a group, the second a commit of its own or a retry. -/
inductive TravelEvent where
  | commit (micros : Int) (calls : List (Call × Bool))
  | reopen

namespace TravelRun

def store (r : TravelRun) : Store := r.batch.db.catalog

/-- The files of a committed state that begin before it and were not there before. -/
def flushedBy (base state : CatalogSnapshot) (n : Nat) (flushed : Nat → Nat → Option Nat) (t f : Nat) :
    Option Nat :=
  match getNested base.dataFiles t f, getNested state.dataFiles t f with
  | none, some file => if file.beginSnapshot < n then some n else flushed t f
  | _, _ => flushed t f

variable (changes : List Operation → String × List Nat)

def step (r : TravelRun) : TravelEvent → Option TravelRun
  | .reopen =>
    match r.store.materialize with
    | .error _ => none
    | .ok view => some { r with batch := .opened r.batch.db view }
  | .commit micros calls =>
    match r.batch.stageMember changes ⟨micros, Call.runClosure calls⟩ with
    | .error _ => none
    | .ok (batch, _) =>
      match r.batch.committed calls with
      | none => some { r with batch }
      | some (base, state) =>
        let n := base.snapshot.snapshotId + 1
        some { batch, states := (n, state) :: r.states, flushed := flushedBy base state n r.flushed }

/-- A new catalog. -/
def start (micros : Int) (uuid : String) (encrypted : Bool) (dataPath : Option String) : TravelRun :=
  let s := Store.bootstrap micros uuid encrypted dataPath
  let view := s.viewAt (s.snapshots[0]?.getD default)
  { batch := .opened { catalog := s } view, states := [(0, view)], flushed := fun _ _ => none }

/-- The entity is a file that a flush began at an earlier snapshot, and was registered after snapshot `n`. -/
def Backdated (r : TravelRun) (e : EntityKey) (n : Nat) : Prop :=
  ∃ t f registered, e = .file t f ∧ r.flushed t f = some registered ∧ n < registered

/-- A view at any snapshot of the run shows the entities of the state committed there, with their definitions, and
    no two versions of an entity overlap. -/
structure Travels (r : TravelRun) : Prop where
  views : ∀ x ∈ r.states, ∃ view, r.store.materializeAt x.1 = .ok view ∧
    ∀ e, e.isVersioned → ¬ r.Backdated e x.1 →
      (view.get (.entity e)).map EntityRecord.described = (x.2.get (.entity e)).map EntityRecord.described
  apart : ∀ e, e.isVersioned → Apart (r.store.timeline e)

/-- The entries of a commit collide in no index of the state, unless the commit begins the index or the index is
    poisoned already. -/
def Collisionless (r : TravelRun) : TravelEvent → Prop
  | .reopen => True
  | .commit _ calls => ∀ b tx, r.batch.refold = .ok b →
      Call.runClosure calls (.new b.view (b.view.snapshot.snapshotId + 1)) = .ok () tx → tx.ops ≠ [] →
        ∀ t i value, b.db.entries.Collides tx.indexEntries i → getNested tx.state.indexes t i = some value →
          value.beginSnapshot = tx.newSnapshotId ∨ value.poisoned = some true

/-- What holds along every run. -/
structure Inv (r : TravelRun) : Prop where
  dated : r.store.Dated
  migration : r.store.migration = none
  stands : ∀ b, r.batch.refold = .ok b → r.store.Lists b.view
  snapshots : r.store.SnapshotsKeyed
  recorded : ∀ x ∈ r.states,
    x.1 ≤ r.store.head.snapshotId ∧ ∃ snapshot, r.store.snapshots[x.1]? = some snapshot
  files : ∀ snapshot : SnapshotValue, r.store.snapshots[r.store.head.snapshotId]? = some snapshot →
    ∀ t f i v, r.store.timeline (.file t f) i = some v → f < snapshot.nextFileId

variable {changes} {r r' : TravelRun} {micros : Int} {calls : List (Call × Bool)}

/-- What a commit does to the run: nothing, or it commits changed options, or it mints a snapshot. -/
inductive Commits (changes : List Operation → String × List Nat) (r : TravelRun) (b : Batch) (micros : Int)
    (tx : Transaction) (r' : TravelRun) : Prop where
  | nothing (empty : tx.ops = []) (store : r'.store = r.store) (states : r'.states = r.states)
      (flushed : r'.flushed = r.flushed) (view : ∀ b', r'.batch.refold = .ok b' → b'.view = b.view)
  | options (empty : tx.ops = []) (store : r'.store = r.store.commit ⟨diffOptions b.view tx.state, none⟩)
      (states : r'.states = r.states) (flushed : r'.flushed = r.flushed)
      (fold : ∀ b', r'.batch.refold = .ok b' →
        b.view.foldBatch (Member.batch r.store ⟨diffOptions b.view tx.state, none⟩) = .ok b'.view)
  | minted (poisoned : List Nat) (nonempty : tx.ops ≠ [])
      (collides : ∀ i, i ∈ poisoned ↔ b.db.entries.Collides tx.indexEntries i)
      (store : r'.store = r.store.commit (mintingMember b.view poisoned changes micros tx))
      (states : r'.states = (b.view.snapshot.snapshotId + 1, applyPoison tx.state poisoned) :: r.states)
      (flushed : r'.flushed =
        flushedBy b.view (applyPoison tx.state poisoned) (b.view.snapshot.snapshotId + 1) r.flushed)
      (fold : ∀ b', r'.batch.refold = .ok b' →
        b.view.foldBatch ((mintingMember b.view poisoned changes micros tx).batch r.store) = .ok b'.view)

theorem commits_of_step (h : r.step changes (.commit micros calls) = some r') :
    ∃ b tx, r.batch.refold = .ok b ∧
      Call.runClosure calls (.new b.view (b.view.snapshot.snapshotId + 1)) = .ok () tx ∧
      Commits changes r b micros tx r' := by
  rw [step] at h
  split at h
  · cases h
  · next batch id hstage =>
    obtain ⟨b, tx, hb, hclosure, hjoined⟩ := Batch.stageMember_joined hstage
    have hrun : Call.runClosure calls (.new b.view (b.view.snapshot.snapshotId + 1)) = .ok () tx := hclosure
    have hdb : r.store = b.db.catalog := congrArg StoreState.catalog (Batch.refold_eq hb).1.symm
    have hnone : tx.ops = [] → r.batch.committed calls = none := by
      intro hempty
      simp only [Batch.committed, hb, hrun, hempty, List.isEmpty_nil, if_true]
    refine ⟨b, tx, hb, hrun, ?_⟩
    cases hjoined with
    | nothing hempty hstore hview =>
      rw [hnone hempty] at h
      cases h
      exact .nothing hempty (hdb ▸ congrArg StoreState.catalog hstore) rfl rfl hview
    | options hempty hcatalog _ hfold =>
      rw [hnone hempty] at h
      cases h
      exact .options hempty (hdb ▸ hcatalog) rfl rfl (hdb ▸ hfold)
    | minted entries poisoned _ hnonempty hentries _ hcatalog _ hfold =>
      have hsome : r.batch.committed calls = some (b.view, applyPoison tx.state poisoned) := by
        simp only [Batch.committed, hb, hrun, List.isEmpty_iff, hnonempty, if_false, hentries]
      rw [hsome] at h
      cases h
      exact .minted poisoned hnonempty (IndexEntries.mem_poisoned_iff hentries) (hdb ▸ hcatalog) rfl rfl (hdb ▸ hfold)

/-- The views of a run are right exactly if each snapshot's live versions are those committed there. -/
theorem travels_iff (hr : r.Inv) :
    r.Travels ↔ (∀ e, e.isVersioned → Apart (r.store.timeline e)) ∧
      ∀ x ∈ r.states, ∀ e, e.isVersioned → ¬ r.Backdated e x.1 → ∀ y,
        Live (r.store.timeline e) x.1 y ↔ (x.2.get (.entity e)).map EntityRecord.described = some y := by
  have hbuilt : ∀ x ∈ r.states, (∀ e, e.isVersioned → Apart (r.store.timeline e)) →
      ∃ view, r.store.materializeAt x.1 = .ok view ∧ ∀ e, e.isVersioned → ∀ y,
        (view.get (.entity e)).map EntityRecord.described = some y ↔ Live (r.store.timeline e) x.1 y := by
    intro x hx hapart
    obtain ⟨hle, snapshot, hsnapshot⟩ := hr.recorded x hx
    obtain ⟨records, hrecords, hview⟩ := hr.dated.materializeAt hr.migration hle hsnapshot
    exact ⟨_, hview, fun e he y => hr.dated.get_build hrecords he (hapart e he) snapshot x.1 y⟩
  constructor
  · rintro ⟨hviews, hapart⟩
    refine ⟨hapart, fun x hx e he hdated y => ?_⟩
    obtain ⟨view, hview, hget⟩ := hbuilt x hx hapart
    obtain ⟨view', hview', hshows⟩ := hviews x hx
    obtain rfl : view = view' := Except.ok.inj (hview.symm.trans hview')
    rw [← hget e he, hshows e he hdated]
  · rintro ⟨hapart, hlive⟩
    refine ⟨fun x hx => ?_, hapart⟩
    obtain ⟨view, hview, hget⟩ := hbuilt x hx hapart
    refine ⟨view, hview, fun e he hdated => Option.ext fun y => ?_⟩
    rw [hget e he, hlive x hx e he hdated]

section Step

variable {b : Batch} {tx : Transaction}

theorem Inv.base_sound (hr : r.Inv) (hb : r.batch.refold = .ok b) : b.view.Sound := by
  intro k rec hrec
  rw [hr.dated.get (hr.stands b hb)] at hrec
  exact ⟨hr.dated.keyed k rec hrec, hr.dated.isLive hrec⟩

theorem Inv.base_head (hr : r.Inv) (hb : r.batch.refold = .ok b) :
    b.view.snapshot.snapshotId = r.store.head.snapshotId :=
  congrArg HeadValue.snapshotId ((hr.stands b hb).viewHead hr.snapshots)

theorem Inv.grown (hr : r.Inv) (hb : r.batch.refold = .ok b)
    (hrun : Call.runClosure calls (.new b.view (b.view.snapshot.snapshotId + 1)) = .ok () tx) :
    tx.GrownFrom b.view (b.view.snapshot.snapshotId + 1) := by
  have hnew : (Transaction.new b.view (b.view.snapshot.snapshotId + 1)).state.Sound := hr.base_sound hb
  exact Call.grown_of_runClosure (.refl hnew) hrun

/-- The data files known after a minting commit have ids below the commit's counter. -/
theorem Inv.file_lt (hr : r.Inv) (hb : r.batch.refold = .ok b)
    (hgrown : tx.GrownFrom b.view (b.view.snapshot.snapshotId + 1)) {poisoned : List Nat} {t f : Nat}
    {i : Option Nat} {v : Timeline.Version EntityRecord}
    (hv : (r.store.commit (mintingMember b.view poisoned changes micros tx)).timeline (.file t f) i = some v) :
    f < tx.nextFileId := by
  have hlists := hr.stands b hb
  have hnext : r.store.head.snapshotId < b.view.snapshot.snapshotId + 1 := by
    rw [← hr.base_head hb]
    omega
  have hfiles : b.view.snapshot.nextFileId ≤ tx.nextFileId := hgrown.files
  have hold : ∀ i v, r.store.timeline (.file t f) i = some v → f < tx.nextFileId :=
    fun i v hv => (hr.files _ hlists.snapshot t f i v hv).trans_le hfiles
  rw [(mintingMember_changes b.view poisoned changes micros tx).timeline hr.dated hlists hnext rfl] at hv
  split at hv
  · exact hold i v hv
  · cases i with
    | none =>
      obtain ⟨rec, hrec, -⟩ := Option.bind_eq_some_iff.mp hv
      rw [get_applyPoison] at hrec
      obtain ⟨rec', hrec', -⟩ := Option.map_eq_some_iff.mp hrec
      have hkey := (hgrown.sound _ rec' hrec').1
      cases rec' <;> simp [EntityRecord.key] at hkey
      next file =>
      obtain ⟨rfl, rfl⟩ := hkey
      rcases hgrown.version _ _ hrec' with hsame | hbegun
      · rw [hr.dated.get hlists] at hsame
        exact hold none _ (by rw [Store.timeline, hsame]; rfl)
      · cases hbegun with
        | unversioned h => cases h
        | now _ hnot => exact absurd rfl (hnot file)
        | file _ own _ => exact own
    | some ended =>
      rw [archive] at hv
      split at hv
      · obtain ⟨prior, hprior, -⟩ := Option.map_eq_some_iff.mp hv
        exact hold none prior hprior
      · exact hold (some ended) v hv

theorem inv_minted (hr : r.Inv) (hb : r.batch.refold = .ok b)
    (hgrown : tx.GrownFrom b.view (b.view.snapshot.snapshotId + 1)) {poisoned : List Nat}
    (hstore : r'.store = r.store.commit (mintingMember b.view poisoned changes micros tx))
    (hstates : r'.states = (b.view.snapshot.snapshotId + 1, applyPoison tx.state poisoned) :: r.states)
    (hfold : ∀ b', r'.batch.refold = .ok b' →
      b.view.foldBatch ((mintingMember b.view poisoned changes micros tx).batch r.store) = .ok b'.view) :
    r'.Inv := by
  have hlists := hr.stands b hb
  have hhead := hr.base_head hb
  have hnext : r.store.head.snapshotId < b.view.snapshot.snapshotId + 1 := by omega
  have hm := mintingMember_changes b.view poisoned changes micros tx
  have hstate := hgrown.sound.applyPoison poisoned
  have hentity : ∀ w ∈ (mintingMember b.view poisoned changes micros tx).writes, w.isEntity :=
    mintingMember_entity b.view poisoned micros tx
  have hwrites : currentWrites (mintingMember b.view poisoned changes micros tx).writes =
      currentWrites (diffWrites b.view (applyPoison tx.state poisoned) (b.view.snapshot.snapshotId + 1)) := by
    rw [mintingMember, currentWrites_append]
    simp [currentWrites, mintedSnapshot]
  have hhead' : r'.store.head.snapshotId = b.view.snapshot.snapshotId + 1 := by
    rw [hstore, Store.commit_head, hm.minted]
    rfl
  refine ⟨?_, ?_, fun b' hb' => ?_, ?_, fun x hx => ?_, fun snapshot hsnapshot t f i v hv => ?_⟩
  · rw [hstore]
    exact dated_commit hr.dated hlists hgrown hnext hm
  · rw [hstore, Store.commit_migration, hr.migration]
  · rw [hstore]
    refine Member.lists_foldBatch hentity hlists ?_ (fun w hw rec hrec => ?_) (hfold b' hb')
    · rw [hwrites]
      exact foldable_diffWrites _ _ hstate.wellKeyed
    · rw [hwrites] at hw
      have hget := (diffWrites_sound _ _ _ hw).1
      exact (hstate w.1 rec (hget.symm.trans hrec)).2
  · rw [hstore]
    exact hr.snapshots.commit fun w hw => StagedWrite.isCatalog_of_isEntity (hentity w hw)
  · rw [hhead', hstore, Store.commit_snapshots hentity, hm.minted]
    rw [hstates, List.mem_cons] at hx
    rcases hx with rfl | hx
    · exact ⟨le_rfl, _, by rw [if_pos rfl]; rfl⟩
    · obtain ⟨hle, snapshot, hsnapshot⟩ := hr.recorded x hx
      refine ⟨by omega, snapshot, ?_⟩
      rw [if_neg (by simp; omega)]
      exact hsnapshot
  · rw [hhead', hstore, Store.commit_snapshots hentity, hm.minted, if_pos rfl] at hsnapshot
    obtain rfl : mintedSnapshot b.view changes micros tx = snapshot := Option.some.inj hsnapshot
    exact hr.file_lt hb hgrown (hstore ▸ hv)

theorem inv_options (hr : r.Inv) (hb : r.batch.refold = .ok b)
    (hgrown : tx.GrownFrom b.view (b.view.snapshot.snapshotId + 1))
    (hstore : r'.store = r.store.commit ⟨diffOptions b.view tx.state, none⟩) (hstates : r'.states = r.states)
    (hfold : ∀ b', r'.batch.refold = .ok b' →
      b.view.foldBatch (Member.batch r.store ⟨diffOptions b.view tx.state, none⟩) = .ok b'.view) : r'.Inv := by
  obtain ⟨hdated, htimeline⟩ := dated_commit_options b.view hr.dated hgrown.sound
  have hentity := diffOptions_entity b.view tx.state
  have hhead : r'.store.head.snapshotId = r.store.head.snapshotId := by
    rw [hstore, Store.commit_head]
    rfl
  have hsnapshots : ∀ id : Nat, r'.store.snapshots[id]? = r.store.snapshots[id]? := by
    intro id
    rw [hstore, Store.commit_snapshots hentity]
    rfl
  refine ⟨hstore ▸ hdated, ?_, fun b' hb' => ?_, ?_, fun x hx => ?_, fun snapshot hsnapshot t f i v hv => ?_⟩
  · rw [hstore, Store.commit_migration, hr.migration]
  · rw [hstore]
    refine Member.lists_foldBatch hentity (hr.stands b hb) (foldable_diffOptions hgrown.sound.wellKeyed)
      (fun w hw rec hrec => ?_) (hfold b' hb')
    exact (hgrown.sound w.1 rec (record_of_mem_diffOptions (by rw [← hrec]; exact hw))).2
  · rw [hstore]
    exact hr.snapshots.commit fun w hw => StagedWrite.isCatalog_of_isEntity (hentity w hw)
  · rw [hhead, hsnapshots]
    exact hr.recorded x (hstates ▸ hx)
  · rw [hhead, hsnapshots] at hsnapshot
    rw [hstore, htimeline _ rfl] at hv
    exact hr.files snapshot hsnapshot t f i v hv

/-- A step keeps the invariant. -/
theorem inv_step {event : TravelEvent} (hr : r.Inv) (h : r.step changes event = some r') : r'.Inv := by
  cases event with
  | reopen =>
    rw [step] at h
    split at h
    · cases h
    · next view hview =>
      cases h
      refine { hr with stands := fun b hb => ?_ }
      obtain rfl : Batch.opened r.batch.db view = b := Except.ok.inj hb
      exact (Store.shows_of_materialize hr.dated.keyed hview).toLists
  | commit micros calls =>
    obtain ⟨b, tx, hb, hrun, hcommits⟩ := commits_of_step h
    have hgrown := hr.grown hb hrun
    cases hcommits with
    | nothing empty hstore hstates _ hview =>
      refine ⟨hstore ▸ hr.dated, hstore ▸ hr.migration, fun b' hb' => ?_, hstore ▸ hr.snapshots, ?_,
        hstore ▸ hr.files⟩
      · rw [hstore, hview b' hb']
        exact hr.stands b hb
      · rw [hstates, hstore]
        exact hr.recorded
    | options empty hstore hstates _ hfold => exact inv_options hr hb hgrown hstore hstates hfold
    | minted poisoned _ _ hstore hstates _ hfold => exact inv_minted hr hb hgrown hstore hstates hfold

/-- A step that adds no state and changes no timeline leaves the views as they were. -/
theorem travels_of_timeline_eq (hr : r.Inv) (hr' : r'.Inv) (hp : r.Travels) (hstates : r'.states = r.states)
    (hflushed : r'.flushed = r.flushed)
    (htimeline : ∀ e, e.isVersioned → r'.store.timeline e = r.store.timeline e) : r'.Travels := by
  obtain ⟨hapart, hlive⟩ := (travels_iff hr).mp hp
  refine (travels_iff hr').mpr ⟨fun e he => htimeline e he ▸ hapart e he, fun x hx e he hdated y => ?_⟩
  rw [htimeline e he]
  refine hlive x (hstates ▸ hx) e he (fun hbackdated => hdated ?_) y
  unfold Backdated
  rw [hflushed]
  exact hbackdated

/-- A step that commits the state of a transaction at snapshot `n`. -/
structure MintedAt (r r' : TravelRun) (base : CatalogSnapshot) (tx : Transaction) (poisoned : List Nat) (n : Nat) :
    Prop where
  before : r.Inv
  after : r'.Inv
  lists : r.store.Lists base
  grown : tx.GrownFrom base n
  next : r.store.head.snapshotId < n
  head : r'.store.head.snapshotId = n
  current : ∀ e, e.isVersioned →
    r'.store.current[CurrentKey.entity e]? = (applyPoison tx.state poisoned).get (.entity e)
  timeline : ∀ e, e.isVersioned → r'.store.timeline e =
    if (base.get (.entity e)).map EntityRecord.definition =
        ((applyPoison tx.state poisoned).get (.entity e)).map EntityRecord.definition
    then r.store.timeline e
    else archive (r.store.timeline e) n (((applyPoison tx.state poisoned).get (.entity e)).bind EntityRecord.version)
  states : r'.states = (n, applyPoison tx.state poisoned) :: r.states
  flushed : r'.flushed = flushedBy base (applyPoison tx.state poisoned) n r.flushed

theorem mintedAt_of_commits (hr : r.Inv) (hr' : r'.Inv) (hb : r.batch.refold = .ok b)
    (hgrown : tx.GrownFrom b.view (b.view.snapshot.snapshotId + 1)) {poisoned : List Nat}
    (hstore : r'.store = r.store.commit (mintingMember b.view poisoned changes micros tx))
    (hstates : r'.states = (b.view.snapshot.snapshotId + 1, applyPoison tx.state poisoned) :: r.states)
    (hflushed : r'.flushed =
      flushedBy b.view (applyPoison tx.state poisoned) (b.view.snapshot.snapshotId + 1) r.flushed) :
    MintedAt r r' b.view tx poisoned (b.view.snapshot.snapshotId + 1) := by
  have hlists := hr.stands b hb
  have hhead := hr.base_head hb
  have hnext : r.store.head.snapshotId < b.view.snapshot.snapshotId + 1 := by omega
  have hm := mintingMember_changes b.view poisoned changes micros tx
  refine ⟨hr, hr', hlists, hgrown, hnext, ?_, fun e he => ?_, fun e he => ?_, hstates, hflushed⟩
  · rw [hstore, Store.commit_head, hm.minted]
    rfl
  · rw [hstore]
    refine hm.current_eq hr.dated hlists ?_
    cases e <;> simp [Unstaged] <;> simp [EntityKey.isVersioned] at he
  · rw [hstore]
    exact hm.timeline hr.dated hlists hnext he

namespace MintedAt

variable {base : CatalogSnapshot} {poisoned : List Nat} {n : Nat} {e : EntityKey}
  (h : MintedAt r r' base tx poisoned n) (he : e.isVersioned)
include h

/-- A file with an own id has no versions before the commit. -/
theorem timeline_own {t f : Nat} (hf : base.snapshot.nextFileId ≤ f) (i : Option Nat) :
    r.store.timeline (.file t f) i = none := by
  by_contra hne
  obtain ⟨v, hv⟩ := Option.ne_none_iff_exists'.mp hne
  have := h.before.files _ h.lists.snapshot t f i v hv
  omega

include he

/-- A new version is open. It begins at the commit, or is the first of a file that is backdated. -/
theorem new_version (hfits : PoisonFits tx poisoned)
    (hne : (base.get (.entity e)).map EntityRecord.definition ≠
      ((applyPoison tx.state poisoned).get (.entity e)).map EntityRecord.definition)
    {v : Version EntityRecord}
    (hv : ((applyPoison tx.state poisoned).get (.entity e)).bind EntityRecord.version = some v) :
    v.stop = none ∧ (v.start = n ∨
      (∀ i, r.store.timeline e i = none) ∧ ∀ m, m < n → r'.Backdated e m) := by
  obtain ⟨rec, hrec, hversion⟩ := Option.bind_eq_some_iff.mp hv
  obtain ⟨⟨start, stop⟩, hspan, rfl⟩ := Option.map_eq_some_iff.mp hversion
  obtain ⟨hle, hstop⟩ := staged_begun h.before.dated h.lists h.grown h.next hrec hspan
  refine ⟨hstop, ?_⟩
  by_cases hnow : start = n
  · exact .inl hnow
  · rcases staged_version h.grown hfits hne hrec hversion with hstart | ⟨t, f, rfl, hf, -⟩
    · exact .inl hstart
    · have hempty := h.timeline_own (t := t) hf
      refine .inr ⟨hempty, fun m hm => ⟨t, f, n, rfl, ?_, hm⟩⟩
      have hbase : getNested base.dataFiles t f = none := by
        have hget := h.before.dated.get h.lists (.entity (.file t f))
        cases hfile : getNested base.dataFiles t f with
        | none => rfl
        | some file =>
          rw [CatalogSnapshot.get, hfile] at hget
          have hnone := hempty none
          rw [Store.timeline, ← hget] at hnone
          cases hnone
      obtain ⟨file, hfile, rfl⟩ := Option.map_eq_some_iff.mp hrec
      have hbegin : file.beginSnapshot < n := by
        cases hspan
        omega
      rw [h.flushed, flushedBy, hbase, hfile]
      exact if_pos hbegin

/-- What was backdated stays so. -/
theorem backdated {m : Nat} (hm : m < n) (hbackdated : r.Backdated e m) : r'.Backdated e m := by
  obtain ⟨t, f, registered, rfl, hflushed, hlt⟩ := hbackdated
  have hcases : r'.flushed t f = some n ∨ r'.flushed t f = some registered := by
    rw [h.flushed, flushedBy]
    split
    · split
      · exact .inl rfl
      · exact .inr hflushed
    · exact .inr hflushed
  rcases hcases with hnew | hold
  · exact ⟨t, f, n, rfl, hnew, hm⟩
  · exact ⟨t, f, registered, rfl, hold, hlt⟩

theorem apart (hfits : PoisonFits tx poisoned) (hapart : Apart (r.store.timeline e)) :
    Apart (r'.store.timeline e) := by
  rw [h.timeline e he]
  split
  · exact hapart
  · next hne =>
    by_cases hnow : ∀ v, ((applyPoison tx.state poisoned).get (.entity e)).bind EntityRecord.version = some v →
        v.start = n
    · exact apart_archive hapart (h.before.dated.upto e) h.next fun v hv =>
        ⟨hnow v hv, (h.new_version he hfits hne hv).1⟩
    · push Not at hnow
      obtain ⟨v, hv, hstart⟩ := hnow
      obtain ⟨-, hcases⟩ := h.new_version he hfits hne hv
      exact apart_archive_of_empty (hcases.resolve_left hstart).1

/-- At snapshots before the commit the same versions are live, but for files the commit backdates. -/
theorem live_before (hfits : PoisonFits tx poisoned) {m : Nat} (hm : m < n) (hdated : ¬ r'.Backdated e m)
    (y : EntityRecord) : Live (r'.store.timeline e) m y ↔ Live (r.store.timeline e) m y := by
  rw [h.timeline e he]
  split
  · rfl
  · next hne =>
    refine live_archive_of_lt (h.before.dated.upto e) h.next (fun v hv => ?_) hm
    obtain ⟨-, hstart | ⟨-, hbackdated⟩⟩ := h.new_version he hfits hne hv
    · exact hstart
    · exact absurd (hbackdated m hm) hdated

/-- At the commit's own snapshot the committed state is live. -/
theorem live_at (y : EntityRecord) : Live (r'.store.timeline e) n y ↔
    ((applyPoison tx.state poisoned).get (.entity e)).map EntityRecord.described = some y := by
  have hupto := h.after.dated.upto e
  rw [h.head] at hupto
  rw [live_of_le hupto le_rfl, Store.timeline, h.current e he]
  exact EntityRecord.exists_version_iff he (fun rec hrec => (h.grown.sound.applyPoison poisoned _ rec hrec).1) y

omit he in
/-- Poison that does not fit leaves overlapping versions. -/
theorem fits_of_apart (hapart : ∀ e, e.isVersioned → Apart (r'.store.timeline e)) : PoisonFits tx poisoned := by
  by_contra hnot
  obtain ⟨e, rec, rec', he, hbase, hstate, hdefinition, hlifecycle⟩ := version_of_not_fits h.grown hnot
  have hcurrent := h.before.dated.get h.lists (.entity e)
  rw [hbase] at hcurrent
  have hkey := h.before.dated.keyed _ rec hcurrent.symm
  obtain ⟨⟨start, stop⟩, hspan⟩ := Option.isSome_iff_exists.mp ((EntityRecord.lifecycle_isSome_iff hkey).mpr he)
  obtain ⟨hle, rfl⟩ := h.before.dated.current _ rec hcurrent.symm start stop hspan
  have hafter := hapart e he
  rw [h.timeline e he, if_neg (by rw [hbase, hstate]; simpa using hdefinition), hstate] at hafter
  refine not_apart_archive (v := ⟨start, none, rec.described⟩) (w := ⟨start, none, rec'.described⟩) ?_
    (hle.trans_lt h.next) (hle.trans_lt h.next) rfl ?_ (n := n) (T := r.store.timeline e)
  · rw [Store.timeline, ← hcurrent]
    simp [EntityRecord.version, hspan]
  · convert hafter using 2
    simp [EntityRecord.version, hlifecycle, hspan]

omit he in
/-- The commit keeps the views right exactly if its poison fits. -/
theorem travels_iff (hp : r.Travels) : r'.Travels ↔ PoisonFits tx poisoned := by
  obtain ⟨hapart, hlive⟩ := (TravelRun.travels_iff h.before).mp hp
  refine ⟨fun htravels => h.fits_of_apart htravels.apart, fun hfits => ?_⟩
  refine (TravelRun.travels_iff h.after).mpr
    ⟨fun e he => h.apart he hfits (hapart e he), fun x hx e he hdated y => ?_⟩
  rw [h.states, List.mem_cons] at hx
  rcases hx with rfl | hx
  · exact h.live_at he y
  · have hlt : x.1 < n := (h.before.recorded x hx).1.trans_lt h.next
    rw [h.live_before he hfits hlt hdated]
    exact hlive x hx e he (fun hbackdated => hdated (h.backdated he hlt hbackdated)) y

end MintedAt

/-- A step keeps the views right exactly if its commit's entries collide in no earlier index. -/
theorem travels_step_iff {event : TravelEvent} (hr : r.Inv) (hp : r.Travels) (h : r.step changes event = some r') :
    r'.Travels ↔ r.Collisionless event := by
  have hr' := inv_step hr h
  cases event with
  | reopen =>
    rw [step] at h
    split at h
    · cases h
    · cases h
      exact ⟨fun _ => trivial, fun _ => ⟨hp.views, hp.apart⟩⟩
  | commit micros calls =>
    obtain ⟨b, tx, hb, hrun, hcommits⟩ := commits_of_step h
    have hgrown := hr.grown hb hrun
    -- The batch and the transaction of the commit are the only ones the condition speaks of.
    have hcondition : ∀ p : Batch → Transaction → Prop, (∀ b' tx', r.batch.refold = .ok b' →
        Call.runClosure calls (.new b'.view (b'.view.snapshot.snapshotId + 1)) = .ok () tx' → p b' tx') ↔ p b tx := by
      intro p
      refine ⟨fun hall => hall b tx hb hrun, fun hp b' tx' hb' hrun' => ?_⟩
      obtain rfl : b = b' := Except.ok.inj (hb.symm.trans hb')
      rw [hrun] at hrun'
      cases hrun'
      exact hp
    unfold Collisionless
    dsimp only
    rw [hcondition fun b tx => tx.ops ≠ [] → ∀ t i value, b.db.entries.Collides tx.indexEntries i →
      getNested tx.state.indexes t i = some value →
        value.beginSnapshot = tx.newSnapshotId ∨ value.poisoned = some true]
    cases hcommits with
    | nothing hempty hstore hstates hflushed =>
      exact ⟨fun _ hne => absurd hempty hne, fun _ => travels_of_timeline_eq hr hr' hp hstates hflushed
        fun e _ => by rw [hstore]⟩
    | options hempty hstore hstates hflushed =>
      refine ⟨fun _ hne => absurd hempty hne, fun _ => travels_of_timeline_eq hr hr' hp hstates hflushed
        fun e he => ?_⟩
      rw [hstore]
      exact (dated_commit_options b.view hr.dated hgrown.sound).2 e he
    | minted poisoned hne hcollides hstore hstates hflushed =>
      rw [(mintedAt_of_commits hr hr' hb hgrown hstore hstates hflushed).travels_iff hp, PoisonFits]
      simp only [hcollides, ne_eq, hne, not_false_eq_true, forall_true_left]

end Step

section Start

variable (micros : Int) (uuid : String) (encrypted : Bool) (dataPath : Option String)

theorem bootstrap_current {k : CurrentKey} {rec : EntityRecord}
    (h : (Store.bootstrap micros uuid encrypted dataPath).current[k]? = some rec) :
    (rec.lifecycle = none ∨ rec.lifecycle = some (0, none)) ∧ ∀ t f, k ≠ .entity (.file t f) := by
  simp only [Store.bootstrap, getElem?_insert_ite] at h
  split at h
  · next hk => cases h; subst hk; exact ⟨.inl rfl, by simp⟩
  · split at h
    · next hk => cases h; subst hk; exact ⟨.inr rfl, by simp⟩
    · simp at h

theorem start_timeline_ended (e : EntityKey) (ended : Nat) :
    (start micros uuid encrypted dataPath).store.timeline e (some ended) = none := by
  simp [Store.timeline, store, start, Batch.opened, Store.bootstrap]

theorem start_lists :
    (start micros uuid encrypted dataPath).store.Lists (start micros uuid encrypted dataPath).batch.base := by
  have hkeyed := (Store.bootstrap_consistent micros uuid encrypted dataPath).keyed
  refine (Store.shows_of_materialize hkeyed ?_).toLists
  simp [start, Batch.opened, Store.materialize, Store.refuseMidMigration, Store.resolveHead, Store.bootstrap,
    bind, Except.bind, pure, Except.pure]

theorem inv_start : (start micros uuid encrypted dataPath).Inv where
  dated :=
    { keyed := (Store.bootstrap_consistent micros uuid encrypted dataPath).keyed
      current := fun k rec hrec b x hspan => by
        rcases (bootstrap_current micros uuid encrypted dataPath hrec).1 with hnone | hopen
        · rw [hnone] at hspan
          cases hspan
        · rw [hopen] at hspan
          cases hspan
          exact ⟨Nat.zero_le _, rfl⟩
      history := fun h rec hrec => by
        simp [store, start, Batch.opened, Store.bootstrap] at hrec }
  migration := rfl
  stands b hb := by
    obtain rfl : (start micros uuid encrypted dataPath).batch = b := Except.ok.inj hb
    exact start_lists micros uuid encrypted dataPath
  snapshots := (Store.bootstrap_consistent micros uuid encrypted dataPath).snapshots
  recorded x hx := by
    obtain rfl := List.mem_singleton.mp hx
    exact ⟨le_rfl, _, (start_lists micros uuid encrypted dataPath).snapshot⟩
  files snapshot _ t f i v hv := by
    cases i with
    | none =>
      rw [Store.timeline] at hv
      obtain ⟨rec, hrec, -⟩ := Option.bind_eq_some_iff.mp hv
      exact absurd rfl ((bootstrap_current micros uuid encrypted dataPath hrec).2 t f)
    | some ended =>
      rw [start_timeline_ended] at hv
      cases hv

theorem travels_start : (start micros uuid encrypted dataPath).Travels := by
  have hinv := inv_start micros uuid encrypted dataPath
  refine (travels_iff hinv).mpr ⟨fun e he => ?_, fun x hx e he _ y => ?_⟩
  · exact apart_of_current (start_timeline_ended micros uuid encrypted dataPath e)
  · obtain rfl := List.mem_singleton.mp hx
    have hlists := start_lists micros uuid encrypted dataPath
    refine (live_of_le (hinv.dated.upto e) (Nat.zero_le _)).trans ?_
    rw [Store.timeline, ← hinv.dated.get hlists]
    refine EntityRecord.exists_version_iff he (fun rec hrec => ?_) y
    rw [hinv.dated.get hlists] at hrec
    exact hinv.dated.keyed _ rec hrec

end Start

/-- From a new catalog on, every view at a snapshot of the run shows what was committed there and no versions
    overlap, in every state of a run, exactly if no commit's entries collide in an earlier index. -/
theorem always_travels_iff (changes : List Operation → String × List Nat) (micros : Int) (uuid : String)
    (encrypted : Bool) (dataPath : Option String) (events : List TravelEvent) :
    Runs.Always (step changes) Travels (start micros uuid encrypted dataPath) events ↔
      Runs.Throughout (step changes) Collisionless (start micros uuid encrypted dataPath) events :=
  Runs.always_iff_throughout (I := Inv) inv_step travels_step_iff (inv_start micros uuid encrypted dataPath)
    (travels_start micros uuid encrypted dataPath)

namespace PoisonedIndex

/-- A table, a unique index that is being built over it, and a file with two rows of one value. The commit of the
    file poisons the index, which keeps the snapshot it began at; the index is then dropped. -/
def events : List TravelEvent :=
  [.commit 1 [(.createTable 0 "t" [⟨"a", "int64", true, none, []⟩] "uuid", true)],
   .commit 2 [(.createIndexStagedOrderedWithMaintenance 1 ⟨"i", [1], true⟩ [] .synchronous, true)],
   .commit 3 [(.registerDataFile 1 ⟨"f", true, "parquet", 2, 100, 10, none, [], []⟩
      [⟨2, 0, [some (.int 7 .i64)]⟩, ⟨2, 1, [some (.int 7 .i64)]⟩], true)],
   .commit 4 [(.dropIndex 2, true)]]

def poisoned (v : CatalogSnapshot) : Option Bool := (getNested v.indexes 1 2).bind IndexValue.poisoned

/-- The flag is part of the index's definition. -/
theorem poisoned_congr {v w : CatalogSnapshot} (h : (v.get (.entity (.index 1 2))).map EntityRecord.described =
    (w.get (.entity (.index 1 2))).map EntityRecord.described) : poisoned v = poisoned w := by
  simp only [CatalogSnapshot.get] at h
  rw [poisoned, poisoned]
  cases hv : getNested v.indexes 1 2 <;> cases hw : getNested w.indexes 1 2 <;>
    simp [hv, hw, EntityRecord.described, EntityRecord.definition, EntityRecord.ended] at h ⊢
  tauto

/-- The index's flag in the view at snapshot 2, and in the state that was committed there. -/
def flags (r : TravelRun) : Option (Option Bool) × Option (Option Bool) :=
  ((r.store.materializeAt 2).toOption.map poisoned, (r.states.find? (·.1 == 2)).map (poisoned ·.2))

/-- The view at the snapshot the index was created at shows it poisoned already. -/
theorem index_poisoned_early : ∃ r, Runs.run (step fun _ => ("", [])) (start 0 "" false none) events = some r ∧
    ¬ r.Travels := by
  have hflags : (Runs.run (step fun _ => ("", [])) (start 0 "" false none) events).map flags =
      some (some (some true), some none) := by
    decide +kernel
  obtain ⟨r, hr, hshown⟩ := Option.map_eq_some_iff.mp hflags
  obtain ⟨hview, hstate⟩ := Prod.mk.inj hshown
  obtain ⟨x, hx, hcommitted⟩ := Option.map_eq_some_iff.mp hstate
  refine ⟨r, hr, fun htravels => ?_⟩
  obtain ⟨view, hmaterialized, hsame⟩ := htravels.views x (List.mem_of_find?_eq_some hx)
  have hn : x.1 = 2 := by simpa using List.find?_some hx
  have hindex := hsame (.index 1 2) rfl fun ⟨t, f, n, hfile, _⟩ => by cases hfile
  rw [hn] at hmaterialized
  rw [hmaterialized] at hview
  have hpoisoned : poisoned view = some true := Option.some.inj hview
  cases (hpoisoned.symm.trans (poisoned_congr hindex)).trans hcommitted

end PoisonedIndex

end TravelRun

end Moraine
