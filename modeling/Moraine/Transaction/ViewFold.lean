-- SUMMARY: Views that stand at a committed state, and the folds and refreshes that keep them there.
import Moraine.Base.Results
import Moraine.Catalog.Projection
import Moraine.Transaction.Refresh

/-!
# Views that stand at a state

A view stands at a state if it has the stamps of its head, shows exactly its live records, and resolves names
as a rebuild does. A materialized view does. A view is then carried along in two ways: the batch of a commit is
folded into the commit's base, and a held view replays the changelogs up to a newer head. `BatchFits` and
`ReplayFits` say for which batches and which gaps the result stands at the new state.
-/

namespace Moraine

open Std (ExtTreeMap ExtTreeSet TransOrd LawfulEqOrd)
open OrdMap NameIndex CatalogSnapshot

/-- The head record a view stands at. -/
def CatalogSnapshot.viewHead (view : CatalogSnapshot) : HeadValue := ⟨view.snapshot.snapshotId, view.batchSeq⟩

namespace Store

/-- The view shows what a materialization of the store shows. -/
def Rebuilds (s : Store) (view : CatalogSnapshot) : Prop :=
  ∃ full, s.materialize = .ok full ∧ view.Same full ∧ view.snapshot = full.snapshot ∧ view.batchSeq = full.batchSeq

/-- The view has the stamps of the state's head and its live records. -/
structure Lists (s : Store) (view : CatalogSnapshot) : Prop where
  snapshot : s.snapshots[s.head.snapshotId]? = some view.snapshot
  batchSeq : view.batchSeq = s.head.batchSeq
  get : ∀ k, view.get k = s.current[k]?.filter (isLive none)

/-- The view stands at the state. -/
structure Shows (s : Store) (view : CatalogSnapshot) : Prop extends s.Lists view where
  migration : s.migration = none
  faithful : view.directory.Faithful

theorem migration_of_refuse {s : Store} {u : Unit} (h : s.refuseMidMigration = .ok u) : s.migration = none := by
  unfold refuseMidMigration at h
  cases hmigration : s.migration with
  | none => rfl
  | some marker => rw [hmigration] at h; cases h

section Shows

variable {s : Store} {view : CatalogSnapshot}

theorem shows_of_materialize (hs : s.WellKeyed) (h : s.materialize = .ok view) : s.Shows view := by
  obtain ⟨hmigration, snapshot, hsnapshot, rfl⟩ := of_materialize h
  exact
    { migration := hmigration
      snapshot := by rw [hsnapshot, viewAt_snapshot]
      batchSeq := viewAt_batchSeq snapshot
      get := viewAt_get hs snapshot
      faithful := viewAt_faithful hs snapshot }

theorem Lists.viewHead (h : s.Lists view) (hs : s.SnapshotsKeyed) : view.viewHead = s.head := by
  unfold CatalogSnapshot.viewHead
  rw [hs _ _ h.snapshot, h.batchSeq]

variable (hs : s.WellKeyed) (h : s.Shows view)
include hs h

theorem Shows.wellKeyed : view.WellKeyed := by
  intro k r hr
  rw [h.get, Option.filter_eq_some_iff] at hr
  exact hs k r hr.1

omit hs in
theorem Shows.finite : {k | view.directory.held k ≠ none}.Finite := by
  refine (finite_present s.current).subset fun k hk habsent => hk ?_
  simp [directory, h.get, habsent]

theorem Shows.rebuilds : s.Rebuilds view := by
  refine ⟨s.viewAt view.snapshot, materialize_eq h.migration h.snapshot, ?_, (viewAt_snapshot _).symm, ?_⟩
  · have hget : ∀ k, view.get k = (s.viewAt view.snapshot).get k := fun k => by rw [h.get, viewAt_get hs]
    have hfaithful := viewAt_faithful hs view.snapshot
    refine (same_iff (h.wellKeyed hs) (viewAt_wellKeyed hs _) h.faithful.linked hfaithful.linked hget).mpr fun n => ?_
    refine h.faithful.owner_eq hfaithful (fun k => ?_) n
    simp only [directory, hget k]
  · rw [h.batchSeq, viewAt_batchSeq]

end Shows

end Store

/-! ## The stamps of a folded view -/

/-- The snapshot record a write puts. -/
def StagedWrite.minted? : StagedWrite → Option SnapshotValue
  | .snapshot _ value => value
  | _ => none

/-- The last snapshot record a batch puts. -/
def mintStamp (writes : List StagedWrite) : Option SnapshotValue := writes.reverse.findSome? StagedWrite.minted?

theorem headStamp_append (us ws : List StagedWrite) : headStamp (us ++ ws) = (headStamp ws).or (headStamp us) := by
  simp [headStamp, List.findSome?_append]

theorem mintStamp_append (us ws : List StagedWrite) : mintStamp (us ++ ws) = (mintStamp ws).or (mintStamp us) := by
  simp [mintStamp, List.findSome?_append]

namespace CatalogSnapshot

theorem removeEntity_snapshot {v v' : CatalogSnapshot} {e : EntityKey} (h : v.removeEntity e = .ok v') :
    v'.snapshot = v.snapshot := by
  cases e <;> cases h
  case schema s =>
    unfold removeSchemaOnly
    split <;> rfl
  case index t i =>
    unfold deleteIndex
    split <;> rfl
  all_goals rfl

/-- What a batch stamps: the head and the snapshot record it reads last. The snapshot of the running view stays. -/
structure Stamps (writes : List StagedWrite) (st st' : FoldState) : Prop where
  newHead : st'.newHead = ((headStamp writes).map (·.snapshotId)).or st.newHead
  batchSeq : st'.view.batchSeq = ((headStamp writes).map (·.batchSeq)).getD st.view.batchSeq
  minted : st'.minted = (mintStamp writes).or st.minted
  snapshot : st'.view.snapshot = st.view.snapshot

theorem foldWrite_stamps {st st' : FoldState} {w : StagedWrite} (h : foldWrite st w = .ok st') :
    Stamps [w] st st' := by
  have hkeep : ∀ u, (st.view.applyCurrentWrite u).batchSeq = st.view.batchSeq := by
    intro u
    have hstamp := congrArg (fun v : CatalogSnapshot => v.batchSeq)
      (applyCurrentWrite_batchSeq st.view st.view.batchSeq u)
    exact hstamp
  match w, h with
  | .current (.entity e) none, h =>
    obtain ⟨view, hview, h⟩ := Results.bind_eq_ok.mp h
    cases h
    refine ⟨rfl, ?_, rfl, removeEntity_snapshot hview⟩
    rw [← applyCurrentWrite_of_removeEntity hview]
    exact hkeep _
  | .current (.entity e) (some r), h =>
    cases h
    exact ⟨rfl, hkeep (.entity e, some r), rfl, putRecord_snapshot _ r⟩
  | .current (.gcFile f) none, h =>
    cases h
    exact ⟨rfl, hkeep (.gcFile f, none), rfl, rfl⟩
  | .current (.gcFile f) (some r), h =>
    cases h
    exact ⟨rfl, hkeep (.gcFile f, some r), rfl, putRecord_snapshot _ r⟩
  | .snapshot _ value, h =>
    cases h
    exact ⟨rfl, rfl, by cases value <;> rfl, rfl⟩
  | .head .., h | .history .., h | .schemaVersion .., h | .changelog .., h =>
    cases h
    exact ⟨rfl, rfl, rfl, rfl⟩

theorem foldlM_foldWrite_stamps {writes : List StagedWrite} {st st' : FoldState}
    (h : writes.foldlM foldWrite st = .ok st') : Stamps writes st st' := by
  induction writes generalizing st with
  | nil =>
    cases h
    exact ⟨rfl, rfl, rfl, rfl⟩
  | cons w writes ih =>
    obtain ⟨st₁, hst₁, h⟩ := Results.bind_eq_ok.mp h
    have hw := foldWrite_stamps hst₁
    have hrest := ih h
    rw [← List.singleton_append]
    refine ⟨?_, ?_, ?_, hrest.snapshot.trans hw.snapshot⟩
    · rw [hrest.newHead, hw.newHead, headStamp_append]
      cases headStamp writes <;> rfl
    · rw [hrest.batchSeq, hw.batchSeq, headStamp_append]
      cases headStamp writes <;> rfl
    · rw [hrest.minted, hw.minted, mintStamp_append, Option.or_assoc]

/-- A folded view has the batch count of the head the batch writes, and the snapshot record the batch puts last if that
    is the head's. -/
theorem foldBatch_stamps {v view : CatalogSnapshot} {writes : List StagedWrite} {head : HeadValue}
    (hstamp : headStamp writes = some head) (h : v.foldBatch writes = .ok view) :
    view.batchSeq = head.batchSeq ∧
      view.snapshot = ((mintStamp writes).filter (·.snapshotId = head.snapshotId)).getD v.snapshot := by
  obtain ⟨st, hst, h⟩ := Results.bind_eq_ok.mp h
  obtain ⟨hhead, hseq, hminted, hsnapshot⟩ := foldlM_foldWrite_stamps hst
  rw [hstamp] at hhead hseq
  rw [Option.or_none] at hminted
  rw [hhead, hminted] at h
  cases hvalue : mintStamp writes with
  | none =>
    simp only [hvalue, Option.map_some, Option.some_or] at h
    cases h
    exact ⟨hseq, hsnapshot⟩
  | some value =>
    simp only [hvalue, Option.map_some, Option.some_or] at h
    cases h
    by_cases hid : value.snapshotId = head.snapshotId
    · simp [hid, hseq, Option.filter_some]
    · simp [hid, hseq, hsnapshot, Option.filter_some]

end CatalogSnapshot

/-! ## Groups -/

namespace Member

instance (s : Store) (m : Member) : Decidable (m.Lands s) :=
  decidable_of_iff ((∀ w ∈ currentWrites m.writes, ∀ r ∈ w.2, r.key = w.1) ∧ (∀ w ∈ m.writes, w.isCatalog) ∧
      ∀ id ∈ m.mintedId, s.head.snapshotId < id)
    ⟨fun ⟨hkeyed, hcatalog, hahead⟩ => ⟨fun k r hr => hkeyed (k, some r) hr r rfl, hcatalog, hahead⟩,
      fun h => ⟨fun w hw r hr => h.keyed w.1 r (hr ▸ hw), h.catalog, h.ahead⟩⟩

/-- The last snapshot the members mint. -/
def lastMinted (ms : List Member) : Option SnapshotValue := ms.reverse.findSome? minted

theorem lastMinted_append (ms : List Member) (m : Member) :
    lastMinted (ms ++ [m]) = m.minted.or (lastMinted ms) := by
  cases hm : m.minted <;> simp [lastMinted, hm]

/-- The snapshot id at the head once the members have landed on the head `id`. -/
def headAfter (id : Nat) (ms : List Member) : Nat := ((lastMinted ms).map SnapshotValue.snapshotId).getD id

theorem headStamp_batch (s : Store) (m : Member) : headStamp (m.batch s) = some (s.commit m).head := by
  rw [Store.commit_head]
  cases hm : m.minted with
  | none => simp [batch, mintedId, hm, headWrite, headStamp]
  | some value => simp [batch, mintedId, hm, headWrite, headStamp]

theorem mintStamp_batch {m : Member} (hm : ∀ w ∈ m.writes, w.isCatalog) (s : Store) :
    mintStamp (m.batch s) = m.minted := by
  cases hminted : m.minted with
  | none =>
    refine List.findSome?_eq_none_iff.mpr fun w hw => ?_
    rw [List.mem_reverse, batch, hminted, List.mem_append, List.mem_singleton] at hw
    rcases hw with hw | rfl
    · have hcatalog := hm w hw
      cases w with
      | snapshot id value =>
        have hnone : value = none := by simpa [StagedWrite.isCatalog] using hcatalog
        exact hnone
      | _ => rfl
    · rfl
  | some value => simp [batch, hminted, mintStamp, headWrite, List.findSome?_cons, StagedWrite.minted?]

end Member

namespace Store

/-- The state a group leads to and its writes: each member is staged on what the ones before it leave. -/
def group (s : Store) (ms : List Member) : Store × List StagedWrite :=
  ms.foldl (fun staged m => (staged.1.commit m, staged.2 ++ m.batch staged.1)) (s, [])

/-- The state a group leads to, if every member lands. -/
def land (s : Store) : List Member → Option Store
  | [] => some s
  | m :: ms => if m.Lands s then (s.commit m).land ms else none

theorem run_of_land {s t : Store} {ms : List Member} (h : s.land ms = some t) : Run s ms t := by
  induction ms generalizing s with
  | nil =>
    cases h
    exact .refl
  | cons m ms ih =>
    rw [land] at h
    split at h
    · next lands => exact (Run.step .refl lands).trans (ih h)
    · cases h

end Store

namespace Run

variable {s t : Store} {ms : List Member} (h : Run s ms t)
include h

theorem group_fst : (s.group ms).1 = t := by
  induction h with
  | refl => rfl
  | step _ _ ih => simp only [Store.group, List.foldl_append, List.foldl_cons, List.foldl_nil] at ih ⊢; rw [ih]

theorem group_snd (m : Member) : (s.group (ms ++ [m])).2 = (s.group ms).2 ++ m.batch t := by
  rw [← h.group_fst, Store.group, List.foldl_append]
  rfl

/-- A group writes the head it leads to. -/
theorem headStamp_group (hne : ms ≠ []) : headStamp (s.group ms).2 = some t.head := by
  cases h with
  | refl => exact absurd rfl hne
  | step run _ => rw [run.group_snd, headStamp_append, Member.headStamp_batch, Option.some_or]

theorem mintStamp_group : mintStamp (s.group ms).2 = Member.lastMinted ms := by
  induction h with
  | refl => rfl
  | step run lands ih =>
    rw [run.group_snd, mintStamp_append, Member.mintStamp_batch lands.catalog, ih, Member.lastMinted_append]

theorem currentWrites_group : currentWrites (s.group ms).2 = ms.flatMap fun m => currentWrites m.writes := by
  induction h with
  | refl => rfl
  | step run _ ih =>
    rw [run.group_snd, currentWrites_append, ih, Store.currentWrites_batch, List.flatMap_append, List.flatMap_singleton]

theorem current_group : t.current = setKeys s.current (ms.flatMap fun m => currentWrites m.writes) := by
  induction h with
  | refl => rfl
  | step _ _ ih =>
    rw [Store.commit_current, ih, List.flatMap_append, List.flatMap_singleton, setKeys, setKeys, setKeys,
      List.foldl_append]

theorem head_group : t.head.snapshotId = Member.headAfter s.head.snapshotId ms := by
  induction h with
  | refl => rfl
  | @step ms t m run _ ih =>
    rw [Store.commit_head, Member.headAfter, Member.lastMinted_append, Member.mintedId]
    cases m.minted with
    | none => exact ih
    | some minted => rfl

/-- The record of the head a group leads to is that of the last snapshot minted, if no member deletes it. -/
theorem snapshots_group (hkept : ∀ m ∈ ms, .snapshot t.head.snapshotId none ∉ m.writes) :
    t.snapshots[t.head.snapshotId]? = (Member.lastMinted ms).or s.snapshots[s.head.snapshotId]? := by
  induction h with
  | refl => rfl
  | @step ms t m run lands ih =>
    have hid := Store.commit_head (s := t) (m := m)
    have hwritten : ∀ v, StagedWrite.snapshot (t.commit m).head.snapshotId v ∉ m.writes := by
      rintro (_ | v) hw
      · exact hkept m (by simp) hw
      · simpa [StagedWrite.isCatalog] using lands.catalog _ hw
    rw [Store.commit_snapshots_of_kept hwritten, Member.lastMinted_append, hid]
    rw [hid] at hkept
    cases hm : m.minted with
    | some minted => simp [Member.mintedId, hm]
    | none =>
      simp only [Member.mintedId, hm, Option.map_none, Option.getD_none, reduceCtorEq, if_false, Option.none_or]
        at hkept ⊢
      exact ih fun m' hm' => hkept m' (List.mem_append_left _ hm')

end Run

/-! ## Folds and refreshes -/

/-- What the `current` writes of a batch may do to the view they are folded into. They come in parts, each of which
    puts a record once, under its own key and without an end, deletes no column mapping, and settles every name. -/
inductive Fits : CatalogSnapshot → List (CurrentKey × Option EntityRecord) → Prop where
  | nil {v : CatalogSnapshot} : Fits v []
  | part {v : CatalogSnapshot} {part rest : List (CurrentKey × Option EntityRecord)} (foldable : Foldable part)
      (live : ∀ w ∈ part, ∀ r, w.2 = some r → isLive none r) (inOrder : v.directory.InOrder (nameWrites part))
      (settled : v.directory.Settled (nameWrites part)) (others : Fits (v.applyCurrent part) rest) :
      Fits v (part ++ rest)

/-- A group fits a view if its writes do and it keeps the record of the head it leads to. -/
structure GroupFits (base : CatalogSnapshot) (ms : List Member) : Prop where
  fits : Fits base (ms.flatMap fun m => currentWrites m.writes)
  kept : ∀ m ∈ ms, .snapshot (Member.headAfter base.snapshot.snapshotId ms) none ∉ m.writes

section Fold

variable {v : CatalogSnapshot} {cws : List (CurrentKey × Option EntityRecord)}
  {current : ExtTreeMap CurrentKey EntityRecord}

/-- A view of live records takes live records along. -/
theorem get_applyCurrent_live (hfoldable : Foldable cws) (hlive : ∀ w ∈ cws, ∀ r, w.2 = some r → isLive none r)
    (hget : ∀ k : CurrentKey, v.get k = current[k]?.filter (isLive none)) (k : CurrentKey) :
    (v.applyCurrent cws).get k = (setKeys current cws)[k]?.filter (isLive none) := by
  by_cases hk : k ∈ cws.map Prod.fst
  · obtain ⟨w, hw, rfl⟩ := List.mem_map.mp hk
    rw [get_applyCurrent_of_mem hfoldable hw, getElem?_setKeys_of_mem hfoldable.nodup hw]
    cases hr : w.2 with
    | none => rfl
    | some r => rw [Option.filter_some, if_pos (hlive w hw r hr)]
  · rw [get_applyCurrent_of_not_mem hfoldable hk, getElem?_setKeys_of_not_mem hk, hget]

/-- Writes that fit take a view of live records, with its names, along. -/
theorem Fits.applyCurrent (h : Fits v cws) (hget : ∀ k : CurrentKey, v.get k = current[k]?.filter (isLive none))
    (hfaithful : v.directory.Faithful) :
    (∀ k, (v.applyCurrent cws).get k = (setKeys current cws)[k]?.filter (isLive none)) ∧
      (v.applyCurrent cws).directory.Faithful ∧ ∀ w ∈ cws, isMappingDelete w = false := by
  induction h generalizing current with
  | nil => exact ⟨hget, hfaithful, fun w hw => (by cases hw)⟩
  | @part v part rest foldable live inOrder settled _ ih =>
    have hfinite : {k | v.directory.held k ≠ none}.Finite := by
      refine (finite_present current).subset fun k hk habsent => hk ?_
      simp [directory, hget, habsent]
    have hnd : ((nameWrites part).map Prod.fst).Nodup := by
      simpa [nameWrites, List.map_map, Function.comp_def] using foldable.nodup
    have hnames : (v.applyCurrent part).directory.Faithful := by
      rw [directory_applyCurrent foldable]
      exact (Directory.faithful_run_iff hfaithful hfinite hnd inOrder).mpr settled
    obtain ⟨hrest, hrestNames, hrestMapping⟩ := ih (get_applyCurrent_live foldable live hget) hnames
    rw [CatalogSnapshot.applyCurrent, setKeys, List.foldl_append, List.foldl_append]
    refine ⟨hrest, hrestNames, fun w hw => ?_⟩
    exact (List.mem_append.mp hw).elim (foldable.noMappingDelete w) (hrestMapping w)

end Fold

/-- A view with a state's live records takes a batch of live records along. -/
theorem Store.Lists.get_foldBatch {s : Store} {base view : CatalogSnapshot} {writes : List StagedWrite}
    (h : s.Lists base) (hfoldable : Foldable (currentWrites writes))
    (hlive : ∀ w ∈ currentWrites writes, ∀ r, w.2 = some r → isLive none r)
    (hfold : base.foldBatch writes = .ok view) (k : CurrentKey) :
    view.get k = (s.applyBatch writes).current[k]?.filter (isLive none) := by
  obtain ⟨snapshot, batchSeq, hview⟩ := foldBatch_eq_ok base hfoldable.noMappingDelete
  rw [hfold, Except.ok.injEq] at hview
  rw [hview, get_stamp, applyBatch_current]
  exact get_applyCurrent_live hfoldable hlive h.get k

/-- A view that stands at a state takes a fitting group along to the state the group leads to. -/
theorem Store.Shows.foldGroup {s t : Store} {base view : CatalogSnapshot} {ms : List Member} (h : s.Shows base)
    (hs : s.SnapshotsKeyed) (hrun : Run s ms t) (hne : ms ≠ []) (hfits : GroupFits base ms)
    (hfold : base.foldBatch (s.group ms).2 = .ok view) : t.Shows view := by
  obtain ⟨hget, hfaithful, hmapping⟩ := hfits.fits.applyCurrent h.get h.faithful
  rw [← hrun.current_group] at hget
  rw [← hrun.currentWrites_group] at hget hfaithful hmapping
  obtain ⟨snapshot, batchSeq, hview⟩ := foldBatch_eq_ok base hmapping
  rw [hfold, Except.ok.injEq] at hview
  obtain ⟨hseq, hsnapshot⟩ := foldBatch_stamps (hrun.headStamp_group hne) hfold
  have hid : t.head.snapshotId = Member.headAfter base.snapshot.snapshotId ms := by
    rw [hrun.head_group, hs _ _ h.snapshot]
  refine
    { migration := hrun.migration.trans h.migration
      snapshot := ?_
      batchSeq := hseq
      get := fun k => by rw [hview, get_stamp, hget]
      faithful := by rwa [hview, directory_stamp] }
  rw [hrun.snapshots_group (by rw [hid]; exact hfits.kept), h.snapshot, hsnapshot, hrun.mintStamp_group, hid]
  cases hminted : Member.lastMinted ms with
  | none => rfl
  | some minted => simp [Member.headAfter, hminted, Option.filter_some]

/-- What a refresh that goes ahead returns. -/
theorem Store.refresh_eq_some {s : Store} {base view : CatalogSnapshot} (h : s.refresh base = .ok (some view)) :
    ∃ (keys : ExtTreeSet CurrentKey) (latest : SnapshotValue), keys.toList.toFinset = s.gapKeys base ∧
      (∀ w ∈ currentWrites (s.replayWrites keys), isMappingDelete w = false) ∧
      s.snapshots[s.head.snapshotId]? = some latest ∧
      view = { base.applyCurrent (currentWrites (s.replayWrites keys)) with
        snapshot := latest, batchSeq := s.head.batchSeq } := by
  by_cases hreplays : s.Replays base
  · obtain ⟨keys, latest, hkeys, hlatest, heq⟩ := Store.refresh_of_replays hreplays
    rw [heq] at h
    have hmapping : ∀ w ∈ currentWrites (s.replayWrites keys), isMappingDelete w = false := by
      by_contra hdelete
      rw [foldBatch_eq_error base (by simpa using hdelete)] at h
      cases h
    obtain ⟨snapshot, batchSeq, hfold⟩ := foldBatch_eq_ok base hmapping
    rw [hfold] at h
    cases h
    exact ⟨keys, latest, hkeys, hmapping, hlatest, rfl⟩
  · rw [Store.refresh_of_not_replays hreplays] at h
    cases h

section Refresh

variable {s : Store} {base view : CatalogSnapshot} (hs : s.WellKeyed)
  (hlive : ∀ k ∈ s.gapKeys base, ∀ r, s.current[k]? = some r → isLive none r)
  (hframe : ∀ k, k ∉ s.gapKeys base → base.get k = s.current[k]?.filter (isLive none))
  (hrefresh : s.refresh base = .ok (some view))

include hs hlive hframe hrefresh

/-- A refreshed view lists the store's head, if the gap has live records only and outside it the view has the
    records of the store. -/
theorem Store.lists_of_refresh : s.Lists view := by
  obtain ⟨keys, latest, hkeys, hmapping, hlatest, rfl⟩ := Store.refresh_eq_some hrefresh
  have hget := (Store.get_replay_eq_iff hs hkeys hmapping hframe latest).mpr hlive
  exact
    { snapshot := hlatest
      batchSeq := rfl
      get := fun k => (get_stamp _ _ _ k).trans ((hget k).trans (Store.viewAt_get hs latest k)) }

/-- If the names replay too, it stands at the store's head. -/
theorem Store.Shows.refresh {t : Store} (h : t.Shows base) (hmigration : s.migration = none)
    (hnames : s.NamesReplay base) : s.Shows view := by
  refine { Store.lists_of_refresh hs hlive hframe hrefresh with migration := hmigration, faithful := ?_ }
  obtain ⟨keys, latest, hkeys, hmapping, -, rfl⟩ := Store.refresh_eq_some hrefresh
  have hget := (Store.get_replay_eq_iff hs hkeys hmapping hframe latest).mpr hlive
  have hfoldable := Store.foldable_replay hs hmapping
  have hnd : ((nameWrites (currentWrites (s.replayWrites keys))).map Prod.fst).Nodup := by
    simpa [nameWrites, List.map_map, Function.comp_def] using hfoldable.nodup
  rw [directory_stamp, directory_applyCurrent hfoldable]
  exact (Directory.faithful_run_iff h.faithful h.finite hnd (Store.inOrder_replay _)).mpr
    ((Store.settled_replay_iff hs hkeys hmapping hget).mpr hnames)

end Refresh

end Moraine
