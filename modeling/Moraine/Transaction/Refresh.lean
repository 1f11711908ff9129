-- SUMMARY: Advancing a held head view by replaying changelogs, and when that is exact.
import Moraine.Transaction.Commit

/-!
# Changelog refresh

A reader that holds an older head view advances it without a scan: it collects the keys the changelogs of
the gap name, reads their current values, and folds them as if they were one batch. The keys are folded in
key order, whatever order the commits wrote them in.

`refresh_exact_iff` gives the gaps over which the result is the view a full materialization builds.
-/

namespace Moraine

open Std (ExtTreeMap ExtTreeSet TransOrd LawfulEqOrd)
open OrdMap NameIndex CatalogSnapshot

/-- Above this share of the live catalog a replay costs more than a scan. -/
def REFRESH_CHURN_SHARE : Nat := 2

namespace Store

/-- Collects the changelog keys of the snapshots `ids` on top of `keys`. Declines when a record is missing
    or when the keys pass the limit. -/
def gatherKeys (s : Store) (churnLimit : Nat) : List Nat → ExtTreeSet CurrentKey → Option (ExtTreeSet CurrentKey)
  | [], keys => some keys
  | id :: ids, keys =>
    match s.changelog[id]? with
    | none => none
    | some changelog =>
      let keys := keys.insertMany changelog
      if keys.size > churnLimit then none else gatherKeys s churnLimit ids keys

/-- The replayed write set: each key with the value it has now. -/
def replayWrites (s : Store) (keys : ExtTreeSet CurrentKey) : List StagedWrite :=
  keys.toList.map fun k => .current k s.current[k]?

def replay (s : Store) (base : CatalogSnapshot) (head : HeadValue) (churnLimit : Nat) :
    Except Error (Option CatalogSnapshot) := do
  let start := base.snapshot.snapshotId
  if head.snapshotId ≤ start then return none
  let minted := head.snapshotId - start
  -- A gap whose batch count outruns its snapshots contains a batch without a changelog.
  if head.batchSeq - base.batchSeq ≠ minted then return none
  match s.gatherKeys churnLimit (List.range' (start + 1) minted) ∅ with
  | none => return none
  | some keys =>
    match s.snapshots[head.snapshotId]? with
    | none => return none
    | some latest =>
      let view ← base.foldBatch (s.replayWrites keys)
      return some { view with snapshot := latest, batchSeq := head.batchSeq }

/-- Advances `base` to the store's head, or declines with `none`. -/
def refresh (s : Store) (base : CatalogSnapshot) : Except Error (Option CatalogSnapshot) :=
  s.replay base s.head (base.liveEntityCount / REFRESH_CHURN_SHARE)

/-! ## When a replay declines -/

/-- The keys the changelogs of the snapshots `ids` name. -/
def recordedKeys (s : Store) (ids : Finset Nat) : Finset CurrentKey :=
  ids.biUnion fun id => (s.changelog[id]?.getD []).toFinset

/-- The keys the changelogs between the view and the head name. -/
def gapKeys (s : Store) (base : CatalogSnapshot) : Finset CurrentKey :=
  s.recordedKeys (Finset.Ioc base.snapshot.snapshotId s.head.snapshotId)

/-- What a replay goes ahead on: the head moved, by as many batches as snapshots, every snapshot of the gap
    has its changelog, the changelogs are small, and the head's snapshot record is there. -/
structure Replays (s : Store) (base : CatalogSnapshot) : Prop where
  moved : base.snapshot.snapshotId < s.head.snapshotId
  counted : s.head.batchSeq - base.batchSeq = s.head.snapshotId - base.snapshot.snapshotId
  recorded : ∀ id, base.snapshot.snapshotId < id → id ≤ s.head.snapshotId → s.changelog[id]?.isSome
  small : (s.gapKeys base).card ≤ base.liveEntityCount / REFRESH_CHURN_SHARE
  present : s.snapshots[s.head.snapshotId]?.isSome

section Gather

variable {s : Store} {limit : Nat}

private theorem toFinset_insertMany (keys : ExtTreeSet CurrentKey) (ks : List CurrentKey) :
    (keys.insertMany ks).toList.toFinset = keys.toList.toFinset ∪ ks.toFinset := by
  ext k
  simp [ExtTreeSet.mem_insertMany_list]

private theorem toFinset_empty : (∅ : ExtTreeSet CurrentKey).toList.toFinset = ∅ := by
  ext k
  simp [ExtTreeSet.mem_toList]

private theorem size_eq_card (keys : ExtTreeSet CurrentKey) : keys.size = keys.toList.toFinset.card := by
  have hnd : keys.toList.Nodup := ExtTreeSet.distinct_toList.imp fun h => fun heq => h (by rw [heq]; simp)
  rw [List.toFinset_card_of_nodup hnd, ExtTreeSet.length_toList]

private theorem recordedKeys_insert (id : Nat) (ids : Finset Nat) :
    s.recordedKeys (insert id ids) = (s.changelog[id]?.getD []).toFinset ∪ s.recordedKeys ids := by
  rw [recordedKeys, Finset.biUnion_insert, recordedKeys]

/-- Gathering ends with the keys it started from and all those recorded, within the limit. -/
private theorem gatherKeys_some {ids : List Nat} {keys result : ExtTreeSet CurrentKey}
    (h : s.gatherKeys limit ids keys = some result) :
    (∀ id ∈ ids, s.changelog[id]?.isSome) ∧
      result.toList.toFinset = keys.toList.toFinset ∪ s.recordedKeys ids.toFinset ∧
      (ids ≠ [] → result.size ≤ limit) := by
  induction ids generalizing keys with
  | nil =>
    cases h
    simp [recordedKeys]
  | cons id ids ih =>
    simp only [gatherKeys] at h
    split at h
    · cases h
    · next changelog hid =>
      split at h
      · cases h
      · next hsmall =>
        obtain ⟨hall, hset, hsize⟩ := ih h
        refine ⟨?_, ?_, fun _ => ?_⟩
        · intro id' hid'
          rcases List.mem_cons.mp hid' with rfl | hid'
          · simp [hid]
          · exact hall id' hid'
        · rw [hset, toFinset_insertMany, List.toFinset_cons, recordedKeys_insert, hid, Option.getD_some,
            Finset.union_assoc]
        · cases ids with
          | nil => cases h; exact not_lt.mp hsmall
          | cons id' ids => exact hsize (List.cons_ne_nil _ _)

/-- Gathering declines only over a missing record or over too many keys. -/
private theorem gatherKeys_none {ids : List Nat} {keys : ExtTreeSet CurrentKey}
    (h : s.gatherKeys limit ids keys = none) :
    (∃ id ∈ ids, s.changelog[id]? = none) ∨
      limit < (keys.toList.toFinset ∪ s.recordedKeys ids.toFinset).card := by
  induction ids generalizing keys with
  | nil => cases h
  | cons id ids ih =>
    simp only [gatherKeys] at h
    split at h
    · next hid => exact .inl ⟨id, List.mem_cons_self, hid⟩
    · next changelog hid =>
      have hset : (keys.insertMany changelog).toList.toFinset ∪ s.recordedKeys ids.toFinset =
          keys.toList.toFinset ∪ s.recordedKeys (id :: ids).toFinset := by
        rw [toFinset_insertMany, List.toFinset_cons, recordedKeys_insert, hid, Option.getD_some,
          Finset.union_assoc]
      split at h
      · next hlarge =>
        -- The keys only grow from here on.
        refine .inr (lt_of_lt_of_le hlarge ?_)
        rw [size_eq_card, ← hset]
        exact Finset.card_le_card Finset.subset_union_left
      · rcases ih h with ⟨id', hid', hnone⟩ | hlarge
        · exact .inl ⟨id', List.mem_cons_of_mem _ hid', hnone⟩
        · exact .inr (hset ▸ hlarge)

private theorem gap_toFinset {a b : Nat} (h : a ≤ b) : (List.range' (a + 1) (b - a)).toFinset = Finset.Ioc a b := by
  ext id
  simp only [List.mem_toFinset, List.mem_range'_1, Finset.mem_Ioc]
  omega

end Gather

/-- A refresh that goes ahead folds the keys of the gap with their present values. -/
theorem refresh_of_replays {s : Store} {base : CatalogSnapshot} (h : s.Replays base) :
    ∃ keys : ExtTreeSet CurrentKey, ∃ latest, keys.toList.toFinset = s.gapKeys base ∧
      s.snapshots[s.head.snapshotId]? = some latest ∧
      s.refresh base = (base.foldBatch (s.replayWrites keys)).map fun view =>
        some { view with snapshot := latest, batchSeq := s.head.batchSeq } := by
  obtain ⟨latest, hlatest⟩ := Option.isSome_iff_exists.mp h.present
  have hgap := gap_toFinset h.moved.le
  cases hkeys : s.gatherKeys (base.liveEntityCount / REFRESH_CHURN_SHARE)
      (List.range' (base.snapshot.snapshotId + 1) (s.head.snapshotId - base.snapshot.snapshotId)) ∅ with
  | none =>
    rcases gatherKeys_none hkeys with ⟨id, hid, hnone⟩ | hlarge
    · rw [List.mem_range'_1] at hid
      have := h.recorded id (by omega) (by omega)
      simp [hnone] at this
    · rw [hgap, toFinset_empty, Finset.empty_union] at hlarge
      exact absurd h.small (not_le.mpr hlarge)
  | some keys =>
    refine ⟨keys, latest, ?_, hlatest, ?_⟩
    · rw [(gatherKeys_some hkeys).2.1, hgap, toFinset_empty, Finset.empty_union, gapKeys]
    · simp only [refresh, replay, not_le.mpr h.moved, ↓reduceIte, h.counted, ne_eq, not_true, hkeys, hlatest]
      cases base.foldBatch (s.replayWrites keys) <;> rfl

/-- A refresh that does not go ahead declines. -/
theorem refresh_of_not_replays {s : Store} {base : CatalogSnapshot} (h : ¬ s.Replays base) :
    s.refresh base = .ok none := by
  unfold refresh replay
  by_cases hmoved : s.head.snapshotId ≤ base.snapshot.snapshotId
  · simp [hmoved]
    rfl
  by_cases hcount : s.head.batchSeq - base.batchSeq = s.head.snapshotId - base.snapshot.snapshotId
  · have hgap := gap_toFinset (not_le.mp hmoved).le
    simp only [hmoved, ↓reduceIte, hcount, ne_eq, not_true]
    split
    · rfl
    · next keys hkeys =>
      obtain ⟨hall, hset, hsize⟩ := gatherKeys_some hkeys
      split
      · rfl
      · next latest hlatest =>
        -- Every ground for declining has failed, so the replay goes ahead.
        refine absurd ⟨not_le.mp hmoved, hcount, fun id hlo hhi => hall id ?_, ?_, by simp [hlatest]⟩ h
        · rw [List.mem_range'_1]
          omega
        · rw [hgap, toFinset_empty, Finset.empty_union] at hset
          rw [gapKeys, ← hset, ← size_eq_card]
          refine hsize fun hnil => ?_
          have := congrArg List.length hnil
          simp at this
          omega
  · simp [hmoved, hcount]
    rfl

/-! ## When a replay is exact -/

/-- A refresh either declines, or returns what a full materialization returns, and fails only if that
    fails. -/
def RefreshExact (s : Store) (base : CatalogSnapshot) : Prop :=
  match s.refresh base with
  | .ok none => True
  | .ok (some view) => ∃ full, s.materialize = .ok full ∧ view.Same full ∧
      view.snapshot = full.snapshot ∧ view.batchSeq = full.batchSeq
  | .error _ => ∀ full, s.materialize ≠ .ok full

/-- Every name live in the store keeps its link when the gap's keys are folded in key order. With `m` the
    greatest live key that holds the name: no greater key held it in the view, and unless `m` is itself
    among the gap's keys, no smaller one among them held it in the view or holds it now. -/
def NamesReplay (s : Store) (base : CatalogSnapshot) : Prop :=
  let held := (s.viewAt default).directory.held
  ∀ n m, IsGreatest {k | held k = some n} m →
    (∀ k, m < k → base.directory.held k ≠ some n) ∧
      (m ∈ s.gapKeys base ∨ ∀ k, k < m → k ∈ s.gapKeys base →
        base.directory.held k ≠ some n ∧ held k ≠ some n)

/-- What the store may hold at the gap's keys: no column mapping is gone, no record carries an end, and
    the names replay. -/
structure ReplayFits (s : Store) (base : CatalogSnapshot) : Prop where
  mapping : ∀ t m, .entity (.mapping t m) ∈ s.gapKeys base → s.current[CurrentKey.entity (.mapping t m)]? ≠ none
  live : ∀ k ∈ s.gapKeys base, ∀ r, s.current[k]? = some r → isLive none r
  names : s.NamesReplay base

section Exact

variable {s : Store} {base : CatalogSnapshot} {keys : ExtTreeSet CurrentKey}

private theorem currentWrites_replayWrites :
    currentWrites (s.replayWrites keys) = keys.toList.map fun k => (k, s.current[k]?) := by
  rw [currentWrites, replayWrites, List.filterMap_map]
  exact congrFun List.filterMap_eq_map' keys.toList

private theorem keys_sorted : keys.toList.Pairwise (· < ·) :=
  ExtTreeSet.ordered_toList.imp fun h => compare_lt_iff_lt.mp h

private theorem fst_replay :
    (currentWrites (s.replayWrites keys)).map Prod.fst = keys.toList := by
  simp [currentWrites_replayWrites, Function.comp_def]

theorem foldable_replay (hs : s.WellKeyed)
    (hmapping : ∀ w ∈ currentWrites (s.replayWrites keys), isMappingDelete w = false) :
    Foldable (currentWrites (s.replayWrites keys)) where
  nodup := by
    rw [fst_replay]
    exact keys_sorted.imp fun h => h.ne
  keyed w hw r hr := by
    rw [currentWrites_replayWrites] at hw
    obtain ⟨k, -, rfl⟩ := List.mem_map.mp hw
    exact hs k r hr
  noMappingDelete := hmapping

private theorem mem_gap_iff (hkeys : keys.toList.toFinset = s.gapKeys base) (k : CurrentKey) :
    k ∈ keys.toList ↔ k ∈ s.gapKeys base := by
  rw [← hkeys, List.mem_toFinset]

/-- What the folded view shows: the stored record at a key of the gap, the held one elsewhere. -/
private theorem get_replay (hs : s.WellKeyed)
    (hmapping : ∀ w ∈ currentWrites (s.replayWrites keys), isMappingDelete w = false) (k : CurrentKey) :
    (base.applyCurrent (currentWrites (s.replayWrites keys))).get k =
      if k ∈ keys.toList then s.current[k]? else base.get k := by
  have hfold := foldable_replay hs hmapping
  split
  · next hk =>
    have hw : (k, s.current[k]?) ∈ currentWrites (s.replayWrites keys) := by
      rw [currentWrites_replayWrites]
      exact List.mem_map_of_mem hk
    exact get_applyCurrent_of_mem hfold hw
  · next hk => exact get_applyCurrent_of_not_mem hfold (by rwa [fst_replay])

section Frame

variable (hs : s.WellKeyed) (hkeys : keys.toList.toFinset = s.gapKeys base)
  (hmapping : ∀ w ∈ currentWrites (s.replayWrites keys), isMappingDelete w = false)

include hs hkeys hmapping

/-- The folded view shows the records of the rebuilt one exactly if no replayed record has ended, where
    the held view and the store agree outside the gap. -/
theorem get_replay_eq_iff
    (hframe : ∀ k, k ∉ s.gapKeys base → base.get k = s.current[k]?.filter (isLive none)) (latest : SnapshotValue) :
    (∀ k, (base.applyCurrent (currentWrites (s.replayWrites keys))).get k = (s.viewAt latest).get k) ↔
      ∀ k ∈ s.gapKeys base, ∀ r, s.current[k]? = some r → isLive none r := by
  have hgap := mem_gap_iff hkeys
  constructor
  · intro h k hk r hr
    have hget := h k
    rw [get_replay hs hmapping, if_pos ((hgap k).mpr hk), viewAt_get hs, hr, Option.filter_some] at hget
    by_contra hdead
    rw [if_neg hdead] at hget
    cases hget
  · intro h k
    rw [get_replay hs hmapping, viewAt_get hs]
    by_cases hk : k ∈ keys.toList
    · rw [if_pos hk]
      cases hr : s.current[k]? with
      | none => rfl
      | some r => rw [Option.filter_some, if_pos (h k ((hgap k).mp hk) r hr)]
    · rw [if_neg hk, hframe k fun hk' => hk ((hgap k).mpr hk')]

/-- The gap's writes settle every name exactly if the names replay. -/
theorem settled_replay_iff {latest : SnapshotValue}
    (hget : ∀ k, (base.applyCurrent (currentWrites (s.replayWrites keys))).get k = (s.viewAt latest).get k) :
    base.directory.Settled (nameWrites (currentWrites (s.replayWrites keys))) ↔ s.NamesReplay base := by
  have hfold := foldable_replay hs hmapping
  have hfst : (nameWrites (currentWrites (s.replayWrites keys))).map Prod.fst = keys.toList := by
    rw [← fst_replay (s := s)]
    simp [nameWrites, Function.comp_def]
  refine Directory.settled_iff ?_ (fun k => ?_) (fun k hk => ?_) fun k n hk _ => ?_
  · rw [hfst]
    exact keys_sorted.imp fun h => h.ne
  · rw [← directory_applyCurrent hfold]
    simp only [directory, hget k, viewAt_get hs]
  · rw [hfst] at hk
    exact (mem_gap_iff hkeys k).mp hk
  · rw [hfst]
    exact (mem_gap_iff hkeys k).mpr hk

omit hs hkeys hmapping in
/-- The gap is folded in key order. -/
theorem inOrder_replay (d : Directory CurrentKey NameKey) :
    d.InOrder (nameWrites (currentWrites (s.replayWrites keys))) := by
  intro n
  rw [nameWrites, currentWrites_replayWrites, List.map_map, List.pairwise_map]
  exact keys_sorted.imp fun h _ _ => h

/-- Folding the gap gives the rebuilt view exactly if no replayed record has ended and the names replay. -/
private theorem same_replay_iff (hbase : base.WellKeyed) (hfaithful : base.directory.Faithful)
    (hfin : {k | base.directory.held k ≠ none}.Finite)
    (hframe : ∀ k, k ∉ s.gapKeys base → base.get k = s.current[k]?.filter (isLive none)) (latest : SnapshotValue) :
    (base.applyCurrent (currentWrites (s.replayWrites keys))).Same (s.viewAt latest) ↔
      (∀ k ∈ s.gapKeys base, ∀ r, s.current[k]? = some r → isLive none r) ∧ s.NamesReplay base := by
  have hsame := same_applyCurrent_iff hbase (viewAt_wellKeyed hs latest) hfaithful (viewAt_faithful hs latest) hfin
    (foldable_replay hs hmapping) (inOrder_replay base.directory)
  rw [← get_replay_eq_iff hs hkeys hmapping hframe latest]
  constructor
  · intro h
    exact ⟨h.get, (settled_replay_iff hs hkeys hmapping h.get).mp ((hsame h.get).mp h)⟩
  · rintro ⟨hget, hnames⟩
    exact (hsame hget).mpr ((settled_replay_iff hs hkeys hmapping hget).mpr hnames)

end Frame

theorem materialize_eq {latest : SnapshotValue} (hmig : s.migration = none)
    (hlatest : s.snapshots[s.head.snapshotId]? = some latest) : s.materialize = .ok (s.viewAt latest) := by
  simp [materialize, refuseMidMigration, resolveHead, hmig, hlatest]
  rfl

theorem of_materialize (h : s.materialize = .ok base) :
    s.migration = none ∧ ∃ snapshot, s.snapshots[s.head.snapshotId]? = some snapshot ∧
      base = s.viewAt snapshot := by
  unfold materialize refuseMidMigration resolveHead at h
  cases hmig : s.migration with
  | some marker => rw [hmig] at h; cases h
  | none =>
    cases hsnap : s.snapshots[s.head.snapshotId]? with
    | none => rw [hmig, hsnap] at h; cases h
    | some snapshot =>
      rw [hmig, hsnap] at h
      exact ⟨rfl, snapshot, rfl, (Except.ok.inj h).symm⟩

/-- A mapping key is the only key whose absence the fold refuses. -/
theorem mapping_iff (hkeys : keys.toList.toFinset = s.gapKeys base) :
    (∀ w ∈ currentWrites (s.replayWrites keys), isMappingDelete w = false) ↔
      ∀ t m, .entity (.mapping t m) ∈ s.gapKeys base →
        s.current[CurrentKey.entity (.mapping t m)]? ≠ none := by
  rw [currentWrites_replayWrites]
  constructor
  · intro h t m hmem habsent
    have hw := h _ (List.mem_map_of_mem ((mem_gap_iff hkeys _).mpr hmem))
    rw [habsent] at hw
    cases hw
  · intro h w hw
    obtain ⟨k, hk, rfl⟩ := List.mem_map.mp hw
    by_contra hdel
    obtain ⟨t, m, rfl, hnone⟩ := eq_mapping_of_isMappingDelete (Bool.eq_true_of_not_eq_false hdel)
    exact h t m ((mem_gap_iff hkeys _).mp hk) hnone

/-- Over a gap that replays, the store keeps its records at every key the changelogs do not name. -/
theorem current_eq_of_replays {s₀ : Store} {ms : List Member} (hrun : Run s₀ ms s) (h₀ : s₀.Consistent)
    (hid : base.snapshot.snapshotId = s₀.head.snapshotId) (hseq : base.batchSeq = s₀.head.batchSeq)
    (h : s.Replays base) {k : CurrentKey} (hk : k ∉ s.gapKeys base) : s.current[k]? = s₀.current[k]? := by
  have hcount := h.counted
  have hrec := h.recorded
  rw [hid] at hcount hrec
  rw [hseq] at hcount
  refine hrun.current_eq_of_recorded h₀ hcount hrec fun id keys hlo hhi hkeys hmem => hk ?_
  rw [gapKeys, hid, recordedKeys, Finset.mem_biUnion]
  exact ⟨id, Finset.mem_Ioc.mpr ⟨hlo, hhi⟩, by simpa [hkeys] using hmem⟩

end Exact

end Store

/-- After any run of commits, refreshing a view materialized at its start is exact if and only if the
    replay declines or the store's records fit it. -/
theorem refresh_exact_iff {micros : Int} {uuid : String} {encrypted : Bool} {dataPath : Option String}
    {ms₀ ms : List Member} {s₀ s : Store} {base : CatalogSnapshot}
    (hstart : Run (.bootstrap micros uuid encrypted dataPath) ms₀ s₀) (hbase : s₀.materialize = .ok base)
    (hrun : Run s₀ ms s) :
    s.RefreshExact base ↔ (s.Replays base → s.ReplayFits base) := by
  have h₀ := hstart.consistent (Store.bootstrap_consistent micros uuid encrypted dataPath)
  have hs := hrun.wellKeyed h₀.keyed
  obtain ⟨hmig, snapshot₀, hsnap₀, rfl⟩ := Store.of_materialize hbase
  by_cases hreplays : s.Replays (s₀.viewAt snapshot₀)
  · obtain ⟨keys, latest, hkeys, hlatest, hrefresh⟩ := Store.refresh_of_replays hreplays
    have hfull := Store.materialize_eq (hrun.migration.trans hmig) hlatest
    have hframe : ∀ k, k ∉ s.gapKeys (s₀.viewAt snapshot₀) →
        (s₀.viewAt snapshot₀).get k = s.current[k]?.filter (isLive none) := by
      intro k hk
      have hid : (s₀.viewAt snapshot₀).snapshot.snapshotId = s₀.head.snapshotId := by
        rw [Store.viewAt_snapshot]
        exact h₀.snapshots _ _ hsnap₀
      rw [Store.viewAt_get h₀.keyed, Store.current_eq_of_replays hrun h₀ hid rfl hreplays hk]
    rw [Store.RefreshExact, hrefresh]
    by_cases hmap : ∀ w ∈ currentWrites (s.replayWrites keys), isMappingDelete w = false
    · have hsame := Store.same_replay_iff hs hkeys hmap (Store.viewAt_wellKeyed h₀.keyed _)
        (Store.viewAt_faithful h₀.keyed _) (Store.viewAt_finite h₀.keyed _) hframe latest
      obtain ⟨snapshot', batchSeq', hfold⟩ := foldBatch_eq_ok (s₀.viewAt snapshot₀) hmap
      have hfits : s.ReplayFits (s₀.viewAt snapshot₀) ↔
          ((s₀.viewAt snapshot₀).applyCurrent (currentWrites (s.replayWrites keys))).Same (s.viewAt latest) := by
        rw [hsame]
        exact ⟨fun h => ⟨h.live, h.names⟩, fun h => ⟨(Store.mapping_iff hkeys).mp hmap, h.1, h.2⟩⟩
      simp only [hfold, Except.map, hfull, hreplays, forall_const, hfits, Except.ok.injEq, exists_eq_left',
        Store.viewAt_snapshot, Store.viewAt_batchSeq, and_true]
      exact same_stamp_iff
    · -- The fold meets a mapping that is gone and fails, while the store materializes.
      have hfold := foldBatch_eq_error (s₀.viewAt snapshot₀) (by simpa using hmap)
      have hunfit : ¬ s.ReplayFits (s₀.viewAt snapshot₀) :=
        fun h => hmap ((Store.mapping_iff hkeys).mpr h.mapping)
      simp [hfold, Except.map, hfull, hreplays, hunfit]
  · simp [Store.RefreshExact, Store.refresh_of_not_replays hreplays, hreplays]

/-! ## A name handed to a smaller id between two heads -/

namespace HandDown

/-- The head view, the view of an empty catalog if there is none. -/
def headView (s : Store) : CatalogSnapshot :=
  match s.materialize with
  | .ok view => view
  | .error _ => {}

/-- The member a verb commit on the head view stages. -/
def stagedMember (s : Store) (calls : List Call) : Option Member :=
  match prepareAndStage (headView s) [] (fun _ => ("", [])) 0 calls with
  | .ok (.staged m) => some m
  | _ => none

theorem materialize_headView {s : Store} (h : s.materialize.isOk) : s.materialize = .ok (headView s) := by
  unfold headView
  cases hview : s.materialize with
  | ok view => rfl
  | error e => rw [hview] at h; cases h

/-- A verb commit on the head view extends the run. -/
theorem run_stagedMember {s₀ s : Store} {ms : List Member} {calls : List Call} {m : Member}
    (run : Run s₀ ms s) (h₀ : s₀.Consistent) (hview : s.materialize.isOk)
    (hm : stagedMember s calls = some m) : Run s₀ (ms ++ [m]) (s.commit m) := by
  have hs := run.consistent h₀
  obtain ⟨-, snapshot, hsnap, hbase⟩ := Store.of_materialize (materialize_headView hview)
  have hsound : (headView s).Sound := hbase ▸ Store.viewAt_sound hs.keyed snapshot
  have hhead : (headView s).snapshot.snapshotId = s.head.snapshotId := by
    rw [hbase, Store.viewAt_snapshot]
    exact hs.snapshots _ _ hsnap
  unfold stagedMember at hm
  split at hm
  · next m' hstage =>
    cases hm
    exact run.step (prepareAndStage_lands hsound hhead hstage)
  · cases hm

def empty : Store := .bootstrap 0 "" false none

def column : ColumnDef := .mk "x" "BIGINT" true none []

/-- Tables 1 and 2 are created as `a` and `b`. -/
def creation : Member :=
  (stagedMember empty [.createTable 0 "a" [column] "", .createTable 0 "b" [column] ""]).get (by decide +kernel)

def created : Store := empty.commit creation

/-- Table 2 gives up its name and table 1 takes it. -/
def swap : Member := (stagedMember created handDown).get (by decide +kernel)

def renamed : Store := created.commit swap

theorem run_created : Run empty [creation] created :=
  run_stagedMember .refl (Store.bootstrap_consistent ..) (by decide +kernel) (Option.some_get _).symm

theorem materialize_created : created.materialize = .ok (headView created) :=
  materialize_headView (by decide +kernel)

theorem run_renamed : Run created [swap] renamed :=
  run_stagedMember .refl (run_created.consistent (Store.bootstrap_consistent ..)) (by decide +kernel)
    (Option.some_get _).symm

/-- `refresh_exact_iff` over the two renames. -/
theorem refresh_exact_iff_renamed :
    renamed.RefreshExact (headView created) ↔
      (renamed.Replays (headView created) → renamed.ReplayFits (headView created)) :=
  refresh_exact_iff run_created materialize_created run_renamed

/-- The gap's changelog names both tables. Folding table 2 after table 1 unlinks `b`, which a full
    materialization finds. -/
theorem refresh_loses_name_handed_down :
    ∃ ms₀ ms s₀ s base view full, Run (.bootstrap 0 "" false none) ms₀ s₀ ∧ s₀.materialize = .ok base ∧
      Run s₀ ms s ∧ s.refresh base = .ok (some view) ∧ s.materialize = .ok full ∧
      view.byName (.table 0 "b") = none ∧ full.byName (.table 0 "b") ≠ none ∧ ¬ s.RefreshExact base := by
  have hlost : ((renamed.refresh (headView created)).toOption.bind id).map
      (fun view => view.byName (.table 0 "b")) = some none := by decide +kernel
  have hfound : (headView renamed).byName (.table 0 "b") ≠ none := by decide +kernel
  have hfull : renamed.materialize = .ok (headView renamed) := materialize_headView (by decide +kernel)
  obtain ⟨view, hview, hname⟩ := Option.map_eq_some_iff.mp hlost
  have hrefresh : renamed.refresh (headView created) = .ok (some view) := by
    cases h : renamed.refresh (headView created) with
    | error e => rw [h] at hview; cases hview
    | ok result =>
      rw [h] at hview
      exact congrArg _ hview
  refine ⟨_, _, _, _, _, view, _, run_created, materialize_created, run_renamed, hrefresh, hfull, hname, hfound, ?_⟩
  intro hexact
  rw [Store.RefreshExact, hrefresh, hfull] at hexact
  obtain ⟨full, hok, hsame, -⟩ := hexact
  cases hok
  exact hfound (by rw [← hsame.byName, hname])

end HandDown

end Moraine
