-- SUMMARY: How a handle reads the head view, step by step, and what the view it finds shows.
import Moraine.Catalog.EntityDumps
import Moraine.Transaction.Batch

/-!
# Reading the head view

Both kinds of handle read the head view by the same steps. The view is taken from the cache if it stands at the
head, else the held one is refreshed, else one is derived from the held `current` half, else it is materialized,
each under a consistent cut of its own. Between two steps the cache may change, and so may the state that a read-only
handle sees. A commit's base read takes the same steps but for the derivation.

`HeadReads` says what of the cache these steps rely on, and `meets_headView` what they return then.
-/

namespace Moraine

open Std (ExtTreeMap ExtTreeSet TransOrd LawfulEqOrd)
open OrdMap CatalogSnapshot Following

/-! ## The cache's head view -/

namespace ProjectionCache

variable (c : ProjectionCache)

/-- The held view if it stands at exactly `expected`. -/
def headViewAt (expected : HeadValue) : Option CatalogSnapshot := c.headView.filter (·.viewHead = expected)

/-- Installs the view and moves the epoch. -/
def setHeadView (view : CatalogSnapshot) : ProjectionCache :=
  { c with headView := some view, epoch := c.epoch + 1 }

/-- Installs the view if the epoch is still the captured one. -/
def setHeadViewAt (epoch : Nat) (view : CatalogSnapshot) : ProjectionCache :=
  if c.epoch = epoch then { c with headView := some view } else c

def clearHeadView : ProjectionCache := { c with headView := none, epoch := c.epoch + 1 }

end ProjectionCache

variable {Row : Type} {α : Type}

abbrev ReadProg (Row α : Type) := Prog (StoreState Row) ProjectionCache Error α

/-! ## Reads of the catalog -/

namespace Catalog

/-- Runs the pass until it sees one store state. -/
def stableRead (pass : ReadProg Row α) : ReadProg Row α :=
  .consistent (·.catalog.head) movedEveryAttempt pass STABLE_READ_ATTEMPTS

def refuseMidMigration : ReadProg Row Unit := .getE (·.catalog.refuseMidMigration)

def readHeadValue : ReadProg Row HeadValue := .get (·.catalog.head)

/-- The snapshot a read point names, and its record. -/
def resolveBelow (readAt : Option Nat) (head : Nat) : ReadProg Row (Nat × SnapshotValue) :=
  match readAt.filter (head < ·) with
  | some requested => .ofExcept (.error (.notFound s!"snapshot {requested} (head is {head})"))
  | none =>
    let target := readAt.getD head
    .getE fun s => match s.catalog.snapshots[target]? with
      | some snapshot => .ok (target, snapshot)
      | none => .error (Store.belowHorizon target head)

/-- The head view built from `current` records. -/
def buildHead (snapshot : SnapshotValue) (current : List EntityRecord) (head : HeadValue) : CatalogSnapshot :=
  { CatalogSnapshot.build snapshot current [] none with batchSeq := head.batchSeq }

/-- One pass of a materialization, with the records it scanned. -/
def materializeCapturing : ReadProg Row (CatalogSnapshot × List EntityRecord) := do
  refuseMidMigration
  let head ← readHeadValue
  let (_, snapshot) ← resolveBelow none head.snapshotId
  let current ← .get (·.catalog.scanCurrentEntities)
  return (buildHead snapshot current head, current)

/-- One pass of a build from records scanned earlier. It declines if the store is not at `expected`. -/
def materializeFrom (expected : HeadValue) (current : List EntityRecord) : ReadProg Row (Option CatalogSnapshot) := do
  refuseMidMigration
  let head ← readHeadValue
  if head ≠ expected then return none
  else
    let (_, snapshot) ← resolveBelow none head.snapshotId
    return some (buildHead snapshot current head)

/-- Collects the changelog keys of a gap. -/
def gatherKeys (churnLimit : Nat) : List Nat → ExtTreeSet CurrentKey → ReadProg Row (Option (ExtTreeSet CurrentKey))
  | [], keys => return some keys
  | id :: ids, keys => do
    let changelog ← .get (·.catalog.changelog[id]?)
    match changelog with
    | none => return none
    | some changelog =>
      let keys := keys.insertMany changelog
      if keys.size > churnLimit then return none else gatherKeys churnLimit ids keys

/-- Reads the values the gap's keys have now and folds them. -/
def foldKeys (base : CatalogSnapshot) (head : HeadValue) (keys : ExtTreeSet CurrentKey) :
    ReadProg Row (Option CatalogSnapshot) := do
  let latest ← .get (·.catalog.snapshots[head.snapshotId]?)
  match latest with
  | none => return none
  | some latest =>
    let writes ← .each (fun k => .get fun s => StagedWrite.current k s.catalog.current[k]?) keys.toList
    let view ← .ofExcept (base.foldBatch writes)
    return some { view with snapshot := latest, batchSeq := head.batchSeq }

/-- One pass of a refresh. -/
def replay (base : CatalogSnapshot) : ReadProg Row (Option CatalogSnapshot) := do
  let head ← readHeadValue
  let start := base.snapshot.snapshotId
  if head.snapshotId ≤ start then return none
  else if head.batchSeq - base.batchSeq ≠ head.snapshotId - start then return none
  else
    let keys ← gatherKeys (base.liveEntityCount / REFRESH_CHURN_SHARE)
      (List.range' (start + 1) (head.snapshotId - start)) ∅
    match keys with
    | none => return none
    | some keys => foldKeys base head keys

/-- The held view, refreshed. -/
def refreshHeld : ReadProg Row (Option CatalogSnapshot) := do
  let held ← .look (·.headView)
  match held with
  | some behind => stableRead (replay behind)
  | none => return none

/-- A view derived from the held `current` half. -/
def deriveHeld (head : HeadValue) : ReadProg Row (Option CatalogSnapshot) := do
  let held ← .look (·.currentEntitiesAt head)
  match held with
  | some current => stableRead (materializeFrom head current)
  | none => return none

/-- A materialized view. Its records are held under the view's own stamp. -/
def scanView : ReadProg Row CatalogSnapshot := do
  let scanned ← stableRead materializeCapturing
  .update fun c => { c with currentEntities := some (scanned.1.viewHead, scanned.2) }
  return scanned.1

/-- The view of the head. -/
def headView : ReadProg Row CatalogSnapshot := do
  let head ← readHeadValue
  let cached ← .look (·.headViewAt head)
  match cached with
  | some view => return view
  | none =>
    let refreshed ← refreshHeld
    match refreshed with
    | some view => return view
    | none =>
      let derived ← deriveHeld head
      match derived with
      | some view => return view
      | none => scanView

/-- The base read of a commit, past its gate. Also tells whether the view is the held one, which is not installed
    again. -/
def baseView : ReadProg Row (CatalogSnapshot × Bool) := do
  let head ← readHeadValue
  let cached ← .look (·.headViewAt head)
  match cached with
  | some view => return (view, true)
  | none =>
    let refreshed ← refreshHeld
    match refreshed with
    | some view => return (view, false)
    | none => return ((← stableRead materializeCapturing).1, false)

/-- What a commit reads once it has captured the epoch. -/
def headViewFor : ReadProg Row (CatalogSnapshot × Bool) := refuseMidMigration >>= fun _ => baseView

/-- What a snapshot call reads once it has captured the epoch: its session, and the view. -/
def sessionView : ReadProg Row (CatalogSnapshot × Bool) := do
  refuseMidMigration
  return (← headView, false)

end Catalog

/-! ## One pass at one state -/

namespace Catalog

section Alone

variable (s : StoreState Row) (c : ProjectionCache)

theorem alone_stableRead (pass : ReadProg Row α) : (stableRead pass).alone s c = pass.alone s c :=
  Prog.alone_consistent s c _ _ pass _

theorem alone_resolveBelow :
    (resolveBelow none s.catalog.head.snapshotId : ReadProg Row _).alone s c =
      (c, s.catalog.resolveHead.map fun snapshot => (s.catalog.head.snapshotId, snapshot)) := by
  simp only [resolveBelow, Option.filter_none, Option.getD_none, Prog.alone_getE, Store.resolveHead]
  cases s.catalog.snapshots[s.catalog.head.snapshotId]? <;> rfl

theorem alone_materializeCapturing :
    materializeCapturing.alone s c =
      (c, s.catalog.materialize.map fun view => (view, s.catalog.scanCurrentEntities)) := by
  unfold materializeCapturing Store.materialize
  simp only [Prog.alone_bind, refuseMidMigration, readHeadValue, Prog.alone_getE, Prog.alone_get, alone_resolveBelow]
  cases s.catalog.refuseMidMigration with
  | error e => rfl
  | ok u => cases s.catalog.resolveHead <;> rfl

/-- A build from the records of the state, at its head, is its materialization. -/
theorem materialize_of_materializeFrom {expected : HeadValue} {current : List EntityRecord} {view : CatalogSnapshot}
    (hview : ((materializeFrom expected current).alone s c).2 = .ok (some view)) :
    s.catalog.head = expected ∧ (s.catalog.scanCurrentEntities = current → s.catalog.materialize = .ok view) := by
  unfold materializeFrom at hview
  simp only [Prog.alone_bind, refuseMidMigration, readHeadValue, Prog.alone_getE, Prog.alone_get] at hview
  cases hmigration : s.catalog.refuseMidMigration with
  | error e =>
    rw [hmigration] at hview
    cases hview
  | ok u =>
    simp only [hmigration] at hview
    split at hview
    · cases hview
    · next hhead =>
      refine ⟨not_not.mp hhead, ?_⟩
      rintro rfl
      simp only [Prog.alone_bind, alone_resolveBelow] at hview
      rw [Store.materialize, hmigration]
      cases hresolve : s.catalog.resolveHead with
      | error e =>
        rw [hresolve] at hview
        cases hview
      | ok snapshot =>
        rw [hresolve] at hview
        cases hview
        rfl

theorem alone_gatherKeys (limit : Nat) (ids : List Nat) (keys : ExtTreeSet CurrentKey) :
    (gatherKeys limit ids keys : ReadProg Row _).alone s c = (c, .ok (s.catalog.gatherKeys limit ids keys)) := by
  induction ids generalizing keys with
  | nil => rfl
  | cons id ids ih =>
    simp only [gatherKeys, Store.gatherKeys, Prog.alone_bind, Prog.alone_get]
    cases s.catalog.changelog[id]? with
    | none => rfl
    | some changelog =>
      simp only
      split
      · rfl
      · exact ih _

theorem alone_replay (base : CatalogSnapshot) :
    (replay base : ReadProg Row _).alone s c = (c, s.catalog.refresh base) := by
  unfold replay Store.refresh Store.replay
  simp only [Prog.alone_bind, readHeadValue, Prog.alone_get]
  split
  · rfl
  split
  · rfl
  simp only [Prog.alone_bind, alone_gatherKeys]
  cases s.catalog.gatherKeys _ _ ∅ with
  | none => rfl
  | some keys =>
    simp only [foldKeys, Prog.alone_bind, Prog.alone_get]
    cases s.catalog.snapshots[s.catalog.head.snapshotId]? with
    | none => rfl
    | some latest =>
      simp only [Prog.alone_bind, Prog.alone_each_get, Prog.alone_ofExcept, Store.replayWrites]
      cases base.foldBatch _ <;> rfl

end Alone

section ReadOnly

theorem readOnly_resolveBelow (readAt : Option Nat) (head : Nat) :
    (resolveBelow readAt head : ReadProg Row _).ReadOnly := by
  unfold resolveBelow
  split
  · exact Prog.readOnly_ofExcept _
  · exact Prog.readOnly_getE _

theorem readOnly_materializeCapturing : (materializeCapturing : ReadProg Row _).ReadOnly :=
  (Prog.readOnly_getE _).bind fun _ => (Prog.readOnly_get _).bind fun _ => (readOnly_resolveBelow _ _).bind fun _ =>
    (Prog.readOnly_get _).bind fun _ => Prog.readOnly_pure _

theorem readOnly_materializeFrom (expected : HeadValue) (current : List EntityRecord) :
    (materializeFrom expected current : ReadProg Row _).ReadOnly := by
  refine (Prog.readOnly_getE _).bind fun _ => (Prog.readOnly_get _).bind fun head => ?_
  split
  · exact Prog.readOnly_pure _
  · exact (readOnly_resolveBelow _ _).bind fun _ => Prog.readOnly_pure _

theorem readOnly_gatherKeys (limit : Nat) (ids : List Nat) (keys : ExtTreeSet CurrentKey) :
    (gatherKeys limit ids keys : ReadProg Row _).ReadOnly := by
  induction ids generalizing keys with
  | nil => exact Prog.readOnly_pure _
  | cons id ids ih =>
    refine (Prog.readOnly_get _).bind fun changelog => ?_
    cases changelog with
    | none => exact Prog.readOnly_pure _
    | some changelog =>
      simp only
      split
      · exact Prog.readOnly_pure _
      · exact ih _

theorem readOnly_replay (base : CatalogSnapshot) : (replay base : ReadProg Row _).ReadOnly := by
  refine (Prog.readOnly_get _).bind fun head => ?_
  simp only
  split
  · exact Prog.readOnly_pure _
  split
  · exact Prog.readOnly_pure _
  refine (readOnly_gatherKeys _ _ _).bind fun keys => ?_
  cases keys with
  | none => exact Prog.readOnly_pure _
  | some keys =>
    refine (Prog.readOnly_get _).bind fun latest => ?_
    cases latest with
    | none => exact Prog.readOnly_pure _
    | some latest =>
      exact (Prog.readOnly_each (fun _ => Prog.readOnly_get _) _).bind fun _ =>
        (Prog.readOnly_ofExcept _).bind fun _ => Prog.readOnly_pure _

end ReadOnly

end Catalog

/-! ## What a read leaves in the cache -/

/-- The update leaves the held view and the epoch. -/
def KeepsView (update : ProjectionCache → ProjectionCache) : Prop :=
  ∀ c, (update c).headView = c.headView ∧ (update c).epoch = c.epoch

namespace Catalog

theorem updates_refreshHeld : (refreshHeld : ReadProg Row _).Updates KeepsView := by
  refine .look_bind (fun _ => ⟨rfl, rfl⟩) fun c => ?_
  cases c.headView with
  | none => trivial
  | some behind => exact ((readOnly_replay behind).consistent _).updates

theorem updates_headView : (headView : ReadProg Row _).Updates KeepsView := by
  refine (Prog.readOnly_get _).updates.bind fun head => .look_bind (fun _ => ⟨rfl, rfl⟩) fun c => ?_
  cases c.headViewAt head with
  | some view => trivial
  | none =>
    refine updates_refreshHeld.bind fun refreshed => ?_
    cases refreshed with
    | some view => trivial
    | none =>
      refine Prog.Updates.bind (.look_bind (fun _ => ⟨rfl, rfl⟩) fun c => ?_) fun derived => ?_
      · cases c.currentEntitiesAt head with
        | none => trivial
        | some current => exact ((readOnly_materializeFrom _ current).consistent _).updates
      · cases derived with
        | some view => trivial
        | none =>
          exact (readOnly_materializeCapturing.consistent _).updates.bind fun _ =>
            ⟨fun _ => ⟨rfl, rfl⟩, fun _ => trivial⟩

theorem updates_baseView : (baseView : ReadProg Row _).Updates KeepsView := by
  refine (Prog.readOnly_get _).updates.bind fun head => .look_bind (fun _ => ⟨rfl, rfl⟩) fun c => ?_
  cases c.headViewAt head with
  | some view => trivial
  | none =>
    refine updates_refreshHeld.bind fun refreshed => ?_
    cases refreshed with
    | some view => trivial
    | none => exact (readOnly_materializeCapturing.consistent _).updates.bind fun _ => trivial

end Catalog

/-! ## Histories -/

/-- A consistent state and the states that batches of commits lead to, in order. -/
structure History (H : List Store) : Prop where
  start : ∀ s, H[0]? = some s → s.Consistent
  committed : Committed H

namespace History

variable {H : List Store} (h : History H) {s t : Store}
include h

theorem run_start {n : Nat} (hs : H[n]? = some s) : ∃ u ms, H[0]? = some u ∧ Run u ms s := by
  have hstart := List.getElem?_eq_getElem (Nat.zero_lt_of_lt (List.getElem?_eq_some_iff.mp hs).1)
  obtain ⟨ms, -, hrun⟩ := h.committed.run hstart hs (Nat.zero_le n)
  exact ⟨_, ms, hstart, hrun⟩

theorem consistent (hs : s ∈ H) : s.Consistent := by
  obtain ⟨n, hn⟩ := List.getElem?_of_mem hs
  obtain ⟨u, ms, hu, hrun⟩ := h.run_start hn
  exact hrun.consistent (h.start u hu)

/-- No commit starts or ends a migration. -/
theorem migration_eq (hs : s ∈ H) (ht : t ∈ H) : s.migration = t.migration := by
  obtain ⟨n, hn⟩ := List.getElem?_of_mem hs
  obtain ⟨m, hm⟩ := List.getElem?_of_mem ht
  obtain ⟨u, ms, hu, hrun⟩ := h.run_start hn
  obtain ⟨u', ms', hu', hrun'⟩ := h.run_start hm
  obtain rfl : u = u' := Option.some.inj (hu.symm.trans hu')
  rw [hrun.migration, hrun'.migration]

/-- A held view that has the stamp of a state stands at it. -/
theorem of_headViewAt {stands : Store → CatalogSnapshot → Prop} (hlists : ∀ t view, stands t view → t.Lists view)
    {c : ProjectionCache} (hheld : ∀ view, c.headView = some view → ∃ t ∈ H, stands t view) (hs : s ∈ H)
    {view : CatalogSnapshot} (hview : c.headViewAt s.head = some view) : stands s view := by
  obtain ⟨hview, hhead⟩ := Option.filter_eq_some_iff.mp hview
  obtain ⟨t, ht, hstands⟩ := hheld view hview
  obtain rfl : t = s := by
    refine h.committed.eq_of_mem_of_head ht hs ?_
    rw [← (hlists t view hstands).viewHead (h.consistent ht).snapshots]
    simpa using hhead
  exact hstands

/-- A view of one state that replays to another has its records outside the gap. -/
theorem frame (hs : s ∈ H) (ht : t ∈ H) {base : CatalogSnapshot} (hbase : t.Lists base) (hreplays : s.Replays base)
    {k : CurrentKey} (hk : k ∉ s.gapKeys base) : base.get k = s.current[k]?.filter (isLive none) := by
  obtain ⟨n, hn⟩ := List.getElem?_of_mem hs
  obtain ⟨m, hm⟩ := List.getElem?_of_mem ht
  have hid : base.snapshot.snapshotId = t.head.snapshotId := (h.consistent ht).snapshots _ _ hbase.snapshot
  rcases le_total m n with hle | hle
  · obtain ⟨ms, -, hrun⟩ := h.committed.run hm hn hle
    rw [hbase.get, Store.current_eq_of_replays hrun (h.consistent ht) hid hbase.batchSeq hreplays hk]
  · -- A view ahead of the state does not replay.
    obtain ⟨ms, -, hrun⟩ := h.committed.run hn hm hle
    exact absurd (hid ▸ hreplays.moved) (not_lt.mpr hrun.head_le)

end History

/-! ## What the head view shows -/

/-- What the caches a handle may find have to do with the states it reads: a view taken from a cache, and one
    materialized, stands at the state it was found at, the `current` half of a head is its scan, and the cache may
    hold a scan. -/
structure HeadReads (H : List (StoreState Row)) (inv : Nat → ProjectionCache → Prop)
    (stands : Store → CatalogSnapshot → Prop) : Prop where
  stamp : ∀ (m n : Nat) s t, H[m]? = some s → H[n]? = some t → s.catalog.head = t.catalog.head → m = n
  held : ∀ n c, inv n c → ∀ s ∈ H, ∀ view, c.headViewAt s.catalog.head = some view → stands s.catalog view
  refreshed : ∀ n c, inv n c → ∀ behind, c.headView = some behind → ∀ s ∈ H, ∀ view,
    s.catalog.refresh behind = .ok (some view) → stands s.catalog view
  half : ∀ n c, inv n c → ∀ s ∈ H, ∀ records, c.currentEntitiesAt s.catalog.head = some records →
    s.catalog.scanCurrentEntities = records
  scanned : ∀ s ∈ H, ∀ view, s.catalog.materialize = .ok view → stands s.catalog view ∧ ∀ n c, inv n c →
    inv n { c with currentEntities := some (view.viewHead, s.catalog.scanCurrentEntities) }

/-- The view is that of the state at the position. -/
def StandsAt (H : List (StoreState Row)) (stands : Store → CatalogSnapshot → Prop) (pos : Option Nat)
    (view : CatalogSnapshot) : Prop :=
  ∃ n s, pos = some n ∧ H[n]? = some s ∧ stands s.catalog view

namespace HeadReads

open Catalog

variable {H : List (StoreState Row)} {inv : Nat → ProjectionCache → Prop} {stands : Store → CatalogSnapshot → Prop}
  (h : HeadReads H inv stands) {pos : Option Nat}
include h

theorem meets_stableRead {pass : ReadProg Row α} (hpass : pass.ReadOnly) :
    Meets H inv false (fun pos a => ∃ n s, pos = some n ∧ H[n]? = some s ∧ (pass.alone s {}).2 = .ok a) pos
      (stableRead pass) :=
  (Meets.consistent_readOnly h.stamp hpass STABLE_READ_ATTEMPTS).mono
    fun _ _ ⟨n, s, hpos, hs, halone⟩ => ⟨n, s, hpos, hs, halone {}⟩

theorem meets_refreshHeld :
    Meets H inv false (fun pos found => ∀ view, found = some view → StandsAt H stands pos view) pos
      (refreshHeld : ReadProg Row _) := by
  refine Meets.look_bind fun i c _ hc => ?_
  cases hheld : c.headView with
  | none => exact fun view hview => (by cases hview)
  | some behind =>
    refine (h.meets_stableRead (readOnly_replay behind)).mono fun _ found ⟨n, s, hpos, hs, halone⟩ view hview => ?_
    rw [alone_replay, hview] at halone
    exact ⟨n, s, hpos, hs, h.refreshed i c hc behind hheld s (List.mem_of_getElem? hs) view halone⟩

/-- A build from the held half stands at the head the half was looked up at. -/
theorem meets_deriveHeld {m : Nat} {t : StoreState Row} (ht : H[m]? = some t) :
    Meets H inv false (fun pos found => ∀ view, found = some view → StandsAt H stands pos view) pos
      (deriveHeld t.catalog.head : ReadProg Row _) := by
  refine Meets.look_bind fun i c _ hc => ?_
  cases hheld : c.currentEntitiesAt t.catalog.head with
  | none => exact fun view hview => (by cases hview)
  | some current =>
    have hcurrent := h.half i c hc t (List.mem_of_getElem? ht) current hheld
    refine (h.meets_stableRead (readOnly_materializeFrom _ _)).mono
      fun _ found ⟨n, s, hpos, hs, halone⟩ view hview => ?_
    rw [hview] at halone
    obtain ⟨hhead, hmaterialize⟩ := materialize_of_materializeFrom s {} halone
    obtain rfl := h.stamp n m s t hs ht hhead
    obtain rfl : s = t := Option.some.inj (hs.symm.trans ht)
    exact ⟨n, s, hpos, hs, (h.scanned s (List.mem_of_getElem? hs) view (hmaterialize hcurrent)).1⟩

/-- A scan is of the records the view was built from. -/
theorem meets_scan :
    Meets H inv false (fun pos scanned => ∃ n s, pos = some n ∧ H[n]? = some s ∧
      s.catalog.materialize = .ok scanned.1 ∧ s.catalog.scanCurrentEntities = scanned.2) pos
      (stableRead materializeCapturing : ReadProg Row _) := by
  refine (h.meets_stableRead readOnly_materializeCapturing).mono fun _ scanned ⟨n, s, hpos, hs, halone⟩ => ?_
  rw [alone_materializeCapturing] at halone
  obtain ⟨view, hview, rfl⟩ := Results.map_eq_ok.mp halone
  exact ⟨n, s, hpos, hs, hview, rfl⟩

/-- Wherever the handle moves, the head view stands at the state it was last read at. -/
theorem meets_headView : Meets H inv false (StandsAt H stands) pos (headView : ReadProg Row _) := by
  refine Meets.get_bind fun n s hs _ => Meets.look_bind fun i c _ hc => ?_
  cases hcached : c.headViewAt s.catalog.head with
  | some view => exact ⟨n, s, rfl, hs, h.held i c hc s (List.mem_of_getElem? hs) view hcached⟩
  | none =>
    refine Meets.bind h.meets_refreshHeld fun pos refreshed hrefreshed => ?_
    cases refreshed with
    | some view => exact hrefreshed view rfl
    | none =>
      refine Meets.bind (h.meets_deriveHeld hs) fun pos derived hderived => ?_
      cases derived with
      | some view => exact hderived view rfl
      | none =>
        refine Meets.bind h.meets_scan fun pos ⟨view, records⟩ ⟨n, s, hpos, hs, hview, hrecords⟩ => ?_
        obtain ⟨hstands, hinstall⟩ := h.scanned s (List.mem_of_getElem? hs) view hview
        subst hrecords
        exact Meets.update_bind (fun i c _ => hinstall i c) ⟨n, s, hpos, hs, hstands⟩

theorem meets_baseView : Meets H inv false (fun pos found => StandsAt H stands pos found.1) pos
    (baseView : ReadProg Row _) := by
  refine Meets.get_bind fun n s hs _ => Meets.look_bind fun i c _ hc => ?_
  cases hcached : c.headViewAt s.catalog.head with
  | some view => exact ⟨n, s, rfl, hs, h.held i c hc s (List.mem_of_getElem? hs) view hcached⟩
  | none =>
    refine Meets.bind h.meets_refreshHeld fun pos refreshed hrefreshed => ?_
    cases refreshed with
    | some view => exact hrefreshed view rfl
    | none =>
      refine Meets.bind h.meets_scan fun pos scanned ⟨n, s, hpos, hs, hview, _⟩ => ?_
      exact ⟨n, s, hpos, hs, (h.scanned s (List.mem_of_getElem? hs) _ hview).1⟩

end HeadReads

end Moraine
