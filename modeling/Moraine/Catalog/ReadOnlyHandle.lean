-- SUMMARY: The head view, index queries and row reads of a read-only handle that follows the writer's commits.
import Moraine.Catalog.HeadReads
import Moraine.Catalog.IndexQuery

/-!
# A read-only handle

Every call of a read-only handle reads the store in several steps, and the handle moves on between them. The
head view is read under consistent cuts. An equality query then guards the view and its probes by one more cut.
Range queries, `IS NULL` queries and reads of the inlined rows do not.

`index_reads_one_state` says in which runs every such call answers as it does alone at one committed state.
-/

namespace Moraine

open Std (ExtTreeMap ExtTreeSet TransOrd LawfulEqOrd)
open OrdMap CatalogSnapshot Following

variable {Row : Type} {α : Type}

namespace Catalog

/-! ## Calls -/

/-- A snapshot call. It installs its view unless the epoch has moved. -/
def snapshot : ReadProg Row CatalogSnapshot := do
  let epoch ← .look (·.epoch)
  refuseMidMigration
  let view ← headView
  .update (·.setHeadViewAt epoch view)
  return view

/-- What an equality query reads once it has its view. A row id found twice is returned once. -/
def probe (table index : Nat) (keys : List (List IndexKeyValue)) (view : CatalogSnapshot) :
    ReadProg Row (List RowLocation) := do
  let info ← .ofExcept (view.readyIndex table index)
  let encoded ← .ofExcept (lookupKeys info index keys)
  let rowIds ← .each (fun key => .get fun s => s.entries.lookupRowIds index info.unique key) encoded
  return locate (view.dataFilesOf table) rowIds.flatten.reverse.dedup.reverse

def indexLookupMany (table index : Nat) (keys : List (List IndexKeyValue)) : ReadProg Row (List RowLocation) := do
  refuseMidMigration
  stableRead (headView >>= probe table index keys)

def indexLookup (table index : Nat) (values : List IndexKeyValue) : ReadProg Row (List RowLocation) :=
  indexLookupMany table index [values]

/-- What a range query reads once it has its view. -/
def scanRange (table index : Nat) (lower upper : Bound (List IndexKeyValue)) (reverse : Bool)
    (view : CatalogSnapshot) : ReadProg Row (List RowLocation) := do
  let info ← .ofExcept (view.readyIndex table index)
  let bounds ← .ofExcept (encodeRangeBounds info index lower upper)
  -- Only the leading column's flag byte bounds the open sides.
  let leadingNulls := info.nulls.head?.getD .last
  let rowIds ← .get fun s => s.entries.rangeRowIds index info.unique leadingNulls bounds.1 bounds.2 reverse
  return locate (view.dataFilesOf table) rowIds

def indexRange (table index : Nat) (lower upper : Bound (List IndexKeyValue)) (reverse : Bool) :
    ReadProg Row (List RowLocation) := do
  refuseMidMigration
  headView >>= scanRange table index lower upper reverse

/-- What an `IS NULL` query reads once it has its view. -/
def scanNulls (table index : Nat) (predicates : List (Option IndexKeyValue)) (reverse : Bool)
    (view : CatalogSnapshot) : ReadProg Row (List RowLocation) := do
  let info ← .ofExcept (view.readyIndex table index)
  let key ← .ofExcept (nullPrefixKey info index predicates)
  let rowIds ← .get fun s => s.entries.nullPrefixRowIds index key reverse
  return locate (view.dataFilesOf table) rowIds

def indexNulls (table index : Nat) (predicates : List (Option IndexKeyValue)) (reverse : Bool) :
    ReadProg Row (List RowLocation) := do
  refuseMidMigration
  headView >>= scanNulls table index predicates reverse

/-- A row that is read: its place in the chunk, the chunk's rows and their schema. -/
structure StoredRow (Row : Type) where
  rowId : Nat
  beginSnapshot : Nat
  schemaVersion : Nat
  offsetInChunk : Nat
  chunkBody : List Row
  arrowSchema : List UInt8
  deriving DecidableEq

/-- The schema of a version: the one read before, or the stored one. -/
def schemaOf (table schemaVersion : Nat) (schemas : ExtTreeMap Nat (List UInt8)) : ReadProg Row (List UInt8) :=
  match schemas[schemaVersion]? with
  | some schema => return schema
  | none => .getE fun s => match (s.inline.table table).schemas[schemaVersion]? with
    | some schema => .ok schema
    | none => .error (.corruption s!"no inline schema for table {table} version {schemaVersion}")

/-- Gives each row its chunk and schema. The schema of a version is read once. -/
def attachSchemas (table : Nat) (chunks : List (InsertKey × InlineChunkValue Row)) :
    List InlineRow → ExtTreeMap Nat (List UInt8) → ReadProg Row (List (StoredRow Row))
  | [], _ => return []
  | row :: rows, schemas =>
    match chunks[row.chunk]? with
    | none => .ofExcept (.error (.corruption
        s!"inline row {row.rowId} of table {table} references a non-insert chunk"))
    | some (key, chunk) => do
      let arrowSchema ← schemaOf table key.1 schemas
      let rest ← attachSchemas table chunks rows (schemas.insert key.1 arrowSchema)
      return ⟨row.rowId, row.beginSnapshot, key.1, row.offsetInChunk, chunk.body, arrowSchema⟩ :: rest

/-- The snapshot the inlined rows are read at. The head needs no record. -/
def readPoint (readAt : Option Nat) : ReadProg Row Nat := do
  let head ← readHeadValue
  match readAt with
  | some _ => return (← resolveBelow readAt head.snapshotId).1
  | none => return head.snapshotId

def scanRecentRows (table : Nat) (readAt : Option Nat) : ReadProg Row (List (StoredRow Row)) := do
  refuseMidMigration
  let snapshot ← readPoint readAt
  let chunks ← .get fun s => (s.inline.table table).rows.chunks.toList
  let tombstones ← .get fun s => (s.inline.table table).rows.tombstones.toList
  attachSchemas table chunks (InlineScanKind.table.select (materializeInlineRows chunks tombstones) snapshot 0) ∅

/-- The inlined rows of a table at the head, or at a snapshot. -/
def recentRows (table : Nat) (readAt : Option Nat) : ReadProg Row (List (StoredRow Row)) := do
  refuseMidMigration
  scanRecentRows table readAt

end Catalog

/-! ## Runs -/

inductive ReadCall where
  | snapshot
  | indexLookup (table index : Nat) (values : List IndexKeyValue)
  | indexLookupMany (table index : Nat) (keys : List (List IndexKeyValue))
  | indexRange (table index : Nat) (lower upper : Bound (List IndexKeyValue)) (reverse : Bool)
  | indexNulls (table index : Nat) (predicates : List (Option IndexKeyValue)) (reverse : Bool)
  | recentRows (table : Nat) (readAt : Option Nat)
  deriving DecidableEq

inductive ReadAnswer (Row : Type) where
  | view (view : CatalogSnapshot)
  | locations (locations : List RowLocation)
  | rows (rows : List (Catalog.StoredRow Row))

namespace ReadCall

def prog : ReadCall → ReadProg Row (ReadAnswer Row)
  | .snapshot => return .view (← Catalog.snapshot)
  | .indexLookup table index values => return .locations (← Catalog.indexLookup table index values)
  | .indexLookupMany table index keys => return .locations (← Catalog.indexLookupMany table index keys)
  | .indexRange table index lower upper reverse =>
    return .locations (← Catalog.indexRange table index lower upper reverse)
  | .indexNulls table index predicates reverse =>
    return .locations (← Catalog.indexNulls table index predicates reverse)
  | .recentRows table readAt => return .rows (← Catalog.recentRows table readAt)

/-- The calls whose reads no cut guards as a whole. -/
def unguarded : ReadCall → Bool
  | .indexRange .. | .indexNulls .. | .recentRows .. => true
  | _ => false

end ReadCall

/-- A read-only handle with its calls in flight. -/
abbrev CatalogReader (Row : Type) := Reader (StoreState Row) ProjectionCache Error ReadCall (ReadAnswer Row)

/-- Every index query and row read answered as it does alone at one of the states, with nothing held. -/
def ReadsOneState (H : List (StoreState Row)) (r : CatalogReader Row) : Prop :=
  ∀ q a, (q, .ok a) ∈ r.answers → q ≠ .snapshot → ∃ s ∈ H, (q.prog.alone s {}).2 = .ok a

/-! ## One pass at one state -/

namespace Catalog

theorem readOnly_attachSchemas (table : Nat) (chunks : List (InsertKey × InlineChunkValue Row))
    (rows : List InlineRow) (schemas : ExtTreeMap Nat (List UInt8)) :
    (attachSchemas table chunks rows schemas).ReadOnly := by
  induction rows generalizing schemas with
  | nil => exact Prog.readOnly_pure _
  | cons row rows ih =>
    unfold attachSchemas
    split
    · exact Prog.readOnly_ofExcept _
    · next key chunk _ =>
      refine Prog.ReadOnly.bind ?_ fun _ => (ih _).bind fun _ => Prog.readOnly_pure _
      unfold schemaOf
      split
      · exact Prog.readOnly_pure _
      · exact Prog.readOnly_getE _

theorem readOnly_scanRecentRows (table : Nat) (readAt : Option Nat) :
    (scanRecentRows table readAt : ReadProg Row _).ReadOnly := by
  refine (Prog.readOnly_getE _).bind fun _ => .bind ?_ fun _ => (Prog.readOnly_get _).bind fun _ =>
    (Prog.readOnly_get _).bind fun _ => readOnly_attachSchemas _ _ _ _
  refine (Prog.readOnly_get _).bind fun head => ?_
  cases readAt with
  | some requested => exact (readOnly_resolveBelow _ _).bind fun _ => Prog.readOnly_pure _
  | none => exact Prog.readOnly_pure _

end Catalog

/-! ## The head view -/

/-- The committed states a handle follows. Where a view of one of them replays to another, the records stored under
    the keys of the gap carry no end. -/
structure Followed (H : List (StoreState Row)) : Prop where
  history : History (H.map (·.catalog))
  live : ∀ s ∈ H, ∀ t ∈ H, ∀ base, t.catalog.Lists base → s.catalog.Replays base →
    ∀ k ∈ s.catalog.gapKeys base, ∀ r, s.catalog.current[k]? = some r → isLive none r

/-- The held view and the held `current` half are those of committed states. -/
structure CacheFollows (H : List (StoreState Row)) (c : ProjectionCache) : Prop where
  view : ∀ view, c.headView = some view → ∃ s ∈ H, s.catalog.Lists view
  halves : HalvesExact (H.map (·.catalog)) c

section Follows

variable {H : List (StoreState Row)} (h : Followed H)
include h

theorem Followed.consistent {s : StoreState Row} (hs : s ∈ H) : s.catalog.Consistent :=
  h.history.consistent (List.mem_map_of_mem hs)

/-- A handle that follows the commits finds the head view of the state it sees. -/
theorem Followed.reads : HeadReads H (fun _ => CacheFollows H) Store.Lists where
  stamp m n s t hs ht heq :=
    h.history.committed.eq_of_head m n s.catalog t.catalog (by simp [hs]) (by simp [ht]) heq
  held _ c hc s hs view hview := by
    refine h.history.of_headViewAt (fun _ _ hlists => hlists) (fun view hview => ?_) (List.mem_map_of_mem hs) hview
    obtain ⟨t, ht, hlists⟩ := hc.view view hview
    exact ⟨_, List.mem_map_of_mem ht, hlists⟩
  refreshed _ c hc behind hheld s hs view hview := by
    obtain ⟨t, ht, hbase⟩ := hc.view behind hheld
    have hreplays : s.catalog.Replays behind := by
      by_contra hdeclines
      rw [Store.refresh_of_not_replays hdeclines] at hview
      cases hview
    exact Store.lists_of_refresh (h.consistent hs).keyed (h.live s hs t ht behind hbase hreplays)
      (fun k => h.history.frame (List.mem_map_of_mem hs) (List.mem_map_of_mem ht) hbase hreplays) hview
  half _ c hc s hs records hheld :=
    hc.halves.currentEntitiesAt h.history.committed (List.mem_map_of_mem hs) hheld
  scanned s hs view hview := by
    have hlists := (Store.shows_of_materialize (h.consistent hs).keyed hview).toLists
    refine ⟨hlists, fun _ c hc => ⟨hc.view, fun head records hheld => ?_, hc.halves.history⟩⟩
    cases hheld
    exact ⟨s.catalog, List.mem_map_of_mem hs, (hlists.viewHead (h.consistent hs).snapshots).symm, rfl⟩

end Follows

namespace Catalog

variable {H : List (StoreState Row)} (h : Followed H) {pos : Option Nat}
include h

/-! ## Queries on the head view -/

/-- A query on the head view: it only reads, and takes from the view what its records say. -/
structure QueriesView (query : CatalogSnapshot → ReadProg Row α) : Prop where
  readOnly : ∀ view, (query view).ReadOnly
  congr : ∀ v w : CatalogSnapshot, (∀ k, v.get k = w.get k) → query v = query w

omit h in
theorem queriesView_probe (table index : Nat) (keys : List (List IndexKeyValue)) :
    QueriesView (probe table index keys : _ → ReadProg Row _) where
  readOnly _ := (Prog.readOnly_ofExcept _).bind fun _ => (Prog.readOnly_ofExcept _).bind fun _ =>
    (Prog.readOnly_each (fun _ => Prog.readOnly_get _) _).bind fun _ => Prog.readOnly_pure _
  congr v w hget := by rw [probe, probe, readyIndex_congr hget, dataFilesOf_congr hget]

omit h in
theorem queriesView_scanRange (table index : Nat) (lower upper : Bound (List IndexKeyValue)) (reverse : Bool) :
    QueriesView (scanRange table index lower upper reverse : _ → ReadProg Row _) where
  readOnly _ := (Prog.readOnly_ofExcept _).bind fun _ => (Prog.readOnly_ofExcept _).bind fun _ =>
    (Prog.readOnly_get _).bind fun _ => Prog.readOnly_pure _
  congr v w hget := by rw [scanRange, scanRange, readyIndex_congr hget, dataFilesOf_congr hget]

omit h in
theorem queriesView_scanNulls (table index : Nat) (predicates : List (Option IndexKeyValue)) (reverse : Bool) :
    QueriesView (scanNulls table index predicates reverse : _ → ReadProg Row _) where
  readOnly _ := (Prog.readOnly_ofExcept _).bind fun _ => (Prog.readOnly_ofExcept _).bind fun _ =>
    (Prog.readOnly_get _).bind fun _ => Prog.readOnly_pure _
  congr v w hget := by rw [scanNulls, scanNulls, readyIndex_congr hget, dataFilesOf_congr hget]

omit h in
/-- With nothing held, the head view is materialized. -/
theorem alone_headView {s : StoreState Row} {view : CatalogSnapshot} (hview : s.catalog.materialize = .ok view) :
    ∃ c, headView.alone s {} = (c, .ok view) := by
  have hscan : scanView.alone s {} =
      ({ currentEntities := some (view.viewHead, s.catalog.scanCurrentEntities) }, .ok view) := by
    simp only [scanView, Prog.alone_bind, alone_stableRead, alone_materializeCapturing, hview, Except.map,
      Prog.alone_update, Prog.alone_pure]
  refine ⟨_, Eq.trans ?_ hscan⟩
  simp only [headView, readHeadValue, refreshHeld, deriveHeld, ProjectionCache.headViewAt,
    ProjectionCache.currentEntitiesAt, Option.filter_none, Option.map_none, Prog.alone_bind, Prog.alone_get,
    Prog.alone_look, Prog.alone_pure]

variable {query : CatalogSnapshot → ReadProg Row α} (hquery : QueriesView query) {n : Nat} {s : StoreState Row}
  (hs : H[n]? = some s)
include hquery hs

/-- A query that stays at one state answers as it does alone. -/
theorem meets_query (hmigration : s.catalog.migration = none) :
    Meets H (fun _ => CacheFollows H) true (fun _ a => ((headView >>= query).alone s {}).2 = .ok a) (some n)
      (headView >>= query) := by
  refine Meets.bind (h.reads.meets_headView.of_moving true).stays fun pos view ⟨hpos, n', s', hpos', hs', hlists⟩ => ?_
  obtain rfl : n' = n := Option.some.inj (hpos'.symm.trans hpos)
  obtain rfl : s' = s := Option.some.inj (hs'.symm.trans hs)
  subst hpos
  refine (Meets.alone_of_readOnly (hquery.readOnly view) hs).mono fun _ a halone => ?_
  have hfull := Store.materialize_eq hmigration hlists.snapshot
  obtain ⟨c, hc⟩ := alone_headView hfull
  rw [Prog.alone_bind, hc]
  simp only
  rw [hquery.congr _ view fun k => ?_]
  · exact halone c
  · rw [hlists.get, Store.viewAt_get (h.consistent (List.mem_of_getElem? hs)).keyed]

/-- A guarded query answers as it does alone at one state, wherever the handle moves. -/
theorem meets_stableRead_query (hmigration : s.catalog.migration = none) :
    Meets H (fun _ => CacheFollows H) false (fun _ a => ∃ s ∈ H, s.catalog.migration = none ∧
      ((headView >>= query).alone s {}).2 = .ok a) (some n) (stableRead (headView >>= query)) := by
  refine (Meets.consistent (q := fun _ s a => s.catalog.migration = none ∧ ((headView >>= query).alone s {}).2 = .ok a)
    h.reads.stamp (fun _ => ?_) (fun n' s' hs' => ?_) _).mono
    fun _ a ⟨_, s', _, hs', halone⟩ => ⟨s', List.mem_of_getElem? hs', halone⟩
  · exact Meets.bind h.reads.meets_headView fun _ _ _ => Meets.of_readOnly (hquery.readOnly _)
  · have hmigration' := (h.history.migration_eq (List.mem_map_of_mem (List.mem_of_getElem? hs'))
      (List.mem_map_of_mem (List.mem_of_getElem? hs))).trans hmigration
    exact (meets_query h hquery hs' hmigration').mono fun _ _ halone => ⟨hmigration', halone⟩

end Catalog

/-! ## Every call -/

/-- The call answers as it does alone at one of the states. -/
def AnswersAlone (H : List (StoreState Row)) (still : Bool) (p : ReadProg Row (ReadAnswer Row)) : Prop :=
  Meets H (fun _ => CacheFollows H) still (fun _ a => ∃ s ∈ H, (p.alone s {}).2 = .ok a) none p

section Calls

variable {H : List (StoreState Row)} (h : Followed H)
include h

omit h in
/-- A call opens its session and wraps what it found. It answers as it does alone if what it runs does. -/
theorem meets_session {still : Bool} {p : ReadProg Row α} (f : α → ReadAnswer Row)
    (hp : ∀ n s, H[n]? = some s → s.catalog.migration = none →
      Meets H (fun _ => CacheFollows H) still
        (fun _ a => ∃ s ∈ H, s.catalog.migration = none ∧ (p.alone s {}).2 = .ok a) (some n) p) :
    AnswersAlone H still ((Catalog.refuseMidMigration >>= fun _ => p) >>= fun x => pure (f x)) := by
  refine Meets.bind (Meets.getE_bind fun n s _ hs _ hrefuse => hp n s hs (Store.migration_of_refuse hrefuse))
    fun _ a ⟨s, hs, hmigration, halone⟩ => ⟨s, hs, ?_⟩
  have hopened : ((Catalog.refuseMidMigration : ReadProg Row _).alone s {}).2 = .ok () := by
    simp [Catalog.refuseMidMigration, Store.refuseMidMigration, hmigration]
  have hsession : ((Catalog.refuseMidMigration >>= fun _ => p).alone s {}).2 = .ok a := by
    rw [Prog.alone_bind_of_ok _ _ hopened]
    exact halone
  rw [Prog.alone_bind_of_ok _ _ hsession]
  rfl

theorem meets_lookupMany (table index : Nat) (keys : List (List IndexKeyValue)) :
    AnswersAlone H false (ReadCall.indexLookupMany table index keys).prog := by
  refine meets_session .locations fun n s hs hmigration => ?_
  refine (Catalog.meets_stableRead_query h (Catalog.queriesView_probe table index keys) hs hmigration).mono
    fun _ a ⟨s, hs, hmigration, halone⟩ => ⟨s, hs, hmigration, ?_⟩
  rw [Catalog.alone_stableRead]
  exact halone

omit h in
/-- A snapshot call holds the view it returns. -/
theorem CacheFollows.setHeadViewAt {c : ProjectionCache} (hc : CacheFollows H c) {pos : Option Nat}
    {view : CatalogSnapshot} (hview : StandsAt H Store.Lists pos view) (epoch : Nat) :
    CacheFollows H (c.setHeadViewAt epoch view) := by
  unfold ProjectionCache.setHeadViewAt
  split
  · obtain ⟨n, s, -, hs, hlists⟩ := hview
    refine ⟨fun view' hview' => ?_, hc.halves.current, hc.halves.history⟩
    cases hview'
    exact ⟨s, List.mem_of_getElem? hs, hlists⟩
  · exact hc

theorem meets_snapshot :
    Meets H (fun _ => CacheFollows H) false (fun _ _ => True) none (Catalog.snapshot : ReadProg Row _) := by
  refine Meets.look_bind fun _ c _ _ => Meets.getE_bind fun _ _ _ _ _ _ => ?_
  refine Meets.bind (h.reads.meets_headView) fun _ view hview => Meets.update_bind ?_ trivial
  exact fun _ _ _ hc => hc.setHeadViewAt hview _

/-- An unguarded query stays at the state its session opened at. -/
theorem meets_unguarded {query : CatalogSnapshot → ReadProg Row (List RowLocation)}
    (hquery : Catalog.QueriesView query) :
    AnswersAlone H true ((Catalog.refuseMidMigration >>= fun _ => Catalog.headView >>= query) >>=
      fun x => pure (.locations x)) := by
  refine meets_session .locations fun n s hs hmigration => ?_
  exact (Catalog.meets_query h hquery hs hmigration).mono fun _ _ halone =>
    ⟨s, List.mem_of_getElem? hs, hmigration, halone⟩

theorem meets_call (q : ReadCall) :
    Meets H (fun _ => CacheFollows H) q.unguarded
      (fun _ a => q ≠ .snapshot → ∃ s ∈ H, (q.prog.alone s {}).2 = .ok a) none (q.prog : ReadProg Row _) := by
  cases q with
  | snapshot => exact (meets_snapshot h).bind fun _ _ _ hne => absurd rfl hne
  | indexLookup table index values => exact (meets_lookupMany h table index [values]).mono fun _ _ ha _ => ha
  | indexLookupMany table index keys => exact (meets_lookupMany h table index keys).mono fun _ _ ha _ => ha
  | indexRange table index lower upper reverse =>
    exact (meets_unguarded h (Catalog.queriesView_scanRange table index lower upper reverse)).mono fun _ _ ha _ => ha
  | indexNulls table index predicates reverse =>
    exact (meets_unguarded h (Catalog.queriesView_scanNulls table index predicates reverse)).mono fun _ _ ha _ => ha
  | recentRows table readAt =>
    refine (meets_session .rows fun n s hs hmigration => ?_).mono fun _ _ ha _ => ha
    exact (Meets.alone_of_readOnly (Catalog.readOnly_scanRecentRows table readAt) hs).mono
      fun _ _ halone => ⟨s, List.mem_of_getElem? hs, hmigration, halone {}⟩

end Calls

/-- In a run in which the handle stays at one state during each range query, `IS NULL` query and row read, every
    index query and row read answers as it does alone at one committed state. -/
theorem index_reads_one_state (H : List (StoreState Row)) (h : Followed H) (events : List (Event ReadCall))
    (hstill : Runs.Throughout (Reader.step H ReadCall.prog) (Reader.KeepsStill ReadCall.unguarded) { held := {} }
      events) :
    Runs.Always (Reader.step H ReadCall.prog) (ReadsOneState H) { held := {} } events := by
  refine Runs.Always.mono (fun hsound q a ha => hsound.answers q a ha)
    (Reader.always_sound (fun _ _ _ _ hc => hc) (meets_call h) ?_ hstill)
  exact ⟨fun _ hview => (by cases hview), fun _ _ hheld => (by cases hheld), fun _ _ hheld => (by cases hheld)⟩

/-! ## A file registered between a query's view and its scan -/

namespace MovedQuery

/-- A ready unique index on one column. -/
def index : EntityRecord :=
  .index { (default : IndexValue) with
    indexId := 5, tableId := 1, beginSnapshot := 1, columnIds := [0], unique := true }

def file : EntityRecord :=
  .file { (default : DataFileValue) with
    dataFileId := 9, tableId := 1, beginSnapshot := 2, recordCount := 1, rowIdStart := some 0 }

def mint (id : Nat) : SnapshotValue := { (default : SnapshotValue) with snapshotId := id }

def before : StoreState Nat where
  catalog :=
    { head := ⟨1, 1⟩
      snapshots := (∅ : ExtTreeMap Nat SnapshotValue).insert 1 (mint 1)
      current := (∅ : ExtTreeMap CurrentKey EntityRecord).insert (.entity (.index 1 5)) index }

/-- The commit that registers the file. -/
def register : Member := { writes := [.current (.entity (.file 1 9)) (some file)], minted := some (mint 2) }

/-- The index value of the file's one row. -/
def key : CanonicalKey := [0, 7]

def after : StoreState Nat where
  catalog := before.catalog.commit register
  entries := { unique := (∅ : ExtTreeMap (Nat × CanonicalKey) Nat).insert (5, key) 0 }

def history : List (StoreState Nat) := [before, after]

theorem followed_history : Followed history where
  history.committed := by
    refine List.isChain_pair.mpr ⟨[register], by simp, .step .refl ⟨?_, by decide +kernel, by decide +kernel⟩⟩
    intro k r hr
    cases List.mem_singleton.mp hr
    rfl
  history.start s hs := by
    cases hs
    have hkeyed : ∀ x ∈ before.catalog.current.toList, x.2.key = x.1 := by decide +kernel
    have hsnapshots : ∀ x ∈ before.catalog.snapshots.toList, x.2.snapshotId = x.1 := by decide +kernel
    exact
      { keyed := fun k r hr => hkeyed (k, r) (ExtTreeMap.mem_toList_iff_getElem?_eq_some.mpr hr)
        snapshots := fun id v hv => hsnapshots (id, v) (ExtTreeMap.mem_toList_iff_getElem?_eq_some.mpr hv)
        recorded := fun id _ => ExtTreeMap.getElem?_empty }
  live s hs _ _ _ _ _ k _ r hr := by
    have hlive : ∀ s ∈ history, ∀ x ∈ s.catalog.current.toList, isLive none x.2 := by decide +kernel
    exact hlive s hs (k, r) (ExtTreeMap.mem_toList_iff_getElem?_eq_some.mpr hr)

/-- The range query over the whole index. -/
def query : ReadCall := .indexRange 1 5 .unbounded .unbounded false

/-- The oldest call in flight takes `k` steps. -/
def steps (k : Nat) : List (Event ReadCall) := List.replicate k (.step 0)

/-- The query takes its view; the handle sees the new file before the query scans the entries. -/
def events : List (Event ReadCall) := List.flatten [[.start query], steps 12, [.poll 1], steps 2]

/-- The handle sees the new file between two queries. -/
def prompt : List (Event ReadCall) :=
  List.flatten [[.start query], steps 14, [.poll 1, .start query], steps 14]

/-- The locations an answer gives. -/
def found : Except Error (ReadAnswer Nat) → Option (List RowLocation)
  | .ok (.locations locations) => some locations
  | _ => none

/-- `index_reads_one_state` at two queries around the new file. -/
theorem index_reads_one_state_prompt :
    Runs.Always (Reader.step history ReadCall.prog) (ReadsOneState history) { held := {} } prompt :=
  index_reads_one_state history followed_history prompt (Reader.throughout_keepsStill _ (by decide +kernel))

/-- The query finds the new row and locates it by the files of the older view: inline, where neither state has
    an inlined row. -/
theorem range_locates_row_by_older_view :
    ¬ Runs.Always (Reader.step history ReadCall.prog) (ReadsOneState history) { held := {} } events := by
  intro h
  have hfacts : (Runs.run (Reader.step history ReadCall.prog) { held := {} } events).map
      (fun r => r.answers.map fun a => (a.1, found a.2)) = some [(query, some [⟨0, .inline⟩])] := by
    decide +kernel
  have hnone : ∀ s ∈ history, found (query.prog.alone s {}).2 ≠ some [⟨0, .inline⟩] := by decide +kernel
  obtain ⟨r, hrun, hanswers⟩ := Option.map_eq_some_iff.mp hfacts
  obtain ⟨⟨q, result⟩, hmem, heq⟩ := List.map_eq_singleton_iff.mp hanswers
  obtain ⟨rfl, hfound⟩ := Prod.mk.inj heq
  cases result with
  | error e => cases hfound
  | ok a =>
    obtain ⟨s, hs, halone⟩ := h.run hrun query a (by rw [hmem]; exact List.mem_singleton_self _) (by decide)
    exact hnone s hs (by rw [halone]; exact hfound)

end MovedQuery

end Moraine
