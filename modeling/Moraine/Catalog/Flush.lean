-- SUMMARY: Draining the inlined rows of one schema version, and what it leaves of the others.
import Moraine.Catalog.Inline

/-!
# Draining one schema version

A flush moves the inlined rows of one schema version into data files. The store's side of it removes the
version's chunks and the tombstones of their rows. A tombstone is one record per row id, whichever schema
version the row was inlined under, and it ends every version begun before it.

`flush_leaves_others_iff` says which tables a flush leaves as it should: each tombstone ends versions of
drained chunks only, or none of them and names a row that stays.
-/

namespace Moraine

open Std (ExtTreeMap ExtTreeSet TransOrd LawfulEqOrd)
open OrdMap

variable {Row : Type*}

/-- Whether a flush of `schemaVersion` at `flushSnapshot` drains the chunk under the key. -/
def InsertKey.drained (schemaVersion flushSnapshot : Nat) (key : InsertKey) : Bool :=
  key.1 = schemaVersion && key.beginSnapshot ≤ flushSnapshot

namespace InlineTable

/-- The chunks of one schema version. -/
def chunksOf (t : InlineTable Row) (schemaVersion : Nat) : List (InsertKey × InlineChunkValue Row) :=
  t.chunks.toList.filter fun x => x.1.1 = schemaVersion

/-- The rows a flush of the schema version drains, tombstoned ones included. -/
def flushedRows (t : InlineTable Row) (schemaVersion flushSnapshot : Nat) : List InlineRow :=
  InlineScanKind.forFlush.select (materializeInlineRows (t.chunksOf schemaVersion) t.tombstones.toList)
    flushSnapshot 0

/-- The removal of a schema version's chunks begun by `flushSnapshot` and of the tombstones of their rows,
    and the row ids drained. -/
def translateInlineFlushDelete (t : InlineTable Row) (schemaVersion flushSnapshot : Nat) :
    List (InlineWrite Row) × ExtTreeSet Nat :=
  let removed := (t.chunksOf schemaVersion).filter fun x => x.1.beginSnapshot ≤ flushSnapshot
  let rows := t.flushedRows schemaVersion flushSnapshot
  (removed.map (fun x => .chunk x.1 none) ++
      (rows.filter (·.endSnapshot.isSome)).map (fun row => .tombstone row.rowId none),
    .ofList (rows.map (·.rowId)))

/-- The table after the removal. -/
def flush (t : InlineTable Row) (schemaVersion flushSnapshot : Nat) : InlineTable Row :=
  t.applyAll (t.translateInlineFlushDelete schemaVersion flushSnapshot).1

/-- The chunks a flush has no business with, under the tombstones as they were. -/
def staying (t : InlineTable Row) (schemaVersion flushSnapshot : Nat) : InlineTable Row :=
  { t with chunks := t.chunks.filter fun key _ => !key.drained schemaVersion flushSnapshot }

/-- A chunk whose key satisfies `p` holds the row id. -/
def Holds (t : InlineTable Row) (p : InsertKey → Prop) (rowId : Nat) : Prop :=
  ∃ (key : InsertKey) (chunk : InlineChunkValue Row), t.chunks[key]? = some chunk ∧ p key ∧ (chunk.rowAt rowId).isSome

end InlineTable

/-! ## What a flush removes -/

/-- A write that deletes. -/
def InlineWrite.IsDelete : InlineWrite Row → Prop
  | .chunk _ value => value = none
  | .tombstone _ endSnapshot => endSnapshot = none

theorem InlineChunkValue.rowAt_isSome (chunk : InlineChunkValue Row) (rowId : Nat) :
    (chunk.rowAt rowId).isSome ↔ ∃ offset < chunk.body.length, rowId = chunk.rowIdStart + offset := by
  unfold rowAt
  split
  · next hle =>
    rw [Option.isSome_iff_exists]
    constructor
    · rintro ⟨row, hrow⟩
      obtain ⟨hlt, -⟩ := List.getElem?_eq_some_iff.mp hrow
      exact ⟨rowId - chunk.rowIdStart, hlt, by omega⟩
    · rintro ⟨offset, hlt, rfl⟩
      refine ⟨chunk.body[offset], ?_⟩
      rw [Nat.add_sub_cancel_left, List.getElem?_eq_getElem hlt]
  · next hlt =>
    constructor
    · intro h
      cases h
    · rintro ⟨offset, -, rfl⟩
      exact absurd (Nat.le_add_right _ _) hlt

namespace InlineTable

section Deletes

variable {t : InlineTable Row} {ws : List (InlineWrite Row)}

/-- Deletes leave the chunks they do not name. -/
theorem applyAll_deletes_chunk (hws : ∀ w ∈ ws, w.IsDelete) (key : InsertKey) (chunk : InlineChunkValue Row) :
    (t.applyAll ws).chunks[key]? = some chunk ↔ t.chunks[key]? = some chunk ∧ .chunk key none ∉ ws := by
  induction ws generalizing t with
  | nil => simp [applyAll]
  | cons w ws ih =>
    have hrest := ih (t := t.apply w) fun w' hw' => hws w' (List.mem_cons_of_mem _ hw')
    change ((t.apply w).applyAll ws).chunks[key]? = _ ↔ _
    rw [hrest, List.mem_cons, not_or]
    cases w with
    | chunk k value =>
      cases hws _ List.mem_cons_self
      by_cases hk : key = k
      · simp [apply, hk]
      · simp [apply, hk]
    | tombstone rowId e => simp [apply]

/-- Deletes leave the tombstones they do not name. -/
theorem applyAll_deletes_tombstone (hws : ∀ w ∈ ws, w.IsDelete) (rowId e : Nat) :
    (t.applyAll ws).tombstones[rowId]? = some e ↔
      t.tombstones[rowId]? = some e ∧ .tombstone rowId none ∉ ws := by
  induction ws generalizing t with
  | nil => simp [applyAll]
  | cons w ws ih =>
    have hrest := ih (t := t.apply w) fun w' hw' => hws w' (List.mem_cons_of_mem _ hw')
    change ((t.apply w).applyAll ws).tombstones[rowId]? = _ ↔ _
    rw [hrest, List.mem_cons, not_or]
    cases w with
    | chunk k value => simp [apply]
    | tombstone id value =>
      cases hws _ List.mem_cons_self
      by_cases hid : rowId = id
      · simp [apply, hid]
      · simp [apply, hid]

end Deletes

section Flush

variable (t : InlineTable Row) (schemaVersion flushSnapshot : Nat)

theorem flush_deletes :
    ∀ w ∈ (t.translateInlineFlushDelete schemaVersion flushSnapshot).1, w.IsDelete := by
  intro w hw
  rcases List.mem_append.mp hw with hw | hw
  · obtain ⟨x, -, rfl⟩ := List.mem_map.mp hw
    rfl
  · obtain ⟨row, -, rfl⟩ := List.mem_map.mp hw
    rfl

/-- The rows a flush drains are those of the drained chunks, with the ends their tombstones give them. -/
private theorem exists_flushed_iff (p : Nat → Option Nat → Prop) :
    (∃ row ∈ t.flushedRows schemaVersion flushSnapshot, p row.rowId row.endSnapshot) ↔
      ∃ (key : InsertKey) (chunk : InlineChunkValue Row), t.chunks[key]? = some chunk ∧
        key.drained schemaVersion flushSnapshot ∧ ∃ offset < chunk.body.length, p (chunk.rowIdStart + offset)
          (t.tombstones[chunk.rowIdStart + offset]?.filter fun e => key.beginSnapshot < e) := by
  unfold flushedRows InlineScanKind.select materializeInlineRows
  simp only [List.mem_insertionSort, List.mem_filter, List.mem_flatMap, List.mem_map, List.mem_range,
    InlineScanKind.included, InsertKey.drained, decide_eq_true_eq, Bool.and_eq_true]
  constructor
  · rintro ⟨row, ⟨⟨⟨⟨key, chunk⟩, i⟩, hmem, offset, hlt, rfl⟩, hbegin⟩, hp⟩
    obtain ⟨hchunk, hversion⟩ := List.mem_filter.mp (List.fst_mem_of_mem_zipIdx hmem)
    refine ⟨key, chunk, ExtTreeMap.mem_toList_iff_getElem?_eq_some.mp hchunk,
      ⟨by simpa using hversion, hbegin⟩, offset, hlt, ?_⟩
    rw [← getElem?_ofList_toList t.tombstones]
    exact hp
  · rintro ⟨key, chunk, hchunk, ⟨hversion, hbegin⟩, offset, hlt, hp⟩
    have hscoped : (key, chunk) ∈ t.chunksOf schemaVersion :=
      List.mem_filter.mpr ⟨ExtTreeMap.mem_toList_iff_getElem?_eq_some.mpr hchunk, by simpa using hversion⟩
    obtain ⟨i, hi⟩ := List.mem_iff_getElem?.mp hscoped
    refine ⟨_, ⟨⟨((key, chunk), i), List.mem_zipIdx_iff_getElem?.mpr hi, offset, hlt, rfl⟩, hbegin⟩, ?_⟩
    rw [← getElem?_ofList_toList t.tombstones] at hp
    exact hp

/-- The chunks a flush names are the stored ones it drains, and it deletes them. -/
theorem mem_translateInlineFlushDelete (key : InsertKey) (value : Option (InlineChunkValue Row)) :
    .chunk key value ∈ (t.translateInlineFlushDelete schemaVersion flushSnapshot).1 ↔
      value = none ∧ t.chunks[key]? ≠ none ∧ key.drained schemaVersion flushSnapshot := by
  simp only [translateInlineFlushDelete, chunksOf, List.mem_append, List.mem_map, List.mem_filter,
    InsertKey.drained, decide_eq_true_eq, Bool.and_eq_true, InlineWrite.chunk.injEq, reduceCtorEq,
    and_false, exists_false, or_false]
  constructor
  · rintro ⟨x, ⟨⟨hmem, hversion⟩, hbegin⟩, rfl, rfl⟩
    have hchunk : t.chunks[x.1]? = some x.2 := ExtTreeMap.mem_toList_iff_getElem?_eq_some.mp hmem
    exact ⟨rfl, by simp [hchunk], hversion, hbegin⟩
  · rintro ⟨rfl, hstored, hversion, hbegin⟩
    obtain ⟨chunk, hchunk⟩ := Option.ne_none_iff_exists'.mp hstored
    exact ⟨(key, chunk), ⟨⟨ExtTreeMap.mem_toList_iff_getElem?_eq_some.mpr hchunk, hversion⟩, hbegin⟩, rfl, rfl⟩

/-- A flush removes the chunks it drains and no other. -/
theorem flush_chunks :
    (t.flush schemaVersion flushSnapshot).chunks = (t.staying schemaVersion flushSnapshot).chunks := by
  refine ExtTreeMap.ext_getElem? fun key => Option.ext fun chunk => ?_
  unfold flush staying
  rw [applyAll_deletes_chunk (t.flush_deletes _ _), ExtTreeMap.getElem?_filter', Option.filter_eq_some_iff,
    and_congr_right_iff]
  intro hchunk
  simp [mem_translateInlineFlushDelete, hchunk]

/-- The tombstones a flush names are those of the rows it drains with an end. -/
private theorem tombstone_named_iff (rowId : Nat) :
    .tombstone rowId none ∈ (t.translateInlineFlushDelete schemaVersion flushSnapshot).1 ↔
      ∃ key chunk, t.chunks[key]? = some chunk ∧ InsertKey.drained schemaVersion flushSnapshot key ∧
        ∃ offset < chunk.body.length, chunk.rowIdStart + offset = rowId ∧
          (t.tombstones[chunk.rowIdStart + offset]?.filter fun e => key.beginSnapshot < e).isSome := by
  rw [← t.exists_flushed_iff schemaVersion flushSnapshot fun id end_ => id = rowId ∧ end_.isSome]
  simp only [translateInlineFlushDelete, List.mem_append, List.mem_map, List.mem_filter, reduceCtorEq,
    and_false, exists_false, false_or, InlineWrite.tombstone.injEq, and_true]
  exact exists_congr fun row => by tauto

/-- A flush removes the tombstones that end a row of a drained chunk and no other. -/
theorem flush_tombstone (rowId e : Nat) :
    (t.flush schemaVersion flushSnapshot).tombstones[rowId]? = some e ↔ t.tombstones[rowId]? = some e ∧
      ¬ t.Holds (fun key => key.drained schemaVersion flushSnapshot ∧ key.beginSnapshot < e) rowId := by
  unfold flush
  rw [applyAll_deletes_tombstone (t.flush_deletes _ _), and_congr_right_iff]
  intro he
  rw [not_iff_not, tombstone_named_iff]
  unfold Holds
  simp only [InlineChunkValue.rowAt_isSome]
  constructor
  · rintro ⟨key, chunk, hchunk, hdrained, offset, hlt, rfl, hend⟩
    rw [he, Option.isSome_filter] at hend
    exact ⟨key, chunk, hchunk, ⟨hdrained, by simpa using hend⟩, offset, hlt, rfl⟩
  · rintro ⟨key, chunk, hchunk, ⟨hdrained, hbefore⟩, offset, hlt, rfl⟩
    exact ⟨key, chunk, hchunk, hdrained, offset, hlt, rfl, by simp [he, hbefore]⟩

end Flush

/-! ## What a flush leaves of the other versions -/

/-- A scan shows the stored versions that the row's tombstone does not end. -/
theorem mem_scanRecentRows (t : InlineTable Row) (readAt : Nat) (x : RecentRow Row) :
    x ∈ t.scanRecentRows readAt ↔ (x.beginSnapshot, x.row) ∈ t.versions x.rowId ∧
      VersionLog.Shows t.tombstones[x.rowId]? readAt (x.beginSnapshot, x.row) := by
  have hmem := (t.filter_scanRecentRows readAt x.rowId).mem_iff (a := x)
  simp only [List.mem_filter, decide_true, and_true, List.mem_map, decide_eq_true_eq] at hmem
  rw [hmem]
  constructor
  · rintro ⟨version, h, hx⟩
    rw [← hx]
    exact h
  · intro h
    exact ⟨_, h, rfl⟩

/-- A materialized row without its end. -/
private def unended (row : InlineRow) : InlineRow := { row with endSnapshot := none }

private theorem scanRecentRows_eq_unended (t : InlineTable Row) (readAt : Nat) :
    t.scanRecentRows readAt =
      ((((materializeInlineRows t.chunks.toList t.tombstones.toList).filter
        (InlineScanKind.table.included readAt 0)).map unended).insertionSort fun a b =>
          a.rowId < b.rowId ∨ a.rowId = b.rowId ∧ a.beginSnapshot ≤ b.beginSnapshot).filterMap
        fun row => row.resolve t.chunks.toList := by
  -- Neither the order nor the row a materialized row points at depends on its end.
  have hresolve : (fun row : InlineRow => row.resolve t.chunks.toList) =
      (fun row => row.resolve t.chunks.toList) ∘ unended := rfl
  unfold scanRecentRows InlineScanKind.select
  simp only
  rw [hresolve, ← List.filterMap_map]
  exact congrArg _ (List.map_insertionSort _ _ unended _ fun a _ b _ => Iff.rfl)

/-- Tables with the same chunks whose tombstones show the same of their rows scan alike. -/
theorem scanRecentRows_congr {t t' : InlineTable Row} (hchunks : t.chunks = t'.chunks) {readAt : Nat}
    (hshows : ∀ (key : InsertKey) (rowId : Nat), t'.Holds (· = key) rowId →
      (VersionLog.Shows t.tombstones[rowId]? readAt (key.beginSnapshot, ()) ↔
        VersionLog.Shows t'.tombstones[rowId]? readAt (key.beginSnapshot, ()))) :
    t.scanRecentRows readAt = t'.scanRecentRows readAt := by
  have hrows : ((materializeInlineRows t'.chunks.toList t.tombstones.toList).filter
        (InlineScanKind.table.included readAt 0)).map unended =
      ((materializeInlineRows t'.chunks.toList t'.tombstones.toList).filter
        (InlineScanKind.table.included readAt 0)).map unended := by
    unfold materializeInlineRows
    rw [List.filter_flatMap, List.filter_flatMap, List.map_flatMap, List.map_flatMap]
    refine List.flatMap_congr fun x hx => ?_
    rw [List.filter_map, List.filter_map, List.map_map, List.map_map]
    have hfilter : (List.range x.1.2.body.length).filter
          (InlineScanKind.table.included readAt 0 ∘ .ofChunk (.ofList t.tombstones.toList) x.1.1 x.1.2 x.2) =
        (List.range x.1.2.body.length).filter
          (InlineScanKind.table.included readAt 0 ∘ .ofChunk (.ofList t'.tombstones.toList) x.1.1 x.1.2 x.2) := by
      refine List.filter_congr fun offset hoffset => ?_
      have hholds : t'.Holds (· = x.1.1) (x.1.2.rowIdStart + offset) :=
        ⟨x.1.1, x.1.2, ExtTreeMap.mem_toList_iff_getElem?_eq_some.mp (List.fst_mem_of_mem_zipIdx hx), rfl,
          (InlineChunkValue.rowAt_isSome _ _).mpr ⟨offset, List.mem_range.mp hoffset, rfl⟩⟩
      have hsame := hshows _ _ hholds
      rw [← getElem?_ofList_toList t.tombstones, ← getElem?_ofList_toList t'.tombstones] at hsame
      rw [Bool.eq_iff_iff]
      exact (included_ofChunk ..).trans (hsame.trans (included_ofChunk ..).symm)
    rw [hfilter]
    rfl
  rw [scanRecentRows_eq_unended, scanRecentRows_eq_unended, hchunks, hrows]

section Frame

variable (t : InlineTable Row) (schemaVersion flushSnapshot : Nat)

theorem staying_holds_iff (p : InsertKey → Prop) (rowId : Nat) :
    (t.staying schemaVersion flushSnapshot).Holds p rowId ↔
      t.Holds (fun key => ¬ key.drained schemaVersion flushSnapshot ∧ p key) rowId := by
  unfold Holds staying
  simp only [ExtTreeMap.getElem?_filter', Option.filter_eq_some_iff, Bool.not_eq_true', Bool.not_eq_true]
  exact exists_congr fun key => exists_congr fun chunk => by tauto

theorem flush_holds_iff (p : InsertKey → Prop) (rowId : Nat) :
    (t.flush schemaVersion flushSnapshot).Holds p rowId ↔
      t.Holds (fun key => ¬ key.drained schemaVersion flushSnapshot ∧ p key) rowId := by
  rw [← staying_holds_iff]
  unfold Holds
  rw [flush_chunks]

/-- A tombstone of `rowId` ending at `e` is removed by the flush. -/
def Consumed (rowId e : Nat) : Prop :=
  t.Holds (fun key => key.drained schemaVersion flushSnapshot ∧ key.beginSnapshot < e) rowId

/-- The tombstone of `rowId` that ends at `e` either goes with the drained chunks and ends no version that
    stays, or stays and names a row that does. -/
def Settles (rowId e : Nat) : Prop :=
  (t.Consumed schemaVersion flushSnapshot rowId e →
    ¬ t.Holds (fun key => ¬ key.drained schemaVersion flushSnapshot ∧ key.beginSnapshot < e) rowId) ∧
  (¬ t.Consumed schemaVersion flushSnapshot rowId e →
    t.Holds (fun key => ¬ key.drained schemaVersion flushSnapshot) rowId)

variable {t schemaVersion flushSnapshot}

theorem flush_tombstone_of_consumed {rowId e : Nat} (he : t.tombstones[rowId]? = some e)
    (h : t.Consumed schemaVersion flushSnapshot rowId e) :
    (t.flush schemaVersion flushSnapshot).tombstones[rowId]? = none := by
  refine Option.eq_none_iff_forall_ne_some.mpr fun e' he' => ?_
  obtain ⟨hstored, hkept⟩ := (t.flush_tombstone schemaVersion flushSnapshot rowId e').mp he'
  obtain rfl : e = e' := Option.some.inj (he.symm.trans hstored)
  exact hkept h

/-- If every tombstone settles, the chunks that stay keep showing the rows they showed. -/
theorem shows_flush_tombstone
    (h : ∀ rowId e, t.tombstones[rowId]? = some e → t.Settles schemaVersion flushSnapshot rowId e)
    {key : InsertKey} {rowId : Nat}
    (hkey : (t.staying schemaVersion flushSnapshot).Holds (· = key) rowId) (readAt : Nat) :
    VersionLog.Shows (t.flush schemaVersion flushSnapshot).tombstones[rowId]? readAt (key.beginSnapshot, ()) ↔
      VersionLog.Shows t.tombstones[rowId]? readAt (key.beginSnapshot, ()) := by
  obtain ⟨key, chunk, hchunk, ⟨hstays, rfl⟩, hrow⟩ :=
    (t.staying_holds_iff schemaVersion flushSnapshot (· = key) rowId).mp hkey
  cases he : t.tombstones[rowId]? with
  | none =>
    have hnone : (t.flush schemaVersion flushSnapshot).tombstones[rowId]? = none := by
      refine Option.eq_none_iff_forall_ne_some.mpr fun e he' => ?_
      rw [((t.flush_tombstone schemaVersion flushSnapshot rowId e).mp he').1] at he
      cases he
    rw [hnone]
  | some e =>
    by_cases hconsumed : t.Consumed schemaVersion flushSnapshot rowId e
    · -- The tombstone goes, and it ended nothing in this chunk.
      have hlate : e ≤ key.beginSnapshot := not_lt.mp fun hlt =>
        (h rowId e he).1 hconsumed ⟨key, chunk, hchunk, ⟨hstays, hlt⟩, hrow⟩
      rw [flush_tombstone_of_consumed he hconsumed]
      simp [VersionLog.Shows, hlate]
    · rw [(t.flush_tombstone schemaVersion flushSnapshot rowId e).mpr ⟨he, hconsumed⟩]

theorem mem_staying_versions {rowId : Nat} {x : Nat × Row}
    (hx : x ∈ (t.staying schemaVersion flushSnapshot).versions rowId) : x ∈ t.versions rowId := by
  obtain ⟨key, chunk, hchunk, hbegin, hrow⟩ := (mem_versions_iff _ _ _).mp hx
  rw [staying, ExtTreeMap.getElem?_filter'] at hchunk
  exact (mem_versions_iff _ _ _).mpr ⟨key, chunk, (Option.filter_eq_some_iff.mp hchunk).1, hbegin, hrow⟩

end Frame

end InlineTable

/-- A flush of one schema version leaves what the other chunks show at every snapshot as it was, shows no
    row that was not shown before, and leaves no tombstone without a chunk that holds its row, if and only if
    every tombstone settles. -/
theorem flush_leaves_others_iff (t : InlineTable Row) (schemaVersion flushSnapshot : Nat) :
    ((∀ readAt, (t.flush schemaVersion flushSnapshot).scanRecentRows readAt =
          (t.staying schemaVersion flushSnapshot).scanRecentRows readAt) ∧
      (∀ readAt, ∀ row ∈ (t.flush schemaVersion flushSnapshot).scanRecentRows readAt,
        row ∈ t.scanRecentRows readAt) ∧
      (∀ rowId, (t.flush schemaVersion flushSnapshot).tombstones[rowId]? ≠ none →
        (t.flush schemaVersion flushSnapshot).Holds (fun _ => True) rowId)) ↔
      ∀ rowId e, t.tombstones[rowId]? = some e → t.Settles schemaVersion flushSnapshot rowId e := by
  constructor
  · rintro ⟨hsame, -, hnamed⟩ rowId e he
    refine ⟨fun hconsumed hstays => ?_, fun hkept => ?_⟩
    · -- The version that stays shows at `e` once its tombstone is gone.
      obtain ⟨key, chunk, hchunk, ⟨hkey, hbefore⟩, hrow⟩ := hstays
      obtain ⟨row, hrow⟩ := Option.isSome_iff_exists.mp hrow
      have hversion : (key.beginSnapshot, row) ∈ (t.staying schemaVersion flushSnapshot).versions rowId := by
        refine (InlineTable.mem_versions_iff _ _ _).mpr ⟨key, chunk, ?_, rfl, hrow⟩
        simp [InlineTable.staying, hchunk, hkey]
      have hshown : ⟨rowId, key.beginSnapshot, row⟩ ∈
          (t.flush schemaVersion flushSnapshot).scanRecentRows e := by
        refine (InlineTable.mem_scanRecentRows _ _ _).mpr ⟨?_, hbefore.le, fun e' he' => ?_⟩
        · unfold InlineTable.versions
          rw [InlineTable.flush_chunks]
          exact hversion
        · rw [InlineTable.flush_tombstone_of_consumed he hconsumed] at he'
          cases he'
      rw [hsame e, InlineTable.mem_scanRecentRows] at hshown
      rcases hshown.2.2 e he with hle | hlt
      · exact absurd hle hbefore.not_ge
      · exact absurd hlt (lt_irrefl e)
    · have hleft := (t.flush_tombstone schemaVersion flushSnapshot rowId e).mpr ⟨he, hkept⟩
      have hholds := (t.flush_holds_iff schemaVersion flushSnapshot _ rowId).mp
        (hnamed rowId (by rw [hleft]; simp))
      simpa using hholds
  · intro h
    have hsame : ∀ readAt, (t.flush schemaVersion flushSnapshot).scanRecentRows readAt =
        (t.staying schemaVersion flushSnapshot).scanRecentRows readAt :=
      fun readAt => InlineTable.scanRecentRows_congr (t.flush_chunks schemaVersion flushSnapshot)
        fun key rowId hkey => InlineTable.shows_flush_tombstone h hkey readAt
    refine ⟨hsame, fun readAt row hrow => ?_, fun rowId hleft => ?_⟩
    · rw [hsame, InlineTable.mem_scanRecentRows] at hrow
      exact (InlineTable.mem_scanRecentRows _ _ _).mpr ⟨InlineTable.mem_staying_versions hrow.1, hrow.2⟩
    · obtain ⟨e, he⟩ := Option.ne_none_iff_exists'.mp hleft
      obtain ⟨hstored, hkept⟩ := (t.flush_tombstone schemaVersion flushSnapshot rowId e).mp he
      refine (t.flush_holds_iff schemaVersion flushSnapshot _ rowId).mpr ?_
      simpa using (h rowId e hstored).2 hkept

/-! ## A row updated across schema versions -/

namespace AcrossVersions

/-- Row 0 is inlined under schema version 0, updated under version 1 and then deleted. -/
def deleted : InlineTable String :=
  .ofHistory [⟨1, [.insert 0 0 ["a"]]⟩, ⟨3, [.delete 0, .insert 1 0 ["b"]]⟩, ⟨5, [.delete 0]⟩]

/-- Row 0 is inlined and deleted by one commit. -/
def fleeting : InlineTable String := .ofHistory [⟨1, [.insert 0 0 ["a"], .delete 0]⟩]

/-- Flushing version 0 takes the tombstone that ended the updated row, which is shown again; and a tombstone
    that ended nothing is left behind. -/
theorem flush_shows_deleted_row :
    (deleted.scanRecentRows 6 = [] ∧ (deleted.staying 0 6).scanRecentRows 6 = [] ∧
      (deleted.flush 0 6).scanRecentRows 6 = [⟨0, 3, "b"⟩]) ∧
    (fleeting.flush 0 2).chunks.toList = [] ∧ (fleeting.flush 0 2).tombstones.toList = [(0, 1)] := by
  decide +kernel

end AcrossVersions

end Moraine
