-- SUMMARY: Maintained projections: decoded rows kept for a head stamp and folded forward by each batch.
import Moraine.Base.LastEffect
import Moraine.Base.Runs
import Moraine.Store.Store

/-!
# Maintained projections

A read-write handle keeps the decoded snapshot and statistics rows it has read, each projection stamped with
the head it was read at. A dump reads the head and the rows in one session and installs them later. Every
landed batch is folded into the cache: its writes are applied to the rows of each installed projection, and
the projection is stamped with the head the batch wrote, whatever its stamp was before.

`projections_exact_iff` says in which runs of dumps, landings and folds everything the cache can serve is
what a scan at the stamp returns.
-/

namespace Moraine

open Std (ExtTreeMap ExtTreeSet TransOrd LawfulEqOrd)
open OrdMap LastEffect

/-! ## The cache -/

/-- Decoded rows and the head they are valid at; without a head the projection is not installed. -/
structure Maintained (K V : Type) [Ord K] where
  head : Option HeadValue := none
  rows : ExtTreeMap K V := ∅

namespace Maintained

variable {K V α : Type} [Ord K]

def install (head : HeadValue) (rows : ExtTreeMap K V) : Maintained K V := ⟨some head, rows⟩

def clear : Maintained K V := {}

def advance (m : Maintained K V) (newHead : HeadValue) : Maintained K V :=
  if m.head.isSome then { m with head := some newHead } else m

theorem advance_of_some {m : Maintained K V} {head : HeadValue} (h : m.head = some head) (newHead : HeadValue) :
    m.advance newHead = { m with head := some newHead } := by
  simp [advance, h]

variable [TransOrd K]

def serve (m : Maintained K V) (expected : HeadValue) : Option (List V) :=
  if m.head = some expected then some (m.rows.toList.map (·.2)) else none

/-- Applies one folded write; a put that does not decode clears the projection. -/
def fold (decode : α → Option V) (m : Maintained K V) (key : K) (bytes : Option α) : Maintained K V :=
  if m.head.isNone then m
  else match bytes with
    | none => { m with rows := m.rows.erase key }
    | some bytes =>
      match decode bytes with
      | some value => { m with rows := m.rows.insert key value }
      | none => clear

end Maintained

/-- The head record a batch leaves: the last one it writes. -/
def headStamp (writes : List StagedWrite) : Option HeadValue :=
  writes.reverse.findSome? fun w =>
    match w with
    | .head value => some value
    | _ => none

/-- The record as a statistics row of a table. -/
def EntityRecord.tableStats? : EntityRecord → Option TableStatsValue
  | .tableStats value => some value
  | _ => none

/-- The record as a statistics row of a column. -/
def EntityRecord.tableColumnStats? : EntityRecord → Option TableColumnStatsValue
  | .tableColumnStats value => some value
  | _ => none

/-- The projections of one handle. -/
structure ProjectionCache where
  snapshots : Maintained Nat SnapshotValue := {}
  tableStats : Maintained Nat TableStatsValue := {}
  tableColumnStats : Maintained (Nat × Nat) TableColumnStatsValue := {}
  /-- The `current` records scanned at a head. -/
  currentEntities : Option (HeadValue × List EntityRecord) := none
  /-- The `history` records scanned at a head. -/
  historyEntities : Option (HeadValue × List EntityRecord) := none
  headView : Option CatalogSnapshot := none
  /-- Moved by every invalidation. -/
  epoch : Nat := 0

namespace ProjectionCache

variable (c : ProjectionCache)

def dropEntities : ProjectionCache := { c with currentEntities := none, historyEntities := none }

def advance (stamp : HeadValue) : ProjectionCache :=
  { c with
    snapshots := c.snapshots.advance stamp
    tableStats := c.tableStats.advance stamp
    tableColumnStats := c.tableColumnStats.advance stamp }

/-- Folds one write into the projection it belongs to. -/
def foldWrite : StagedWrite → ProjectionCache
  | .snapshot snapshotId bytes => { c with snapshots := c.snapshots.fold some snapshotId bytes }
  | .current (.entity (.tableStats tableId)) bytes =>
    { c with tableStats := c.tableStats.fold EntityRecord.tableStats? tableId bytes }
  | .current (.entity (.tableColumnStats tableId columnId)) bytes =>
    { c with tableColumnStats := c.tableColumnStats.fold EntityRecord.tableColumnStats? (tableId, columnId) bytes }
  | _ => c

/-- Folds one committed batch and stamps every installed projection with the head it wrote. A batch whose
    head write is missing or names another snapshot clears them. -/
def applyBatch (writes : List StagedWrite) (newHead : Nat) : ProjectionCache :=
  let c := writes.foldl foldWrite c.dropEntities
  match (headStamp writes).filter (·.snapshotId = newHead) with
  | some stamp => c.advance stamp
  | none => { c with snapshots := .clear, tableStats := .clear, tableColumnStats := .clear }

def currentEntitiesAt (expected : HeadValue) : Option (List EntityRecord) :=
  (c.currentEntities.filter (·.1 = expected)).map (·.2)

def historyEntitiesAt (expected : HeadValue) : Option (List EntityRecord) :=
  (c.historyEntities.filter (·.1 = expected)).map (·.2)

end ProjectionCache

/-- Every stored record stands under the key its own ids name. -/
structure Store.Keyed (s : Store) : Prop where
  current : s.WellKeyed
  snapshots : ∀ (id : Nat) (value : SnapshotValue), s.snapshots[id]? = some value → value.snapshotId = id

/-- Every record stands under the key its own ids name. -/
def StagedWrite.Keyed : StagedWrite → Prop
  | .snapshot id (some value) => value.snapshotId = id
  | .current key (some record) => record.key = key
  | _ => True

instance : DecidablePred StagedWrite.Keyed := fun w => by
  unfold StagedWrite.Keyed
  split <;> infer_instance

/-! ## One projection -/

/-- A projection: the writes it folds, and the rows a scan of a store finds. -/
structure Projection (K V α : Type) [Ord K] [TransOrd K] [DecidableEq K] where
  get : ProjectionCache → Maintained K V
  decode : α → Option V
  write? : StagedWrite → Option (K × Option α)
  scan : Store → List V
  key : V → K
  lookup : Store → K → Option V
  get_dropEntities : ∀ c, get c.dropEntities = get c
  get_foldWrite : ∀ c w, get (c.foldWrite w) = (write? w).elim (get c) fun x => (get c).fold decode x.1 x.2
  get_advance : ∀ c stamp, get (c.advance stamp) = (get c).advance stamp
  lookup_apply : ∀ s w k, lookup (s.apply w) k =
    (write? w).elim (lookup s k) fun x => if k = x.1 then x.2.bind decode else lookup s k
  scan_sorted : ∀ s : Store, s.Keyed → (scan s).Pairwise fun v v' => compare (key v) (key v') = .lt
  mem_scan : ∀ s : Store, s.Keyed → ∀ v, v ∈ scan s ↔ lookup s (key v) = some v
  lookup_key : ∀ s : Store, s.Keyed → ∀ k v, lookup s k = some v → key v = k
  decode_keyed : ∀ w : StagedWrite, w.Keyed → ∀ k bytes, write? w = some (k, some bytes) →
    ∃ v, decode bytes = some v ∧ key v = k

namespace Projection

def snapshots : Projection Nat SnapshotValue SnapshotValue where
  get c := c.snapshots
  decode := some
  write?
    | .snapshot id bytes => some (id, bytes)
    | _ => none
  scan s := s.snapshots.toList.map (·.2)
  key v := v.snapshotId
  lookup s id := s.snapshots[id]?
  get_dropEntities _ := rfl
  get_advance _ _ := rfl
  get_foldWrite c w := by
    cases w with
    | current key bytes =>
      rcases key with ⟨⟨⟩⟩ | _ <;> rfl
    | _ => rfl
  lookup_apply s w k := by
    cases w with
    | snapshot id bytes => simp [Store.apply]
    | _ => rfl
  scan_sorted _ hs := values_sorted hs.snapshots
  mem_scan _ hs := mem_values_iff hs.snapshots
  lookup_key s hs k v h := hs.snapshots k v h
  decode_keyed w hw k bytes h := by
    cases w with
    | snapshot id value =>
      cases h
      exact ⟨bytes, rfl, hw⟩
    | _ => cases h

/-- The records of one kind in the `current` subspace. -/
structure CurrentKind (K V : Type) [Ord K] where
  toKey : K → CurrentKey
  ofKey : CurrentKey → Option K
  decode : EntityRecord → Option V
  key : V → K
  ofKey_eq_some : ∀ c k, ofKey c = some k ↔ toKey k = c
  key_of_decode : ∀ r v, decode r = some v → r.key = toKey (key v)
  decode_of_key : ∀ r k, r.key = toKey k → ∃ v, decode r = some v ∧ key v = k
  compare_of_lt : ∀ k k', toKey k < toKey k' → compare k k' = .lt

section Current

variable {K V : Type} [Ord K] [TransOrd K] [DecidableEq K] (kind : CurrentKind K V)

def CurrentKind.write? : StagedWrite → Option (K × Option EntityRecord)
  | .current c bytes => (kind.ofKey c).map (·, bytes)
  | _ => none

omit [TransOrd K] [DecidableEq K] in
theorem CurrentKind.write?_eq_some {w : StagedWrite} {k : K} {bytes : Option EntityRecord}
    (h : kind.write? w = some (k, bytes)) : w = .current (kind.toKey k) bytes := by
  cases w with
  | current c b =>
    obtain ⟨k', hk', h⟩ := Option.map_eq_some_iff.mp h
    obtain ⟨rfl, rfl⟩ := Prod.ext_iff.mp h
    rw [(kind.ofKey_eq_some c k').mp hk']
  | _ => cases h

/-- The projection of one kind of `current` records. -/
def ofCurrent (get : ProjectionCache → Maintained K V) (hdrop : ∀ c, get c.dropEntities = get c)
    (hadvance : ∀ c stamp, get (c.advance stamp) = (get c).advance stamp)
    (hfold : ∀ c w, get (c.foldWrite w) =
      (kind.write? w).elim (get c) fun x => (get c).fold kind.decode x.1 x.2) : Projection K V EntityRecord where
  get := get
  decode := kind.decode
  write? := kind.write?
  scan s := s.scanCurrentEntities.filterMap kind.decode
  key := kind.key
  lookup s k := s.current[kind.toKey k]?.bind kind.decode
  get_dropEntities := hdrop
  get_advance := hadvance
  get_foldWrite := hfold
  lookup_apply s w k := by
    cases w with
    | current c bytes =>
      simp only [CurrentKind.write?, Store.apply, getElem?_setKey]
      cases hc : kind.ofKey c with
      | none =>
        have hne : kind.toKey k ≠ c := by
          intro h
          rw [(kind.ofKey_eq_some c k).mpr h] at hc
          cases hc
        rw [if_neg hne]
        rfl
      | some k' =>
        have hk' := (kind.ofKey_eq_some c k').mp hc
        have hiff : kind.toKey k = c ↔ k = k' := by
          rw [← kind.ofKey_eq_some, hc, Option.some.injEq, eq_comm]
        by_cases hk : k = k'
        · simp [hk, hk']
        · simp [hiff, hk]
    | _ => rfl
  scan_sorted s hs := by
    refine List.pairwise_filterMap.mpr ((Store.scan_sorted hs.current).imp fun hlt v hv v' hv' => ?_)
    rw [kind.key_of_decode _ v hv, kind.key_of_decode _ v' hv'] at hlt
    exact kind.compare_of_lt _ _ hlt
  mem_scan s hs v := by
    simp only [List.mem_filterMap, Option.bind_eq_some_iff]
    constructor
    · rintro ⟨r, hr, hv⟩
      refine ⟨r, ?_, hv⟩
      rw [← kind.key_of_decode r v hv]
      exact (Store.mem_scan hs.current).mp hr
    · rintro ⟨r, hr, hv⟩
      refine ⟨r, (Store.mem_scan hs.current).mpr ?_, hv⟩
      rw [kind.key_of_decode r v hv]
      exact hr
  lookup_key s hs k v h := by
    obtain ⟨r, hr, hv⟩ := Option.bind_eq_some_iff.mp h
    obtain ⟨v', hv', hkey⟩ := kind.decode_of_key r k (hs.current _ r hr)
    rw [hv] at hv'
    cases hv'
    exact hkey
  decode_keyed w hw k bytes h := by
    rw [kind.write?_eq_some h] at hw
    exact kind.decode_of_key bytes k hw

end Current

def tableStats : Projection Nat TableStatsValue EntityRecord :=
  ofCurrent
    { toKey := fun t => .entity (.tableStats t)
      ofKey := fun
        | .entity (.tableStats t) => some t
        | _ => none
      decode := EntityRecord.tableStats?
      key := (·.tableId)
      ofKey_eq_some := by
        rintro (⟨⟨⟩⟩ | _) k <;> simp [eq_comm]
      key_of_decode := by
        rintro ⟨⟩ v h <;> cases h
        rfl
      decode_of_key := by
        rintro (_ | _ | _ | _ | _ | _ | _ | _ | _ | _ | _ | _ | value | _ | _ | _ | _) k h <;> cases h
        exact ⟨value, rfl, rfl⟩
      compare_of_lt := fun k k' h => by
        simpa [CurrentKey.lt_iff, CurrentKey.components, List.cons_lt_cons_iff, Nat.compare_eq_lt] using h }
    (·.tableStats) (fun _ => rfl) (fun _ _ => rfl) (by
      intro c w
      cases w with
      | current key bytes =>
        rcases key with ⟨⟨⟩⟩ | _ <;> rfl
      | _ => rfl)

def tableColumnStats : Projection (Nat × Nat) TableColumnStatsValue EntityRecord :=
  ofCurrent
    { toKey := fun k => .entity (.tableColumnStats k.1 k.2)
      ofKey := fun
        | .entity (.tableColumnStats t column) => some (t, column)
        | _ => none
      decode := EntityRecord.tableColumnStats?
      key := fun v => (v.tableId, v.columnId)
      ofKey_eq_some := by
        rintro (⟨⟨⟩⟩ | _) k <;>
          simp [Prod.ext_iff, eq_comm]
      key_of_decode := by
        rintro ⟨⟩ v h <;> cases h
        rfl
      decode_of_key := by
        rintro (_ | _ | _ | _ | _ | _ | _ | _ | _ | _ | _ | _ | _ | value | _ | _ | _) ⟨t, column⟩ h <;> cases h
        exact ⟨value, rfl, rfl⟩
      compare_of_lt := by
        rintro ⟨t, column⟩ ⟨t', column'⟩ h
        simpa [CurrentKey.lt_iff, CurrentKey.components, List.cons_lt_cons_iff, compare_pair_eq_lt,
          Nat.compare_eq_lt, Nat.compare_eq_eq] using h }
    (·.tableColumnStats) (fun _ => rfl) (fun _ _ => rfl) (by
      intro c w
      cases w with
      | current key bytes =>
        rcases key with ⟨⟨⟩⟩ | _ <;> rfl
      | _ => rfl)

section Rows

variable {K V α : Type} [Ord K] [TransOrd K] [DecidableEq K] (p : Projection K V α)

/-- The rows a dump installs. -/
def rowsOf (rows : List V) : ExtTreeMap K V := .ofList (rows.map fun v => (p.key v, v))

/-- The row under a key, as a cell of the store. -/
def cell (k : K) : Cell Store.apply (Option V) where
  read s := p.lookup s k
  written w := (p.write? w).bind fun x => if k = x.1 then some (x.2.bind p.decode) else none
  read_apply s w := by
    rw [p.lookup_apply]
    cases p.write? w with
    | none => rfl
    | some x => by_cases hk : k = x.1 <;> simp [hk]

/-- The batch writes the row under the key. -/
def Writes (writes : List StagedWrite) (k : K) : Prop := ∃ w ∈ writes, ∃ bytes, p.write? w = some (k, bytes)

theorem cell_written (w : StagedWrite) (k : K) :
    (p.cell k).written w = (p.write? w).bind fun x => if k = x.1 then some (x.2.bind p.decode) else none := rfl

theorem writtenBy_eq_none_iff (writes : List StagedWrite) (k : K) :
    (p.cell k).writtenBy writes = none ↔ ¬ p.Writes writes k := by
  rw [Cell.writtenBy_eq_none_iff]
  constructor
  · rintro h ⟨w, hw, bytes, hbytes⟩
    have := h w hw
    simp [cell, hbytes] at this
  · intro h w hw
    by_contra hne
    obtain ⟨value, hvalue⟩ := Option.ne_none_iff_exists'.mp hne
    simp only [cell, Option.bind_eq_some_iff, Option.ite_none_right_eq_some] at hvalue
    obtain ⟨x, hx, rfl, -⟩ := hvalue
    exact h ⟨w, hw, x.2, hx⟩

/-- Every row is under its own key. -/
def RowsKeyed (m : Maintained K V) : Prop := ∀ k v, m.rows[k]? = some v → p.key v = k

/-- Whatever the projection can serve is what a scan of the state with that head returns. -/
def Exact (states : List Store) (m : Maintained K V) : Prop :=
  ∀ expected rows, m.serve expected = some rows → ∃ s ∈ states, s.head = expected ∧ rows = p.scan s

/-- One write folded in. -/
def foldInto (m : Maintained K V) (w : StagedWrite) : Maintained K V :=
  (p.write? w).elim m fun x => m.fold p.decode x.1 x.2

variable {p} {states : List Store} {m : Maintained K V}

theorem get_foldl_foldWrite (c : ProjectionCache) (writes : List StagedWrite) :
    p.get (writes.foldl ProjectionCache.foldWrite c) = writes.foldl p.foldInto (p.get c) := by
  induction writes generalizing c with
  | nil => rfl
  | cons w writes ih => rw [List.foldl_cons, ih, p.get_foldWrite, List.foldl_cons, foldInto]

theorem get_applyBatch (c : ProjectionCache) {writes : List StagedWrite} {stamp : HeadValue}
    (hstamp : headStamp writes = some stamp) :
    p.get (c.applyBatch writes stamp.snapshotId) = (writes.foldl p.foldInto (p.get c)).advance stamp := by
  unfold ProjectionCache.applyBatch
  rw [hstamp, Option.filter_some, if_pos (by simp)]
  simp only
  rw [p.get_advance, get_foldl_foldWrite, p.get_dropEntities]

theorem foldl_foldInto_of_none (writes : List StagedWrite) (hm : m.head = none) :
    writes.foldl p.foldInto m = m := by
  induction writes with
  | nil => rfl
  | cons w writes ih =>
    have hsame : p.foldInto m w = m := by
      unfold foldInto
      cases p.write? w with
      | none => rfl
      | some x => simp [Maintained.fold, hm]
    rw [List.foldl_cons, hsame, ih]

variable [LawfulEqOrd K]

theorem RowsKeyed.exact_iff (hm : p.RowsKeyed m) (hstates : ∀ s ∈ states, s.Keyed) :
    p.Exact states m ↔
      ∀ h, m.head = some h → ∃ s ∈ states, s.head = h ∧ ∀ k, m.rows[k]? = p.lookup s k := by
  have hvalues : ∀ s ∈ states, m.rows.toList.map (·.2) = p.scan s ↔ ∀ k, m.rows[k]? = p.lookup s k :=
    fun s hs => values_eq_iff hm (p.scan_sorted s (hstates s hs)) (p.lookup_key s (hstates s hs))
      (p.mem_scan s (hstates s hs))
  unfold Exact Maintained.serve
  constructor
  · intro h head hhead
    obtain ⟨s, hs, hshead, hrows⟩ := h head _ (if_pos hhead)
    exact ⟨s, hs, hshead, (hvalues s hs).mp hrows⟩
  · intro h expected rows hserve
    obtain ⟨hhead, hrows⟩ := Option.ite_none_right_eq_some.mp hserve
    obtain ⟨s, hs, hshead, hlookup⟩ := h expected hhead
    refine ⟨s, hs, hshead, ?_⟩
    rw [← (hvalues s hs).mpr hlookup]
    exact (Option.some.inj hrows).symm

/-- What a dump installs has the row of the scanned store under every key. -/
theorem lookup_rowsOf {s : Store} (hs : s.Keyed) (k : K) : (p.rowsOf (p.scan s))[k]? = p.lookup s k := by
  have hdistinct : ((p.scan s).map fun v => (p.key v, v)).Pairwise
      fun a b => ¬ compare a.1 b.1 = .eq := by
    rw [List.pairwise_map]
    exact (p.scan_sorted s hs).imp fun hlt heq => by simp [hlt] at heq
  unfold rowsOf
  cases hlookup : p.lookup s k with
  | some v =>
    have hkey := p.lookup_key s hs k v hlookup
    refine ExtTreeMap.getElem?_ofList_of_mem (k := k) Std.compare_self hdistinct (List.mem_map.mpr ⟨v, ?_, ?_⟩)
    · rw [p.mem_scan s hs, hkey]
      exact hlookup
    · rw [hkey]
  | none =>
    refine ExtTreeMap.getElem?_ofList_of_contains_eq_false ?_
    rw [Bool.eq_false_iff, ne_eq, List.contains_iff_mem, List.map_map, List.mem_map]
    rintro ⟨v, hv, rfl⟩
    rw [Function.comp_apply, (p.mem_scan s hs v).mp hv] at hlookup
    cases hlookup

/-- A keyed write folded into an installed projection sets the row it names and no other. -/
theorem foldInto_spec {w : StagedWrite} (hw : w.Keyed) {h : HeadValue} (hm : m.head = some h) :
    (p.foldInto m w).head = some h ∧
      ∀ k, (p.foldInto m w).rows[k]? = ((p.cell k).written w).getD m.rows[k]? := by
  simp only [foldInto, cell_written]
  cases hwrite : p.write? w with
  | none => exact ⟨hm, fun k => rfl⟩
  | some x =>
    obtain ⟨key, bytes⟩ := x
    have hsome : ¬ m.head.isNone := by simp [hm]
    cases bytes with
    | none =>
      simp only [Option.elim_some, Maintained.fold, if_neg hsome]
      refine ⟨hm, fun k => ?_⟩
      by_cases hk : k = key <;> simp [hk]
    | some bytes =>
      obtain ⟨v, hv, -⟩ := p.decode_keyed w hw key bytes hwrite
      simp only [Option.elim_some, Maintained.fold, if_neg hsome, hv]
      refine ⟨hm, fun k => ?_⟩
      by_cases hk : k = key <;> simp [hk, hv]

/-- Folding a batch into an installed projection sets the rows the batch writes. -/
theorem foldl_foldInto {writes : List StagedWrite} (hwrites : ∀ w ∈ writes, w.Keyed) {h : HeadValue}
    (hm : m.head = some h) :
    (writes.foldl p.foldInto m).head = some h ∧
      ∀ k, (writes.foldl p.foldInto m).rows[k]? = ((p.cell k).writtenBy writes).getD m.rows[k]? := by
  induction writes generalizing m with
  | nil => exact ⟨hm, fun k => rfl⟩
  | cons w writes ih =>
    obtain ⟨hhead, hrows⟩ := foldInto_spec (hwrites w List.mem_cons_self) hm
    obtain ⟨hhead', hrows'⟩ := ih (fun w' hw' => hwrites w' (List.mem_cons_of_mem _ hw')) hhead
    refine ⟨hhead', fun k => ?_⟩
    rw [List.foldl_cons, hrows', hrows, Cell.writtenBy]
    cases (p.cell k).writtenBy writes <;> rfl

end Rows

end Projection

/-! ## Dumps, landings and folds -/

/-- What a dump reads. -/
inductive DumpKind where
  | snapshots
  | tableStats
  | tableColumnStats
  | current

/-- What a dump has read and not yet installed. -/
inductive Dump where
  | snapshots (head : HeadValue) (rows : List SnapshotValue)
  | tableStats (head : HeadValue) (rows : List TableStatsValue)
  | tableColumnStats (head : HeadValue) (rows : List TableColumnStatsValue)
  | current (head : HeadValue) (records : List EntityRecord)

/-- The `current` records of a session at `s`: the held ones if they stand at its head, else a scan. -/
def ProjectionCache.currentHalf (c : ProjectionCache) (s : Store) : List EntityRecord :=
  (c.currentEntitiesAt s.head).getD s.scanCurrentEntities

/-- Reads in a session at `s`. The statistics rows are taken from the `current` records. -/
def DumpKind.read (c : ProjectionCache) (s : Store) : DumpKind → Dump
  | .snapshots => .snapshots s.head (Projection.snapshots.scan s)
  | .tableStats => .tableStats s.head ((c.currentHalf s).filterMap EntityRecord.tableStats?)
  | .tableColumnStats => .tableColumnStats s.head ((c.currentHalf s).filterMap EntityRecord.tableColumnStats?)
  | .current => .current s.head (c.currentHalf s)

def Dump.install (c : ProjectionCache) : Dump → ProjectionCache
  | .snapshots head rows => { c with snapshots := .install head (Projection.snapshots.rowsOf rows) }
  | .tableStats head rows => { c with tableStats := .install head (Projection.tableStats.rowsOf rows) }
  | .tableColumnStats head rows =>
    { c with tableColumnStats := .install head (Projection.tableColumnStats.rowsOf rows) }
  | .current head records => { c with currentEntities := some (head, records) }

/-- A landed batch, with the state it was committed on and the snapshot id its committer passes to the
    fold. -/
structure LandedBatch where
  before : Store
  writes : List StagedWrite
  newHead : Nat

/-- The committed states, newest first, the landed batches yet to be folded, the cache and the dumps that
    have read and not installed. -/
structure CacheSystem where
  states : List Store
  landed : List LandedBatch := []
  cache : ProjectionCache := {}
  dumps : List Dump := []

inductive CacheEvent where
  /-- A batch lands on the newest state. -/
  | land (writes : List StagedWrite) (newHead : Nat)
  /-- The committer of a landed batch folds it. -/
  | fold (i : Nat)
  /-- A dump reads in a session at a committed state. -/
  | read (kind : DumpKind) (i : Nat)
  /-- A dump installs what it read. -/
  | install (i : Nat)

namespace CacheSystem

def step (sys : CacheSystem) : CacheEvent → Option CacheSystem
  | .land writes newHead =>
    match sys.states, headStamp writes with
    | s :: older, some stamp =>
      -- Every batch writes the head with a greater batch count, and keys records by their ids.
      if stamp.snapshotId = newHead ∧ s.head.batchSeq < stamp.batchSeq ∧ ∀ w ∈ writes, w.Keyed then
        some { sys with
          states := s.applyBatch writes :: s :: older
          landed := sys.landed ++ [⟨s, writes, newHead⟩] }
      else none
    | _, _ => none
  | .fold i => sys.landed[i]?.map fun b =>
    { sys with landed := sys.landed.eraseIdx i, cache := sys.cache.applyBatch b.writes b.newHead }
  | .read kind i => sys.states[i]?.map fun s => { sys with dumps := sys.dumps ++ [kind.read sys.cache s] }
  | .install i => sys.dumps[i]?.map fun d =>
    { sys with dumps := sys.dumps.eraseIdx i, cache := d.install sys.cache }

/-- Everything the cache can serve is what a scan at the stamp returns. -/
structure ServesExact (sys : CacheSystem) : Prop where
  snapshots : Projection.snapshots.Exact sys.states sys.cache.snapshots
  tableStats : Projection.tableStats.Exact sys.states sys.cache.tableStats
  tableColumnStats : Projection.tableColumnStats.Exact sys.states sys.cache.tableColumnStats

/-- Since the state it is stamped with, only rows the batch itself writes changed in the projection before
    the batch. -/
def Follows {K V α : Type} [Ord K] [TransOrd K] [DecidableEq K] (p : Projection K V α) (sys : CacheSystem)
    (b : LandedBatch) : Prop :=
  ∀ s ∈ sys.states, (p.get sys.cache).head = some s.head →
    ∀ k, ¬ p.Writes b.writes k → p.lookup s k = p.lookup b.before k

/-- A fold finds every installed projection following. -/
def FoldsInOrder (sys : CacheSystem) : CacheEvent → Prop
  | .fold i => ∀ b, sys.landed[i]? = some b →
    sys.Follows .snapshots b ∧ sys.Follows .tableStats b ∧ sys.Follows .tableColumnStats b
  | _ => True

end CacheSystem

/-! ## The invariant -/

theorem Store.head_applyBatch (s : Store) (writes : List StagedWrite) :
    (s.applyBatch writes).head = (headStamp writes).getD s.head := by
  induction writes using List.reverseRecOn with
  | nil => rfl
  | append_singleton writes w ih =>
    rw [Store.applyBatch_append, applyBatch_cons, applyBatch_nil]
    cases w with
    | head value => simp [Store.apply, headStamp]
    | _ => simpa [Store.apply, headStamp] using ih

theorem Store.Keyed.apply {s : Store} (hs : s.Keyed) {w : StagedWrite} (hw : w.Keyed) : (s.apply w).Keyed := by
  cases w with
  | snapshot id value =>
    refine ⟨hs.current, fun id' value' h => ?_⟩
    simp only [Store.apply, getElem?_setKey] at h
    split at h
    · next heq =>
      subst heq
      cases h
      exact hw
    · exact hs.snapshots id' value' h
  | current key value =>
    refine ⟨fun key' record h => ?_, hs.snapshots⟩
    simp only [Store.apply, getElem?_setKey] at h
    split at h
    · next heq =>
      subst heq
      cases h
      exact hw
    · exact hs.current key' record h
  | _ => exact ⟨hs.current, hs.snapshots⟩

theorem Store.Keyed.applyBatch {s : Store} (hs : s.Keyed) {writes : List StagedWrite}
    (hwrites : ∀ w ∈ writes, w.Keyed) : (s.applyBatch writes).Keyed := by
  induction writes generalizing s with
  | nil => exact hs
  | cons w writes ih =>
    exact ih (hs.apply (hwrites w List.mem_cons_self)) fun w' hw' => hwrites w' (List.mem_cons_of_mem _ hw')

/-- What was read is what a scan of a committed state returns. -/
def Dump.Sound (states : List Store) : Dump → Prop
  | .snapshots head rows => ∃ s ∈ states, s.head = head ∧ rows = Projection.snapshots.scan s
  | .tableStats head rows => ∃ s ∈ states, s.head = head ∧ rows = Projection.tableStats.scan s
  | .tableColumnStats head rows => ∃ s ∈ states, s.head = head ∧ rows = Projection.tableColumnStats.scan s
  | .current head records => ∃ s ∈ states, s.head = head ∧ records = s.scanCurrentEntities

theorem Dump.Sound.mono {states states' : List Store} (hsub : ∀ s ∈ states, s ∈ states') {d : Dump}
    (h : d.Sound states) : d.Sound states' := by
  cases d <;> exact h.imp fun s hs => ⟨hsub s hs.1, hs.2⟩

/-- A batch that landed among the committed states and stamped its result. -/
structure LandedBatch.Sound (states : List Store) (b : LandedBatch) : Prop where
  before : b.before ∈ states
  after : b.before.applyBatch b.writes ∈ states
  keyed : ∀ w ∈ b.writes, w.Keyed
  stamp : headStamp b.writes = some (b.before.applyBatch b.writes).head
  newHead : b.newHead = (b.before.applyBatch b.writes).head.snapshotId

theorem LandedBatch.Sound.mono {states states' : List Store} (hsub : ∀ s ∈ states, s ∈ states') {b : LandedBatch}
    (h : b.Sound states) : b.Sound states' :=
  ⟨hsub _ h.before, hsub _ h.after, h.keyed, h.stamp, h.newHead⟩

namespace CacheSystem

structure Sound (sys : CacheSystem) : Prop where
  ordered : sys.states.Pairwise fun s t => t.head.batchSeq < s.head.batchSeq
  keyed : ∀ s ∈ sys.states, s.Keyed
  landed : ∀ b ∈ sys.landed, b.Sound sys.states
  dumps : ∀ d ∈ sys.dumps, d.Sound sys.states
  current : ∀ head records, sys.cache.currentEntities = some (head, records) →
    ∃ s ∈ sys.states, s.head = head ∧ records = s.scanCurrentEntities
  snapshots : Projection.snapshots.RowsKeyed sys.cache.snapshots
  tableStats : Projection.tableStats.RowsKeyed sys.cache.tableStats
  tableColumnStats : Projection.tableColumnStats.RowsKeyed sys.cache.tableColumnStats

variable {sys sys' : CacheSystem}

/-- A head names one committed state. -/
theorem Sound.eq_of_head (h : sys.Sound) {s t : Store} (hs : s ∈ sys.states) (ht : t ∈ sys.states)
    (heq : s.head = t.head) : s = t := by
  by_contra hne
  have hpair : sys.states.Pairwise fun s t => s.head ≠ t.head :=
    h.ordered.imp fun hlt heq => by simp [heq] at hlt
  have : Std.Symm fun s t : Store => s.head ≠ t.head := ⟨fun _ _ hne => hne.symm⟩
  exact hpair.forall hs ht hne heq

section Fold

variable {K V α : Type} [Ord K] [TransOrd K] [LawfulEqOrd K] [DecidableEq K] {p : Projection K V α} {b : LandedBatch}

/-- What a fold leaves of an installed projection. -/
theorem get_fold (hb : b.Sound sys.states) {h : HeadValue} (hhead : (p.get sys.cache).head = some h) :
    (p.get (sys.cache.applyBatch b.writes b.newHead)).head = some (b.before.applyBatch b.writes).head ∧
      ∀ k, (p.get (sys.cache.applyBatch b.writes b.newHead)).rows[k]? =
        ((p.cell k).writtenBy b.writes).getD (p.get sys.cache).rows[k]? := by
  obtain ⟨hkept, hrows⟩ := Projection.foldl_foldInto hb.keyed hhead
  rw [hb.newHead, Projection.get_applyBatch _ hb.stamp, Maintained.advance_of_some hkept]
  exact ⟨rfl, hrows⟩

omit [LawfulEqOrd K] in
/-- A projection that is not installed stays so. -/
theorem get_fold_of_none (hb : b.Sound sys.states) (hhead : (p.get sys.cache).head = none) :
    p.get (sys.cache.applyBatch b.writes b.newHead) = p.get sys.cache := by
  rw [hb.newHead, Projection.get_applyBatch _ hb.stamp, Projection.foldl_foldInto_of_none _ hhead]
  simp [Maintained.advance, hhead]

theorem rowsKeyed_fold (hb : b.Sound sys.states) (hrows : p.RowsKeyed (p.get sys.cache)) :
    p.RowsKeyed (p.get (sys.cache.applyBatch b.writes b.newHead)) := by
  cases hhead : (p.get sys.cache).head with
  | none =>
    rw [get_fold_of_none hb hhead]
    exact hrows
  | some h =>
    intro k v hv
    rw [(get_fold hb hhead).2] at hv
    cases hwritten : (p.cell k).writtenBy b.writes with
    | none =>
      rw [hwritten] at hv
      exact hrows k v hv
    | some value =>
      rw [hwritten, Option.getD_some] at hv
      subst hv
      obtain ⟨w, hw, hv⟩ := (p.cell k).writtenBy_eq_some hwritten
      rw [Projection.cell_written] at hv
      obtain ⟨⟨k', bytes⟩, hwrite, hv⟩ := Option.bind_eq_some_iff.mp hv
      obtain ⟨rfl, hv⟩ := Option.ite_none_right_eq_some.mp hv
      obtain ⟨bytes, rfl, hdecode⟩ := Option.bind_eq_some_iff.mp (Option.some.inj hv)
      obtain ⟨v', hv', hkey⟩ := p.decode_keyed w (hb.keyed w hw) _ bytes hwrite
      rw [hdecode] at hv'
      cases hv'
      exact hkey

/-- A fold leaves an exact projection exact if and only if the projection followed the batch. -/
theorem Sound.exact_fold_iff (hsys : sys.Sound) (hb : b.Sound sys.states) (hrows : p.RowsKeyed (p.get sys.cache))
    (hexact : p.Exact sys.states (p.get sys.cache)) :
    p.Exact sys.states (p.get (sys.cache.applyBatch b.writes b.newHead)) ↔ sys.Follows p b := by
  cases hhead : (p.get sys.cache).head with
  | none =>
    rw [get_fold_of_none hb hhead]
    refine ⟨fun _ s _ hs => ?_, fun _ => hexact⟩
    rw [hhead] at hs
    cases hs
  | some h =>
    obtain ⟨s, hs, hshead, hlookup⟩ := (hrows.exact_iff hsys.keyed).mp hexact h hhead
    obtain ⟨hhead', hrows'⟩ := get_fold hb hhead
    -- The state stamped by the batch is its result, and the state stamped before is `s`.
    have hafter : ∀ k, p.lookup (b.before.applyBatch b.writes) k =
        ((p.cell k).writtenBy b.writes).getD (p.lookup b.before k) :=
      fun k => (p.cell k).read_foldl b.before b.writes
    have hrow : ∀ k, (p.get (sys.cache.applyBatch b.writes b.newHead)).rows[k]? =
        p.lookup (b.before.applyBatch b.writes) k ↔ (¬ p.Writes b.writes k → p.lookup s k = p.lookup b.before k) := by
      intro k
      rw [hrows', hlookup, hafter, ← Projection.writtenBy_eq_none_iff]
      cases (p.cell k).writtenBy b.writes <;> simp
    rw [(rowsKeyed_fold hb hrows).exact_iff hsys.keyed]
    constructor
    · intro hall t ht hthead k hk
      rw [hhead] at hthead
      obtain rfl : s = t := hsys.eq_of_head hs ht (hshead.trans (Option.some.inj hthead))
      obtain ⟨u, hu, huhead, hulookup⟩ := hall _ hhead'
      obtain rfl := hsys.eq_of_head hu hb.after huhead
      exact (hrow k).mp (hulookup k) hk
    · intro hfollows head hstamp
      rw [hhead'] at hstamp
      cases hstamp
      refine ⟨_, hb.after, rfl, fun k => (hrow k).mpr fun hk => ?_⟩
      exact hfollows s hs (by rw [hhead, hshead]) k hk

end Fold

/-- More committed states keep what was exact. -/
theorem exact_mono {K V α : Type} [Ord K] [TransOrd K] [DecidableEq K] {p : Projection K V α}
    {states states' : List Store} {m : Maintained K V} (hsub : ∀ s ∈ states, s ∈ states')
    (h : p.Exact states m) : p.Exact states' m := by
  intro expected rows hserve
  obtain ⟨s, hs, hrest⟩ := h expected rows hserve
  exact ⟨s, hsub s hs, hrest⟩

/-- What a dump installs is exact. -/
theorem exact_install {K V α : Type} [Ord K] [TransOrd K] [LawfulEqOrd K] [DecidableEq K] {p : Projection K V α}
    {states : List Store} (hstates : ∀ s ∈ states, s.Keyed) {s : Store} (hs : s ∈ states) :
    p.RowsKeyed (.install s.head (p.rowsOf (p.scan s))) ∧ p.Exact states (.install s.head (p.rowsOf (p.scan s))) := by
  have hrows : p.RowsKeyed (.install s.head (p.rowsOf (p.scan s))) := by
    intro k v hv
    rw [Maintained.install, Projection.lookup_rowsOf (hstates s hs)] at hv
    exact p.lookup_key s (hstates s hs) k v hv
  refine ⟨hrows, (hrows.exact_iff hstates).mpr fun h hh => ?_⟩
  cases hh
  exact ⟨s, hs, rfl, Projection.lookup_rowsOf (hstates s hs)⟩

/-- The held `current` records, and so those of a session, are those of the session's state. -/
theorem Sound.currentHalf (h : sys.Sound) {s : Store} (hs : s ∈ sys.states) :
    sys.cache.currentHalf s = s.scanCurrentEntities := by
  unfold ProjectionCache.currentHalf ProjectionCache.currentEntitiesAt
  cases hheld : sys.cache.currentEntities with
  | none => rfl
  | some x =>
    obtain ⟨head, records⟩ := x
    by_cases hhead : head = s.head
    · obtain ⟨t, ht, hthead, rfl⟩ := h.current head records hheld
      obtain rfl := h.eq_of_head ht hs (hthead.trans hhead)
      simp [Option.filter_some, hhead]
    · simp [Option.filter_some, hhead]

theorem Sound.read (h : sys.Sound) {s : Store} (hs : s ∈ sys.states) (kind : DumpKind) :
    (kind.read sys.cache s).Sound sys.states := by
  cases kind with
  | snapshots => exact ⟨s, hs, rfl, rfl⟩
  | tableStats => exact ⟨s, hs, rfl, by rw [h.currentHalf hs]; rfl⟩
  | tableColumnStats => exact ⟨s, hs, rfl, by rw [h.currentHalf hs]; rfl⟩
  | current => exact ⟨s, hs, rfl, h.currentHalf hs⟩

/-- What one step does. -/
theorem step_cases {e : CacheEvent} (h : sys.step e = some sys') :
    (∃ writes newHead s older stamp, e = .land writes newHead ∧ sys.states = s :: older ∧
      headStamp writes = some stamp ∧ stamp.snapshotId = newHead ∧ s.head.batchSeq < stamp.batchSeq ∧
      (∀ w ∈ writes, w.Keyed) ∧
      sys' = { sys with
        states := s.applyBatch writes :: sys.states, landed := sys.landed ++ [⟨s, writes, newHead⟩] }) ∨
    (∃ i b, e = .fold i ∧ sys.landed[i]? = some b ∧
      sys' = { sys with landed := sys.landed.eraseIdx i, cache := sys.cache.applyBatch b.writes b.newHead }) ∨
    (∃ kind i s, e = .read kind i ∧ s ∈ sys.states ∧
      sys' = { sys with dumps := sys.dumps ++ [kind.read sys.cache s] }) ∨
    ∃ i d, e = .install i ∧ d ∈ sys.dumps ∧
      sys' = { sys with dumps := sys.dumps.eraseIdx i, cache := d.install sys.cache } := by
  cases e with
  | land writes newHead =>
    rw [step] at h
    split at h
    · next s older stamp hstates hstamp =>
      split at h
      · next hguard =>
        cases h
        exact .inl ⟨writes, newHead, s, older, stamp, rfl, hstates, hstamp, hguard.1, hguard.2.1, hguard.2.2,
          by rw [hstates]⟩
      · cases h
    · cases h
  | fold i =>
    obtain ⟨b, hb, rfl⟩ := Option.map_eq_some_iff.mp h
    exact .inr (.inl ⟨i, b, rfl, hb, rfl⟩)
  | read kind i =>
    obtain ⟨s, hs, rfl⟩ := Option.map_eq_some_iff.mp h
    exact .inr (.inr (.inl ⟨kind, i, s, rfl, List.mem_of_getElem? hs, rfl⟩))
  | install i =>
    obtain ⟨d, hd, rfl⟩ := Option.map_eq_some_iff.mp h
    exact .inr (.inr (.inr ⟨i, d, rfl, List.mem_of_getElem? hd, rfl⟩))

theorem Sound.land (h : sys.Sound) {writes : List StagedWrite} {newHead : Nat} {s : Store} {older : List Store}
    {stamp : HeadValue} (hstates : sys.states = s :: older) (hstamp : headStamp writes = some stamp)
    (hnew : stamp.snapshotId = newHead) (hlt : s.head.batchSeq < stamp.batchSeq) (hkeyed : ∀ w ∈ writes, w.Keyed) :
    Sound { sys with
      states := s.applyBatch writes :: sys.states, landed := sys.landed ++ [⟨s, writes, newHead⟩] } := by
  have hs : s ∈ sys.states := by rw [hstates]; exact List.mem_cons_self
  have hsub : ∀ t ∈ sys.states, t ∈ s.applyBatch writes :: sys.states := fun t ht => List.mem_cons_of_mem _ ht
  have hhead : (s.applyBatch writes).head = stamp := by rw [Store.head_applyBatch, hstamp, Option.getD_some]
  refine
    { ordered := List.pairwise_cons.mpr ⟨fun t ht => ?_, h.ordered⟩
      keyed := fun t ht => ?_
      landed := fun b hb => ?_
      dumps := fun d hd => Dump.Sound.mono hsub (h.dumps d hd)
      current := fun head records hheld => ?_
      snapshots := h.snapshots
      tableStats := h.tableStats
      tableColumnStats := h.tableColumnStats }
  · have hordered := h.ordered
    rw [hstates] at hordered ht
    rw [hhead]
    rcases List.mem_cons.mp ht with rfl | ht
    · exact hlt
    · exact ((List.pairwise_cons.mp hordered).1 t ht).trans hlt
  · rcases List.mem_cons.mp ht with rfl | ht
    · exact (h.keyed s hs).applyBatch hkeyed
    · exact h.keyed t ht
  · rcases List.mem_append.mp hb with hb | hb
    · exact (h.landed b hb).mono hsub
    · rw [List.mem_singleton.mp hb]
      exact ⟨hsub s hs, List.mem_cons_self, hkeyed, by rw [hhead]; exact hstamp, by rw [hhead, hnew]⟩
  · obtain ⟨t, ht, hrest⟩ := h.current head records hheld
    exact ⟨t, hsub t ht, hrest⟩

/-- Folding a batch into the projections drops the halves and leaves the head view. -/
theorem applyBatch_held (c : ProjectionCache) (writes : List StagedWrite) (newHead : Nat) :
    (c.applyBatch writes newHead).headView = c.headView ∧ (c.applyBatch writes newHead).epoch = c.epoch ∧
      (c.applyBatch writes newHead).currentEntities = none ∧
      (c.applyBatch writes newHead).historyEntities = none := by
  have hfold : ∀ c' : ProjectionCache, c'.headView = c.headView ∧ c'.epoch = c.epoch ∧ c'.currentEntities = none ∧
      c'.historyEntities = none →
      (writes.foldl ProjectionCache.foldWrite c').headView = c.headView ∧
        (writes.foldl ProjectionCache.foldWrite c').epoch = c.epoch ∧
        (writes.foldl ProjectionCache.foldWrite c').currentEntities = none ∧
        (writes.foldl ProjectionCache.foldWrite c').historyEntities = none := by
    induction writes with
    | nil => exact fun c' hc' => hc'
    | cons w writes ih =>
      refine fun c' hc' => ih _ ?_
      unfold ProjectionCache.foldWrite
      split <;> exact hc'
  unfold ProjectionCache.applyBatch
  simp only
  split <;> exact hfold _ ⟨rfl, rfl, rfl, rfl⟩

theorem Sound.fold (h : sys.Sound) {i : Nat} {b : LandedBatch} (hb : b ∈ sys.landed) :
    Sound { sys with landed := sys.landed.eraseIdx i, cache := sys.cache.applyBatch b.writes b.newHead } where
  ordered := h.ordered
  keyed := h.keyed
  landed b' hb' := h.landed b' (List.mem_of_mem_eraseIdx hb')
  dumps := h.dumps
  current head records hheld := by
    rw [(applyBatch_held _ _ _).2.2.1] at hheld
    cases hheld
  snapshots := rowsKeyed_fold (p := .snapshots) (h.landed b hb) h.snapshots
  tableStats := rowsKeyed_fold (p := .tableStats) (h.landed b hb) h.tableStats
  tableColumnStats := rowsKeyed_fold (p := .tableColumnStats) (h.landed b hb) h.tableColumnStats

theorem Sound.install (h : sys.Sound) {i : Nat} {d : Dump} (hd : d ∈ sys.dumps) :
    Sound { sys with dumps := sys.dumps.eraseIdx i, cache := d.install sys.cache } := by
  have hdump := h.dumps d hd
  refine
    { ordered := h.ordered
      keyed := h.keyed
      landed := h.landed
      dumps := fun d' hd' => h.dumps d' (List.mem_of_mem_eraseIdx hd')
      current := ?_
      snapshots := ?_
      tableStats := ?_
      tableColumnStats := ?_ }
  · cases d with
    | current head records =>
      intro head' records' hheld
      cases hheld
      exact hdump
    | _ => exact h.current
  · cases d with
    | snapshots head rows =>
      obtain ⟨s, hs, rfl, rfl⟩ := hdump
      exact (exact_install h.keyed hs).1
    | _ => exact h.snapshots
  · cases d with
    | tableStats head rows =>
      obtain ⟨s, hs, rfl, rfl⟩ := hdump
      exact (exact_install h.keyed hs).1
    | _ => exact h.tableStats
  · cases d with
    | tableColumnStats head rows =>
      obtain ⟨s, hs, rfl, rfl⟩ := hdump
      exact (exact_install h.keyed hs).1
    | _ => exact h.tableColumnStats

theorem Sound.step {e : CacheEvent} (h : sys.Sound) (hstep : sys.step e = some sys') : sys'.Sound := by
  obtain ⟨writes, newHead, s, older, stamp, -, hstates, hstamp, hnew, hlt, hkeyed, rfl⟩ | ⟨i, b, -, hb, rfl⟩ |
    ⟨kind, i, s, -, hs, rfl⟩ | ⟨i, d, -, hd, rfl⟩ := step_cases hstep
  · exact h.land hstates hstamp hnew hlt hkeyed
  · exact h.fold (List.mem_of_getElem? hb)
  · refine { h with dumps := fun d hd => ?_ }
    rcases List.mem_append.mp hd with hd | hd
    · exact h.dumps d hd
    · rw [List.mem_singleton.mp hd]
      exact h.read hs kind
  · exact h.install hd

/-- A step keeps what the cache can serve exact if and only if, where it is a fold, it finds the projections
    following. -/
theorem Sound.servesExact_iff {e : CacheEvent} (h : sys.Sound) (hexact : sys.ServesExact)
    (hstep : sys.step e = some sys') : sys'.ServesExact ↔ sys.FoldsInOrder e := by
  obtain ⟨writes, newHead, s, older, stamp, rfl, hstates, hstamp, hnew, hlt, hkeyed, rfl⟩ | ⟨i, b, rfl, hb, rfl⟩ |
    ⟨kind, i, s, rfl, hs, rfl⟩ | ⟨i, d, rfl, hd, rfl⟩ := step_cases hstep
  · refine iff_of_true ?_ trivial
    have hsub : ∀ t ∈ sys.states, t ∈ s.applyBatch writes :: sys.states := fun t ht => List.mem_cons_of_mem _ ht
    exact ⟨exact_mono hsub hexact.snapshots, exact_mono hsub hexact.tableStats,
      exact_mono hsub hexact.tableColumnStats⟩
  · have hsound := h.landed b (List.mem_of_getElem? hb)
    have hsnapshots := h.exact_fold_iff (p := .snapshots) hsound h.snapshots hexact.snapshots
    have htables := h.exact_fold_iff (p := .tableStats) hsound h.tableStats hexact.tableStats
    have hcolumns := h.exact_fold_iff (p := .tableColumnStats) hsound h.tableColumnStats hexact.tableColumnStats
    constructor
    · rintro ⟨hs, ht, hc⟩ b' hb'
      obtain rfl : b = b' := Option.some.inj (hb.symm.trans hb')
      exact ⟨hsnapshots.mp hs, htables.mp ht, hcolumns.mp hc⟩
    · intro hfollows
      obtain ⟨hs, ht, hc⟩ := hfollows b hb
      exact ⟨hsnapshots.mpr hs, htables.mpr ht, hcolumns.mpr hc⟩
  · exact iff_of_true ⟨hexact.snapshots, hexact.tableStats, hexact.tableColumnStats⟩ trivial
  · refine iff_of_true ?_ trivial
    have hdump := h.dumps d hd
    cases d with
    | current head records => exact ⟨hexact.snapshots, hexact.tableStats, hexact.tableColumnStats⟩
    | snapshots head rows =>
      obtain ⟨s, hs, rfl, rfl⟩ := hdump
      exact ⟨(exact_install h.keyed hs).2, hexact.tableStats, hexact.tableColumnStats⟩
    | tableStats head rows =>
      obtain ⟨s, hs, rfl, rfl⟩ := hdump
      exact ⟨hexact.snapshots, (exact_install h.keyed hs).2, hexact.tableColumnStats⟩
    | tableColumnStats head rows =>
      obtain ⟨s, hs, rfl, rfl⟩ := hdump
      exact ⟨hexact.snapshots, hexact.tableStats, (exact_install h.keyed hs).2⟩

/-- One committed state and nothing cached. -/
theorem sound_start {s : Store} (hs : s.Keyed) : Sound { states := [s] } where
  ordered := List.pairwise_singleton _ _
  keyed t ht := by rw [List.mem_singleton.mp ht]; exact hs
  landed := by simp
  dumps := by simp
  current := by simp
  snapshots k v h := by simp at h
  tableStats k v h := by simp at h
  tableColumnStats k v h := by simp at h

end CacheSystem

/-- In a run of dumps, landings and folds from a keyed store, everything the cache can serve in any state is
    what a scan of the store at that stamp returns, if and only if every fold finds each installed projection
    following: between the state it is stamped with and the batch no other row of it changed. -/
theorem projections_exact_iff (s : Store) (hs : s.Keyed) (events : List CacheEvent) :
    Runs.Always CacheSystem.step CacheSystem.ServesExact { states := [s] } events ↔
      Runs.Throughout CacheSystem.step CacheSystem.FoldsInOrder { states := [s] } events := by
  refine Runs.always_iff_throughout (fun h hstep => CacheSystem.Sound.step h hstep)
    (fun h hexact hstep => h.servesExact_iff hexact hstep) (CacheSystem.sound_start hs) ?_
  exact ⟨fun _ _ h => (by cases h), fun _ _ h => (by cases h), fun _ _ h => (by cases h)⟩

/-! ## A dump installed between two folds -/

namespace LateInstall

/-- The batch that mints snapshot `n`. -/
def mint (n : Nat) : List StagedWrite :=
  [.snapshot n (some { (default : SnapshotValue) with snapshotId := n }), .head ⟨n, n⟩]

/-- A store at snapshot 0. -/
def start : Store := Store.applyBatch {} (mint 0)

/-- A dump reads at snapshot 0 and installs after batch 1 was folded; batch 2 follows. -/
def events : List CacheEvent :=
  [.read .snapshots 0, .land (mint 1) 1, .fold 0, .install 0, .land (mint 2) 2, .fold 0]

/-- The dump installs before batch 1 lands. -/
def prompt : List CacheEvent :=
  [.read .snapshots 0, .install 0, .land (mint 1) 1, .fold 0, .land (mint 2) 2, .fold 0]

theorem start_keyed : start.Keyed :=
  Store.Keyed.applyBatch ⟨fun _ _ h => by simp at h, fun _ _ h => by simp at h⟩ (by decide +kernel)

/-- `projections_exact_iff` at a dump that installs at once. -/
theorem projections_exact_iff_prompt :
    Runs.Always CacheSystem.step CacheSystem.ServesExact { states := [start] } prompt ↔
      Runs.Throughout CacheSystem.step CacheSystem.FoldsInOrder { states := [start] } prompt :=
  projections_exact_iff start start_keyed prompt

/-- The fold of batch 2 stamps the rows of snapshot 0 with head 2: the cache serves the snapshots 0 and 2, and
    a scan finds 0, 1 and 2. -/
theorem fold_stamps_stale_rows :
    ((Runs.run CacheSystem.step { states := [start] } events).map fun sys =>
      ((sys.cache.snapshots.serve ⟨2, 2⟩).map fun rows => rows.map (·.snapshotId),
        sys.states.head?.map fun s => (s.head, (Projection.snapshots.scan s).map (·.snapshotId)))) =
      some (some [0, 2], some (⟨2, 2⟩, [0, 1, 2])) := by
  decide +kernel

end LateInstall

end Moraine
