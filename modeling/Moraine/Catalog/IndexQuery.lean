-- SUMMARY: Index queries: the keys and bounds they scan, the row ids they find, and where the rows are held.
import Moraine.Catalog.ScopedRead
import Moraine.Store.KeyEncoding

/-!
# Index queries

A query takes an index definition and the live files of its table from a catalog view, and row ids from the
stored entries. An equality query probes encoded keys. A range query scans the entries between two byte bounds,
and an `IS NULL` query those that extend an encoded prefix. Each row id found is then located: in the data file
whose dense range contains it, or inline. The entries are kept typed; each query of them is a read or a scan of the
bytes the store keeps.
-/

namespace Moraine

open Std (ExtTreeMap ExtTreeSet TransOrd LawfulEqOrd)
open OrdMap

/-! ## What a query takes from the view -/

namespace CatalogSnapshot

/-- One index of a table. -/
def indexById (v : CatalogSnapshot) (table id : Nat) : Option IndexInfo := (getNested v.indexes table id).map indexInfo

/-- The live data files of a table, ordered by id. -/
def dataFilesOf (v : CatalogSnapshot) (table : Nat) : List DataFileValue :=
  match v.dataFiles[table]? with
  | some files => files.toList.map (·.2)
  | none => []

/-- An index that answers queries. -/
def readyIndex (v : CatalogSnapshot) (table index : Nat) : Except Error IndexInfo :=
  match v.indexById table index with
  | none => .error (.notFound s!"index {index} on table {table}")
  | some info =>
    match info.state with
    | .ready => .ok info
    | .building | .maintaining => .error (.indexBuilding s!"index {index} is still building")
    | .poisoned => .error (.notFound s!"index {index} was poisoned")

variable {v w : CatalogSnapshot}

theorem readyIndex_congr (h : ∀ k, v.get k = w.get k) (table index : Nat) :
    v.readyIndex table index = w.readyIndex table index := by
  have hvalue : getNested v.indexes table index = getNested w.indexes table index := by
    have hget := h (.entity (.index table index))
    simp only [get] at hget
    exact Option.map_injective (fun a b hab => by cases hab; rfl) hget
  rw [readyIndex, readyIndex, indexById, indexById, hvalue]

theorem dataFilesOf_congr (h : ∀ k, v.get k = w.get k) (table : Nat) : v.dataFilesOf table = w.dataFilesOf table := by
  have hlist : ∀ u : CatalogSnapshot, u.dataFilesOf table = (u.dataFiles[table]?.getD ∅).toList.map (·.2) := by
    intro u
    rw [dataFilesOf]
    cases u.dataFiles[table]? <;> rfl
  have hfiles : v.dataFiles[table]?.getD ∅ = w.dataFiles[table]?.getD ∅ := by
    refine ExtTreeMap.ext_getElem? fun file => ?_
    have hinner : ∀ u : CatalogSnapshot, (u.dataFiles[table]?.getD ∅)[file]? = getNested u.dataFiles table file := by
      intro u
      rw [getNested]
      cases u.dataFiles[table]? <;> simp
    have hget := h (.entity (.file table file))
    simp only [get] at hget
    rw [hinner, hinner]
    exact Option.map_injective (fun a b hab => by cases hab; rfl) hget
  rw [hlist, hlist, hfiles]

end CatalogSnapshot

/-! ## Holders -/

/-- Where a row lives: in a data file with a dense range of row ids, or elsewhere. -/
inductive RowHolder where
  | dataFile (id : Nat)
  | inline
  deriving DecidableEq

structure RowLocation where
  rowId : Nat
  holder : RowHolder
  deriving DecidableEq

/-- The dense row-id ranges of a table's files: start, end and file, sorted. The end saturates. -/
def rowHolders (files : List DataFileValue) : List (Nat × Nat × Nat) :=
  let ranges := files.filterMap fun file =>
    file.rowIdStart.map fun start => (start, min (start + file.recordCount) (2 ^ 64 - 1), file.dataFileId)
  ranges.insertionSort fun a b => (compare a b).isLE = true

/-- The file whose range holds the row: only the last range that starts at or below the id can. -/
def holder (ranges : List (Nat × Nat × Nat)) (rowId : Nat) : RowHolder :=
  match (ranges.takeWhile fun range => range.1 ≤ rowId).getLast? with
  | some (_, stop, file) => if rowId < stop then .dataFile file else .inline
  | none => .inline

def locate (files : List DataFileValue) (rowIds : List Nat) : List RowLocation :=
  let ranges := rowHolders files
  rowIds.map fun rowId => ⟨rowId, holder ranges rowId⟩

/-! ## Encoded keys and bounds -/

/-- One end of a window. -/
inductive Bound (α : Type) where
  | included (value : α)
  | excluded (value : α)
  | unbounded
  deriving DecidableEq

namespace Bound

variable {α β : Type}

def value? : Bound α → Option α
  | .included value | .excluded value => some value
  | .unbounded => none

/-- Maps the bound's value. -/
def mapM {ε : Type} (f : α → Except ε β) : Bound α → Except ε (Bound β)
  | .included value => (f value).map .included
  | .excluded value => (f value).map .excluded
  | .unbounded => .ok .unbounded

end Bound

/-- The refusal of a tuple that does not name every column. -/
def partialTuple (values columns index : Nat) : Error :=
  .constraint (s!"index lookup: {values} values do not address the {columns}-column index {index}; " ++
    "an equality lookup names every column")

/-- The encoded keys of an equality query, each once and in order. -/
def lookupKeys (info : IndexInfo) (index : Nat) (keys : List (List IndexKeyValue)) : Except Error (List CanonicalKey) :=
  (Results.each (fun key =>
    if key.length ≠ info.columns.length then
      .error (partialTuple key.length info.columns.length index)
    else encodeOrderedValues (key.map some) info.directions info.nulls) keys).map
    fun encoded => (ExtTreeSet.ofList encoded).toList

/-- Whether the first `n` columns differ in direction. -/
def mixedDirections (directions : List Direction) (n : Nat) : Bool :=
  (directions.take n).any fun direction => some direction ≠ directions.head?

/-- Whether both bounds name as many columns and agree on those before the range column. -/
def pinnedPrefix (rangeColumn : Nat) : Option (List IndexKeyValue) → Option (List IndexKeyValue) → Bool
  | some low, some high =>
    low.length == high.length && (low.take rangeColumn).isEqv (high.take rangeColumn) IndexKeyValue.valueEq
  | _, _ => false

/-- Maps a value window onto the byte bounds of one scan, and refuses the windows no single scan answers. -/
def encodeRangeBounds (info : IndexInfo) (index : Nat) (lower upper : Bound (List IndexKeyValue)) :
    Except Error (Bound CanonicalKey × Bound CanonicalKey) := do
  let lowerLen := lower.value?.map List.length
  let upperLen := upper.value?.map List.length
  if lowerLen = some 0 || upperLen = some 0 then
    throw (.constraint s!"index_range: a bound of index {index} must name at least one column")
  let widest := max (lowerLen.getD 0) (upperLen.getD 0)
  if widest > info.columns.length then
    throw (.constraint
      s!"index_range: a bound of {widest} values does not fit the {info.columns.length}-column index {index}")
  let rangeColumn := widest - 1
  -- Columns of one direction give one byte range; others must differ in the last named column only.
  if mixedDirections info.directions widest && !pinnedPrefix rangeColumn lower.value? upper.value? then
    throw (.constraint (s!"index_range: index {index} names columns of differing sort directions, " ++
      "so both bounds must pin the same leading values and compare on the last column"))
  let encode := fun values : List IndexKeyValue => encodeOrderedValues (values.map some) info.directions info.nulls
  let (byteLower, byteUpper) :=
    if info.directions[rangeColumn]? = some .descending then (upper, lower) else (lower, upper)
  return (← byteLower.mapM encode, ← byteUpper.mapM encode)

/-- The encoded leading run of an `IS NULL` query. -/
def nullPrefixKey (info : IndexInfo) (index : Nat) (predicates : List (Option IndexKeyValue)) :
    Except Error CanonicalKey := do
  if predicates.isEmpty || predicates.length > info.columns.length then
    throw (.constraint (s!"index_nulls: a prefix of {predicates.length} predicates " ++
      s!"does not fit the {info.columns.length}-column index {index}"))
  if predicates.all Option.isSome then
    throw (.constraint "index_nulls: the prefix names no IS NULL; use index_lookup for pure equality")
  encodeOrderedValues predicates info.directions info.nulls

/-! ## Scans of the entries -/

/-- The prefix all non-null values of a leading column share. -/
def nonNullFlagKey (nulls : NullOrder) : CanonicalKey := [(nullFlags nulls).2]

/-- The smallest byte string above every one that begins with `bytes`; none above bytes that are all `0xff`. -/
def incrementPrefix (bytes : List UInt8) : Option (List UInt8) :=
  match bytes.reverse.dropWhile (· = 0xff) with
  | [] => none
  | last :: rest => some ((last + 1) :: rest).reverse

/-- The framed value without its terminator: every entry that extends the value begins with it. -/
def indexValueBody (key : CanonicalKey) : List UInt8 := (frameBytes key).dropLast

def indexValueAbove (key : CanonicalKey) : Option (List UInt8) := incrementPrefix (indexValueBody key)

namespace IndexEntries

/-- The entries of one index in key order: the bytes after the index's own prefix, and the row id. -/
def entriesOf (s : IndexEntries) (indexId : Nat) (unique : Bool) : List (List UInt8 × Nat) :=
  if unique then
    s.unique.toList.filterMap fun (k, rowId) => if k.1 = indexId then some (frameBytes k.2, rowId) else none
  else
    s.multi.toList.filterMap fun (id, key, rowId) =>
      if id = indexId then some (frameBytes key ++ beBytes rowId 8, rowId) else none

/-- Whether the bytes lie between the bounds. -/
def inRange (start stop : Bound (List UInt8)) (bytes : List UInt8) : Bool :=
  (match start with
    | .included b => !(bytes < b)
    | .excluded b => b < bytes
    | .unbounded => true) &&
  match stop with
  | .included b => !(b < bytes)
  | .excluded b => bytes < b
  | .unbounded => true

def order (reverse : Bool) (rowIds : List Nat) : List Nat := if reverse then rowIds.reverse else rowIds

/-- The row ids of the entries between two encoded values. An open side ends where the leading column's non-null
    values do. -/
def rangeRowIds (s : IndexEntries) (indexId : Nat) (unique : Bool) (leadingNulls : NullOrder)
    (lower upper : Bound CanonicalKey) (reverse : Bool) : List Nat :=
  let nonNull := nonNullFlagKey leadingNulls
  let pastNonNull : Bound (List UInt8) := match indexValueAbove nonNull with
    | some above => .excluded above
    | none => .unbounded
  let start : Bound (List UInt8) := match lower with
    | .included key => .included (frameBytes key)
    -- Every entry that shares the bound's value is skipped.
    | .excluded key => match indexValueAbove key with
      | some above => .included above
      | none => .excluded (frameBytes key)
    | .unbounded => .included (indexValueBody nonNull)
  let stop : Bound (List UInt8) := match upper with
    | .included key => match indexValueAbove key with
      | some above => .excluded above
      | none => pastNonNull
    | .excluded key => .excluded (frameBytes key)
    | .unbounded => pastNonNull
  order reverse (((s.entriesOf indexId unique).filter fun e => inRange start stop e.1).map (·.2))

/-- The row ids of the entries that extend the prefix. A row with a NULL is stored as a non-unique entry. -/
def nullPrefixRowIds (s : IndexEntries) (indexId : Nat) (key : CanonicalKey) (reverse : Bool) : List Nat :=
  order reverse (((s.entriesOf indexId false).filter fun e => (indexValueBody key).isPrefixOf e.1).map (·.2))

/-! ## Stored keys -/

/-- The entries of one kind in key order, each under the key the store has it under. -/
def stored (s : IndexEntries) : IndexKind → List (Key × Nat)
  | .unique => s.unique.toList.map fun e => (.index (.unique e.1.1 e.1.2), e.2)
  | .multi => s.multi.toList.map fun e => (.index (.multi e.1 e.2.1 e.2.2), e.2.2)

/-- The numbers of the entries are `u64`s. -/
def Fits (s : IndexEntries) : Prop := ∀ kind, ∀ e ∈ s.stored kind, e.1.Fits

theorem drop_encode (key : IndexKey) :
    (Key.index key).encode.drop INDEX_ENTRY_PREFIX_LEN = (key.fields.drop 2).flatMap Field.encode := by
  cases key <;>
    simp [Key.encode, Key.fields, IndexKey.fields, Field.encode, INDEX_ENTRY_PREFIX_LEN, INDEX_KIND_PREFIX_LEN]

/-- The prefix of a value follows that of its index. -/
theorem indexMultiValuePrefix_eq (indexId : Nat) (key : CanonicalKey) :
    indexMultiValuePrefix indexId key = indexIndexPrefix .multi indexId ++ frameBytes key := by
  have hsplit : Key.encode (.index (.multi indexId key 0)) =
      (indexIndexPrefix .multi indexId ++ frameBytes key) ++ beBytes 0 8 := by
    simp [indexIndexPrefix, prefixOf, IndexKind.sample, Key.encode, Key.fields, IndexKey.fields, Field.encode,
      INDEX_ENTRY_PREFIX_LEN, INDEX_KIND_PREFIX_LEN]
  simp only [indexMultiValuePrefix, hsplit]
  exact List.take_left' (by simp [← Nat.add_assoc])

theorem prefix_encode_iff {key : IndexKey} {indexId : Nat} (hkey : Key.Fits (.index key)) (hindex : indexId < 2 ^ 64) :
    indexIndexPrefix key.kind indexId <+: (Key.index key).encode ↔ key.indexId = indexId := by
  rw [indexIndexPrefix_iff hkey key.kind hindex]
  simp

/-- The prefixes of two parts are tested one after the other. -/
theorem append_prefix_iff {p q bytes : List UInt8} : p ++ q <+: bytes ↔ p <+: bytes ∧ q <+: bytes.drop p.length := by
  constructor
  · rintro ⟨rest, rfl⟩
    rw [List.append_assoc, List.drop_left]
    exact ⟨List.prefix_append .., List.prefix_append ..⟩
  · rintro ⟨⟨rest, rfl⟩, h⟩
    rwa [List.drop_left, ← List.prefix_append_right_inj p] at h

section Stored

variable {s : IndexEntries} {indexId : Nat} (hs : s.Fits)

include hs

/-- Key order is the order of the stored bytes. -/
theorem pairwise_stored (kind : IndexKind) :
    (s.stored kind).Pairwise fun e e' => compare e.1.encode e'.1.encode = .lt := by
  have horder : (s.stored kind).Pairwise fun e e' => List.compareLex Field.compare e.1.fields e'.1.fields = .lt := by
    cases kind with
    | unique =>
      refine List.pairwise_map.mpr (ExtTreeMap.ordered_keys_toList.imp fun {a b} hlt => ?_)
      change (compare a.1.1 b.1.1).then (compare a.1.2 b.1.2) = .lt at hlt
      simp only [Key.fields, IndexKey.fields, List.compareLex, Field.compare, Std.compare_self]
      cases hid : compare a.1.1 b.1.1 <;> cases hkey : compare a.1.2 b.1.2 <;> simp_all
    | multi =>
      refine List.pairwise_map.mpr (ExtTreeSet.ordered_toList.imp fun {a b} hlt => ?_)
      change (compare a.1 b.1).then ((compare a.2.1 b.2.1).then (compare a.2.2 b.2.2)) = .lt at hlt
      simp only [Key.fields, IndexKey.fields, List.compareLex, Field.compare, Std.compare_self]
      cases hid : compare a.1 b.1 <;> cases hkey : compare a.2.1 b.2.1 <;> simp_all
  exact horder.imp_of_mem fun he he' hlt => (Key.compare_encode (hs kind _ he) (hs kind _ he')).trans hlt

variable (hindex : indexId < 2 ^ 64)

include hindex

/-- The entries of an index are a scan of its prefix. -/
theorem entriesOf_eq_scan (unique : Bool) :
    s.entriesOf indexId unique = ((s.stored (if unique then .unique else .multi)).filter fun e =>
      (indexIndexPrefix (if unique then .unique else .multi) indexId).isPrefixOf e.1.encode).map
        fun e => (e.1.encode.drop INDEX_ENTRY_PREFIX_LEN, e.2) := by
  rw [← List.filterMap_eq_map, List.filterMap_filter]
  cases unique with
  | true =>
    rw [entriesOf, if_pos rfl, if_pos rfl, stored, List.filterMap_map]
    refine List.filterMap_congr fun x hx => ?_
    have hpre := prefix_encode_iff (hs .unique _ (List.mem_map_of_mem hx)) hindex
    simp only [IndexKey.kind, IndexKey.indexId] at hpre
    simp [hpre, drop_encode, IndexKey.fields, Field.encode]
  | false =>
    rw [entriesOf, if_neg Bool.false_ne_true, if_neg Bool.false_ne_true, stored, List.filterMap_map]
    refine List.filterMap_congr fun x hx => ?_
    have hpre := prefix_encode_iff (hs .multi _ (List.mem_map_of_mem hx)) hindex
    simp only [IndexKey.kind, IndexKey.indexId] at hpre
    simp [hpre, drop_encode, IndexKey.fields, Field.encode]

/-- An `IS NULL` query is a scan of the value's prefix without the terminator. -/
theorem nullPrefixRowIds_eq_scan (key : CanonicalKey) (reverse : Bool) :
    s.nullPrefixRowIds indexId key reverse = order reverse (((s.stored .multi).filter fun e =>
      (indexMultiValuePrefix indexId key).dropLast.isPrefixOf e.1.encode).map (·.2)) := by
  have hcut : (indexMultiValuePrefix indexId key).dropLast = indexIndexPrefix .multi indexId ++ indexValueBody key := by
    rw [indexMultiValuePrefix_eq, List.dropLast_append_of_ne_nil (by simp [frameBytes]), indexValueBody]
  have hlen : (indexIndexPrefix .multi indexId).length = INDEX_ENTRY_PREFIX_LEN := by
    simp [indexIndexPrefix, prefixOf, IndexKind.sample, Key.encode, Key.fields, IndexKey.fields, Field.encode,
      INDEX_ENTRY_PREFIX_LEN, INDEX_KIND_PREFIX_LEN]
  have hentries := entriesOf_eq_scan hs hindex false
  simp only [Bool.false_eq_true, if_false] at hentries
  rw [nullPrefixRowIds, hentries, List.filter_map, List.map_map, List.filter_filter, hcut]
  refine congrArg (order reverse) (congrArg (List.map _) (List.filter_congr fun e _ => ?_))
  rw [Bool.eq_iff_iff]
  simp only [Function.comp_apply, Bool.and_eq_true, List.isPrefixOf_iff_prefix]
  rw [append_prefix_iff, hlen, and_comm]

/-- A lookup in a unique index reads one key. -/
theorem mem_lookupRowIds_unique (key : CanonicalKey) (r : Nat) :
    r ∈ s.lookupRowIds indexId true key ↔
      ∃ e ∈ s.stored .unique, e.1.encode = Key.encode (.index (.unique indexId key)) ∧ e.2 = r := by
  have hkey : Key.Fits (.index (.unique indexId key)) := by simpa [Key.Fits, Key.fields, IndexKey.fields] using hindex
  rw [lookupRowIds, if_pos rfl, Option.mem_toList]
  constructor
  · intro h
    exact ⟨_, List.mem_map_of_mem (ExtTreeMap.mem_toList_iff_getElem?_eq_some.mpr h), rfl, rfl⟩
  · rintro ⟨e, he, henc, rfl⟩
    have heq := Key.eq_of_prefix_encode (hs .unique e he) hkey (henc ▸ List.prefix_rfl)
    obtain ⟨x, hx, rfl⟩ := List.mem_map.mp he
    cases heq
    exact ExtTreeMap.mem_toList_iff_getElem?_eq_some.mp hx

/-- A lookup in a non-unique index is a scan of the value's prefix. -/
theorem lookupRowIds_eq_scan (key : CanonicalKey) :
    s.lookupRowIds indexId false key =
      ((s.stored .multi).filter fun e => (indexMultiValuePrefix indexId key).isPrefixOf e.1.encode).map (·.2) := by
  rw [lookupRowIds, if_neg Bool.false_ne_true, stored, List.filter_map, List.map_map]
  refine congrArg (List.map _) (List.filter_congr fun x hx => ?_)
  have hk := indexMultiValuePrefix_iff (hs .multi _ (List.mem_map_of_mem hx)) hindex key
  rw [Bool.eq_iff_iff]
  simp [hk]

end Stored

end IndexEntries

end Moraine
