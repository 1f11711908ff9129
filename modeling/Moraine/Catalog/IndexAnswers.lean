-- SUMMARY: Equality and IS NULL queries return exactly the rows they ask for, over an index of its rows' entries.
import Moraine.Catalog.ReadOnlyHandle
import Moraine.Store.IndexOrder

/-!
# What index queries return

An index stores one entry for each of its rows: under the value alone if the index is unique and the row has no NULL
in an indexed column, under the value and the row id otherwise. An equality query finds the entries of one value. An
`IS NULL` query scans the second kind only, which holds every row it can ask for, and cuts the terminator off the
framed prefix, so that the scan takes in every key that extends the prefix.
-/

namespace Moraine

open Std (ExtTreeMap ExtTreeSet)
open OrdMap OrderCode Following

/-! ## An index and its rows -/

/-- The columns of an index over columns of these types. -/
def IndexInfo.shape (info : IndexInfo) (types : List KeyType) : List ColumnShape :=
  types.zipIdx.map fun (type, i) => ⟨type, info.directions[i]?.getD .ascending, info.nulls[i]?.getD .last⟩

/-- The key of an indexed tuple. -/
def IndexInfo.key (info : IndexInfo) (values : List (Option IndexKeyValue)) : Except Error CanonicalKey :=
  encodeOrderedValues values info.directions info.nulls

/-- The entries of index `index` are those of its live rows: `rows` gives the indexed values of each. -/
structure Indexed (s : IndexEntries) (index : Nat) (info : IndexInfo) (types : List KeyType)
    (rows : Nat → Option (List (Option IndexKeyValue))) : Prop where
  arity : types.length = info.columns.length
  typed : ∀ r v, rows r = some v → Typed (info.shape types) v
  rowId_lt : ∀ r v, rows r = some v → r < 2 ^ 64
  encodes : ∀ r v, rows r = some v → ∃ key, info.key v = .ok key
  unique : ∀ key r, s.unique[(index, key)]? = some r ↔
    info.unique = true ∧ ∃ v, rows r = some v ∧ none ∉ v ∧ info.key v = .ok key
  multi : ∀ key r, (index, key, r) ∈ s.multi ↔
    ∃ v, rows r = some v ∧ (info.unique = true → none ∈ v) ∧ info.key v = .ok key

/-- The index order on rows: by value, and by row id where values are equal. -/
def RowBefore (shape : List ColumnShape) (rows : Nat → Option (List (Option IndexKeyValue))) (r r' : Nat) : Prop :=
  ∃ v w, rows r = some v ∧ rows r' = some w ∧ (tupleCompare shape v w).then (compare r r') = .lt

/-- The row ids are in index order, or in the reverse of it. -/
def InOrder (shape : List ColumnShape) (rows : Nat → Option (List (Option IndexKeyValue))) (reverse : Bool)
    (rowIds : List Nat) : Prop :=
  (IndexEntries.order reverse rowIds).Pairwise (RowBefore shape rows)

theorem IndexInfo.length_shape (info : IndexInfo) (types : List KeyType) :
    (info.shape types).length = types.length := by
  simp [shape]

/-- Values are encoded in the orders of the columns they are given for. -/
theorem IndexInfo.key_eq (info : IndexInfo) (types : List KeyType) {values : List (Option IndexKeyValue)}
    (h : values.length ≤ types.length) :
    info.key values = encodeOrderedKey (orderedColumns (info.shape types) values) := by
  have hcolumns : values.zipIdx.map (fun x : Option IndexKeyValue × Nat =>
      (⟨x.1, info.directions[x.2]?.getD .ascending, info.nulls[x.2]?.getD .last⟩ : OrderedColumn)) =
      orderedColumns (info.shape types) values := by
    refine List.ext_getElem (by simp [orderedColumns, shape, h]) fun i hi hi' => ?_
    simp [orderedColumns, shape, ColumnShape.hold]
  rw [key, encodeOrderedValues, ← hcolumns]

/-- A leading run of values that is accepted. -/
theorem IndexInfo.fitting_run {info : IndexInfo} {types : List KeyType} {run : List (Option IndexKeyValue)}
    {key : CanonicalKey} (hrun : Typed ((info.shape types).take run.length) run) (hkey : info.key run = .ok key) :
    Fitting ((info.shape types).take run.length) run ∧ keyBytes (info.shape types) run = key := by
  have hlen := hrun.length_eq
  rw [List.length_take, info.length_shape] at hlen
  exact fitting_of_run hrun (by rwa [← info.key_eq types (by omega)])

/-! ## Entries -/

/-- What follows the framed value in an entry of one kind. -/
def entryTail (unique : Bool) (rowId : Nat) : List UInt8 := if unique then [] else beBytes rowId 8

/-- The kind of entry a row has. -/
def IndexInfo.Stores (info : IndexInfo) (unique : Bool) (values : List (Option IndexKeyValue)) : Prop :=
  if unique then info.unique = true ∧ none ∉ values else info.unique = true → none ∈ values

section Indexed

variable {s : IndexEntries} {index : Nat} {info : IndexInfo} {types : List KeyType}
  {rows : Nat → Option (List (Option IndexKeyValue))} (h : Indexed s index info types rows)

include h

theorem Indexed.fitting {r : Nat} {v : List (Option IndexKeyValue)} {key : CanonicalKey} (hr : rows r = some v)
    (hkey : info.key v = .ok key) : Fitting (info.shape types) v ∧ keyBytes (info.shape types) v = key := by
  have htyped := h.typed r v hr
  have hlen := htyped.length_eq
  rw [info.length_shape] at hlen
  exact fitting_of_encodeOrderedKey htyped (by rwa [← info.key_eq types hlen.ge])

/-- The entries of one kind are those of the rows stored as that kind. -/
theorem Indexed.mem_entriesOf (unique : Bool) (bytes : List UInt8) (r : Nat) :
    (bytes, r) ∈ s.entriesOf index unique ↔ ∃ v key, rows r = some v ∧ info.Stores unique v ∧ info.key v = .ok key ∧
      bytes = frameBytes key ++ entryTail unique r := by
  cases unique with
  | true =>
    have hmem : (bytes, r) ∈ s.entriesOf index true ↔
        ∃ key, s.unique[(index, key)]? = some r ∧ bytes = frameBytes key := by
      simp only [IndexEntries.entriesOf, if_true, List.mem_filterMap, Prod.exists, Option.ite_none_right_eq_some,
        Option.some.injEq, Prod.mk.injEq, ExtTreeMap.mem_toList_iff_getElem?_eq_some]
      constructor
      · rintro ⟨i, key, r', hget, rfl, rfl, rfl⟩
        exact ⟨key, hget, rfl⟩
      · rintro ⟨key, hget, rfl⟩
        exact ⟨index, key, r, hget, rfl, rfl, rfl⟩
    rw [hmem]
    simp only [h.unique, IndexInfo.Stores, entryTail, if_true, List.append_nil]
    constructor
    · rintro ⟨key, ⟨hu, v, hr, hnull, hkey⟩, hb⟩
      exact ⟨v, key, hr, ⟨hu, hnull⟩, hkey, hb⟩
    · rintro ⟨v, key, hr, ⟨hu, hnull⟩, hkey, hb⟩
      exact ⟨key, ⟨hu, v, hr, hnull, hkey⟩, hb⟩
  | false =>
    have hmem : (bytes, r) ∈ s.entriesOf index false ↔
        ∃ key, (index, key, r) ∈ s.multi ∧ bytes = frameBytes key ++ beBytes r 8 := by
      simp only [IndexEntries.entriesOf, Bool.false_eq_true, if_false, List.mem_filterMap, Prod.exists,
        Option.ite_none_right_eq_some, Option.some.injEq, Prod.mk.injEq, ExtTreeSet.mem_toList]
      constructor
      · rintro ⟨i, key, r', hget, rfl, rfl, rfl⟩
        exact ⟨key, hget, rfl⟩
      · rintro ⟨key, hget, rfl⟩
        exact ⟨index, key, r, hget, rfl, rfl, rfl⟩
    rw [hmem]
    simp only [h.multi, IndexInfo.Stores, entryTail, Bool.false_eq_true, if_false]
    constructor
    · rintro ⟨key, ⟨v, hr, hnull, hkey⟩, hb⟩
      exact ⟨v, key, hr, hnull, hkey, hb⟩
    · rintro ⟨v, key, hr, hnull, hkey, hb⟩
      exact ⟨key, ⟨v, hr, hnull, hkey⟩, hb⟩

theorem Indexed.rowBefore {r r' : Nat} {v w : List (Option IndexKeyValue)} {key key' : CanonicalKey}
    (hr : rows r = some v) (hr' : rows r' = some w) (hkey : info.key v = .ok key) (hkey' : info.key w = .ok key')
    (hlt : (compare key key').then (compare r r') = .lt) : RowBefore (info.shape types) rows r r' := by
  obtain ⟨hv, rfl⟩ := h.fitting hr hkey
  obtain ⟨hw, rfl⟩ := h.fitting hr' hkey'
  rw [(decides_tuple hv hw).compare_eq] at hlt
  exact ⟨v, w, hr, hr', hlt⟩

/-- The entries of one kind are in index order. -/
theorem Indexed.pairwise_entriesOf (unique : Bool) :
    (s.entriesOf index unique).Pairwise fun e e' => RowBefore (info.shape types) rows e.2 e'.2 := by
  cases unique with
  | true =>
    rw [IndexEntries.entriesOf, if_pos rfl, List.pairwise_filterMap]
    refine ExtTreeMap.ordered_keys_toList.imp_of_mem fun {a b} ha hb hlt e he e' he' => ?_
    obtain ⟨⟨i, key⟩, r⟩ := a
    obtain ⟨⟨j, key'⟩, r'⟩ := b
    obtain ⟨rfl, heq⟩ := Option.ite_none_right_eq_some.mp he
    obtain ⟨rfl, heq'⟩ := Option.ite_none_right_eq_some.mp he'
    obtain rfl := Option.some.inj heq
    obtain rfl := Option.some.inj heq'
    obtain ⟨-, v, hr, -, hkey⟩ := (h.unique key r).mp (ExtTreeMap.mem_toList_iff_getElem?_eq_some.mp ha)
    obtain ⟨-, w, hr', -, hkey'⟩ := (h.unique key' r').mp (ExtTreeMap.mem_toList_iff_getElem?_eq_some.mp hb)
    change (compare j j).then (compare key key') = .lt at hlt
    rw [Std.compare_self, Ordering.eq_then] at hlt
    exact h.rowBefore hr hr' hkey hkey' (by rw [hlt]; rfl)
  | false =>
    rw [IndexEntries.entriesOf, if_neg Bool.false_ne_true, List.pairwise_filterMap]
    refine ExtTreeSet.ordered_toList.imp_of_mem fun {a b} ha hb hlt e he e' he' => ?_
    obtain ⟨i, key, r⟩ := a
    obtain ⟨j, key', r'⟩ := b
    obtain ⟨rfl, heq⟩ := Option.ite_none_right_eq_some.mp he
    obtain ⟨rfl, heq'⟩ := Option.ite_none_right_eq_some.mp he'
    obtain rfl := Option.some.inj heq
    obtain rfl := Option.some.inj heq'
    obtain ⟨v, hr, -, hkey⟩ := (h.multi key r).mp (ExtTreeSet.mem_toList.mp ha)
    obtain ⟨w, hr', -, hkey'⟩ := (h.multi key' r').mp (ExtTreeSet.mem_toList.mp hb)
    change (compare j j).then ((compare key key').then (compare r r')) = .lt at hlt
    rw [Std.compare_self, Ordering.eq_then] at hlt
    exact h.rowBefore hr hr' hkey hkey' hlt

/-- Filtering the entries of one kind keeps them in index order. -/
theorem Indexed.inOrder_filter (unique reverse : Bool) (p : List UInt8 × Nat → Bool) :
    InOrder (info.shape types) rows reverse
      (IndexEntries.order reverse (((s.entriesOf index unique).filter p).map (·.2))) := by
  have hpairs : (((s.entriesOf index unique).filter p).map (·.2)).Pairwise (RowBefore (info.shape types) rows) :=
    List.pairwise_map.mpr ((h.pairwise_entriesOf unique).filter p)
  cases reverse
  · exact hpairs
  · simpa [InOrder, IndexEntries.order] using hpairs

end Indexed

/-! ## Prefixes of framed values -/

theorem indexValueBody_eq (key : CanonicalKey) :
    indexValueBody key = key.flatMap fun b => if b ≤ 1 then [0x01, b] else [b] := by
  rw [indexValueBody, frameBytes, List.dropLast_concat]

/-- The body of a framed prefix begins exactly the framed values that extend the prefix. -/
theorem indexValueBody_prefix_iff (p c : CanonicalKey) (t : List UInt8) :
    indexValueBody p <+: frameBytes c ++ t ↔ p <+: c := by
  simp only [indexValueBody_eq]
  induction p generalizing c with
  | nil => simp
  | cons a p ih =>
    rw [List.flatMap_cons]
    cases c with
    | nil =>
      -- The terminator is below the first byte of any escaped byte.
      refine iff_of_false (fun hpre => ?_) (by simp)
      have hhead := List.IsPrefix.trans (List.prefix_append _ _) hpre
      split_ifs at hhead with ha
      · simp [frameBytes] at hhead
      · simp only [frameBytes, List.flatMap_nil, List.nil_append, List.cons_append, List.cons_prefix_cons] at hhead
        exact ha (hhead.1 ▸ by decide)
    | cons b c =>
      have hframe : frameBytes (b :: c) ++ t = (if b ≤ 1 then [0x01, b] else [b]) ++ (frameBytes c ++ t) := by
        simp [frameBytes]
      rw [hframe, List.cons_prefix_cons]
      by_cases hab : a = b
      · subst hab
        rw [List.prefix_append_right_inj, ih]
        simp
      · refine iff_of_false (fun hpre => hab ?_) (fun hpre => hab hpre.1)
        have hhead := List.IsPrefix.trans (List.prefix_append _ _) hpre
        exact Std.LawfulEqOrd.compare_eq_iff_eq.mp (((decides_escape a b).prefix_iff _).mp hhead)

/-! ## Queries -/

/-- The row holds the values: NULL where they are NULL, and equal values elsewhere. -/
def Holds (values v : List (Option IndexKeyValue)) : Prop := List.Forall₂ SameValue values v

theorem Holds.none_mem {values v : List (Option IndexKeyValue)} (h : Holds values v) : none ∈ values ↔ none ∈ v := by
  induction h with
  | nil => rfl
  | @cons a b _ _ hab _ ih =>
    rw [List.mem_cons, List.mem_cons, ih]
    cases a <;> cases b <;> simp_all [SameValue]

section Indexed

variable {s : IndexEntries} {index : Nat} {info : IndexInfo} {types : List KeyType}
  {rows : Nat → Option (List (Option IndexKeyValue))} (h : Indexed s index info types rows)

include h

/-- A row has the key of an accepted tuple exactly if it holds the tuple. -/
theorem Indexed.key_eq_iff {values v : List (Option IndexKeyValue)} {key : CanonicalKey} {r : Nat}
    (htyped : Typed (info.shape types) values) (hkey : info.key values = .ok key) (hr : rows r = some v) :
    info.key v = .ok key ↔ Holds values v := by
  have hlen := htyped.length_eq
  rw [info.length_shape] at hlen
  obtain ⟨hfit, rfl⟩ := fitting_of_encodeOrderedKey htyped (by rwa [← info.key_eq types hlen.ge])
  obtain ⟨key, hv⟩ := h.encodes r v hr
  obtain ⟨hfitv, rfl⟩ := h.fitting hr hv
  rw [hv, Except.ok.injEq, eq_comm, (decides_tuple hfit hfitv).eq_iff, tupleCompare_eq_iff htyped hfitv.typed, Holds]

/-- The rows found under a key. -/
theorem Indexed.mem_lookupRowIds (key : CanonicalKey) (r : Nat) :
    r ∈ s.lookupRowIds index info.unique key ↔
      ∃ v, rows r = some v ∧ (info.unique = true → none ∉ v) ∧ info.key v = .ok key := by
  cases hu : info.unique with
  | true => simp [IndexEntries.lookupRowIds, h.unique, hu]
  | false =>
    have hmem : r ∈ s.lookupRowIds index false key ↔ (index, key, r) ∈ s.multi := by
      simp [IndexEntries.lookupRowIds, ExtTreeSet.mem_toList]
    rw [hmem, h.multi]
    simp [hu]

/-- The rows of an equality query. -/
theorem Indexed.mem_lookup_iff {values : List IndexKeyValue} {key : CanonicalKey}
    (htyped : Typed (info.shape types) (values.map some)) (hkey : info.key (values.map some) = .ok key) (r : Nat) :
    r ∈ s.lookupRowIds index info.unique key ↔ ∃ v, rows r = some v ∧ Holds (values.map some) v := by
  rw [h.mem_lookupRowIds]
  constructor
  · rintro ⟨v, hr, -, hv⟩
    exact ⟨v, hr, (h.key_eq_iff htyped hkey hr).mp hv⟩
  · rintro ⟨v, hr, hv⟩
    refine ⟨v, hr, fun _ hnull => ?_, (h.key_eq_iff htyped hkey hr).mpr hv⟩
    simpa using hv.none_mem.mpr hnull

/-- A prefix with an `IS NULL` is matched by rows stored under their row ids only. -/
theorem Indexed.mem_nullPrefixRowIds {predicates : List (Option IndexKeyValue)} {key : CanonicalKey} (reverse : Bool)
    (hnull : none ∈ predicates) (htyped : Typed ((info.shape types).take predicates.length) predicates)
    (hkey : info.key predicates = .ok key) (r : Nat) :
    r ∈ s.nullPrefixRowIds index key reverse ↔
      ∃ v, rows r = some v ∧ Holds predicates (v.take predicates.length) := by
  obtain ⟨hfit, rfl⟩ := IndexInfo.fitting_run htyped hkey
  have hmem : r ∈ s.nullPrefixRowIds index (keyBytes (info.shape types) predicates) reverse ↔
      ∃ bytes, (bytes, r) ∈ s.entriesOf index false ∧
        indexValueBody (keyBytes (info.shape types) predicates) <+: bytes := by
    cases reverse <;> simp [IndexEntries.nullPrefixRowIds, IndexEntries.order]
  rw [hmem]
  constructor
  · rintro ⟨bytes, hentry, hpre⟩
    obtain ⟨v, key, hr, -, hv, rfl⟩ := (h.mem_entriesOf false _ _).mp hentry
    obtain ⟨hfitv, rfl⟩ := h.fitting hr hv
    rw [indexValueBody_prefix_iff, runKey_prefix_iff hfit hfitv] at hpre
    exact ⟨v, hr, hpre⟩
  · rintro ⟨v, hr, hv⟩
    obtain ⟨key, hkv⟩ := h.encodes r v hr
    obtain ⟨hfitv, rfl⟩ := h.fitting hr hkv
    refine ⟨_, (h.mem_entriesOf false _ _).mpr ⟨v, _, hr, fun _ => ?_, hkv, rfl⟩, ?_⟩
    · exact List.mem_of_mem_take (hv.none_mem.mp hnull)
    · rwa [indexValueBody_prefix_iff, runKey_prefix_iff hfit hfitv]

end Indexed

/-- Values that SQL holds equal take as many bytes and fit alike. -/
theorem IndexKeyValue.SqlEq.encodedLen {a b : IndexKeyValue} {type : KeyType} (ha : a.HasType type)
    (hb : b.HasType type) (h : a.SqlEq b) : a.encodedLen = b.encodedLen ∧ a.fits = b.fits := by
  cases ha <;> cases hb <;> simp_all [SqlEq, IndexKeyValue.encodedLen, fits]

theorem filterMap_orderedColumns {shape : List ColumnShape} {values : List (Option IndexKeyValue)}
    (h : values.length ≤ shape.length) :
    (orderedColumns shape values).filterMap OrderedColumn.value = values.filterMap id := by
  induction values generalizing shape with
  | nil => simp [orderedColumns]
  | cons v values ih =>
    cases shape with
    | nil => simp at h
    | cons column shape =>
      have hlength : values.length ≤ shape.length := by simpa using h
      have hrest := ih hlength
      rw [orderedColumns] at hrest
      cases v <;> simp [orderedColumns, ColumnShape.hold, hrest]

theorem Holds.map_encodedLen {shape : List ColumnShape} {values v : List (Option IndexKeyValue)}
    (htyped : Typed shape values) (hv : Typed shape v) (h : Holds values v) :
    (values.filterMap id).map IndexKeyValue.encodedLen = (v.filterMap id).map IndexKeyValue.encodedLen ∧
      (values.filterMap id).map IndexKeyValue.fits = (v.filterMap id).map IndexKeyValue.fits := by
  induction htyped generalizing v with
  | nil =>
    cases h
    exact ⟨rfl, rfl⟩
  | @cons _ a _ _ ha _ ih =>
    cases hv with
    | @cons _ b _ _ hb hbs =>
      cases h with
      | cons hab habs =>
        have hrest := ih hbs habs
        cases a <;> cases b
        · simpa using hrest
        · exact hab.elim
        · exact hab.elim
        · have := IndexKeyValue.SqlEq.encodedLen (ha _ rfl) (hb _ rfl) hab
          simpa [this.1, this.2] using hrest

/-- Where one tuple is accepted, every tuple equal to it is. -/
theorem IndexInfo.key_ok_of_holds {info : IndexInfo} {types : List KeyType} {values v : List (Option IndexKeyValue)}
    {key : CanonicalKey} (htyped : Typed (info.shape types) values) (hv : Typed (info.shape types) v)
    (hkey : info.key v = .ok key) (h : Holds values v) : ∃ key', info.key values = .ok key' := by
  have hlen := htyped.length_eq
  have hlen' := hv.length_eq
  have hshape := info.length_shape types
  obtain ⟨hlens, hall⟩ := h.map_encodedLen htyped hv
  rw [info.key_eq types (by omega), encodeOrderedKey_eq_ok, filterMap_orderedColumns hlen'.ge] at hkey
  obtain ⟨hfits, hsum, -⟩ := hkey
  refine ⟨keyBytes (info.shape types) values, ?_⟩
  rw [info.key_eq types (by omega), encodeOrderedKey_eq_ok, filterMap_orderedColumns hlen.ge]
  simp only [IndexKeyValue.length_encode] at hsum ⊢
  refine ⟨fun a ha => ?_, hlens ▸ hsum, rfl⟩
  obtain ⟨b, hb, heq⟩ := List.mem_map.mp (hall ▸ List.mem_map_of_mem ha)
  rw [← heq]
  exact hfits b hb

theorem toList_insert_empty (key : CanonicalKey) : ((∅ : ExtTreeSet CanonicalKey).insert key).toList = [key] := by
  have hnodup : ((∅ : ExtTreeSet CanonicalKey).insert key).toList.Nodup := by
    refine ExtTreeSet.ordered_toList.imp fun {a b} hlt heq => ?_
    rw [heq, Std.compare_self] at hlt
    cases hlt
  refine List.perm_singleton.mp ((List.perm_ext_iff_of_nodup hnodup (List.nodup_singleton key)).mpr fun a => ?_)
  rw [ExtTreeSet.mem_toList, ExtTreeSet.mem_insert, Std.LawfulEqOrd.compare_eq_iff_eq, List.mem_singleton, eq_comm]
  simp

section Answers

variable {Row : Type} {s : StoreState Row} {cache : ProjectionCache} {view : CatalogSnapshot} {table index : Nat}
  {info : IndexInfo} (hready : view.readyIndex table index = .ok info)

include hready

/-- An equality query of one tuple, at one store state. -/
theorem alone_probe (values : List IndexKeyValue) :
    (Prog.alone s cache (Catalog.probe table index [values] view)).2 =
      if values.length ≠ info.columns.length then
        .error (partialTuple values.length info.columns.length index)
      else (info.key (values.map some)).map fun key =>
        locate (view.dataFilesOf table) (s.entries.lookupRowIds index info.unique key).reverse.dedup.reverse := by
  have hkeys : lookupKeys info index [values] = if values.length ≠ info.columns.length then
      .error (partialTuple values.length info.columns.length index)
      else (info.key (values.map some)).map fun key => [key] := by
    unfold lookupKeys
    split_ifs with hlen
    · simp [Results.each, hlen, Except.map]
    · cases hkey : info.key (values.map some) with
      | error e =>
        rw [IndexInfo.key] at hkey
        simp [Results.each, hlen, hkey, Except.map]
      | ok key =>
        rw [IndexInfo.key] at hkey
        simp [Results.each, hlen, hkey, Except.map, toList_insert_empty]
  simp only [Catalog.probe, Prog.alone_bind, Prog.alone_ofExcept, hready, hkeys]
  split_ifs
  · rfl
  · cases info.key (values.map some) <;> simp [Except.map, Prog.alone_each_get]

theorem alone_scanNulls (predicates : List (Option IndexKeyValue)) (reverse : Bool) :
    (Prog.alone s cache (Catalog.scanNulls table index predicates reverse view)).2 =
      (nullPrefixKey info index predicates).map fun key =>
        locate (view.dataFilesOf table) (s.entries.nullPrefixRowIds index key reverse) := by
  simp only [Catalog.scanNulls, Prog.alone_bind, Prog.alone_ofExcept, hready]
  cases nullPrefixKey info index predicates <;> simp [Except.map]

end Answers

theorem nullPrefixKey_ok {info : IndexInfo} {index : Nat} {predicates : List (Option IndexKeyValue)}
    {key : CanonicalKey} (h : nullPrefixKey info index predicates = .ok key) :
    none ∈ predicates ∧ info.key predicates = .ok key := by
  simp only [nullPrefixKey] at h
  by_cases hlen : (predicates.isEmpty || decide (predicates.length > info.columns.length)) = true
  · rw [if_pos hlen] at h
    cases h
  · rw [if_neg hlen] at h
    by_cases hall : predicates.all Option.isSome = true
    · rw [if_pos hall] at h
      cases h
    · rw [if_neg hall] at h
      refine ⟨?_, h⟩
      by_contra hnone
      refine hall (List.all_eq_true.mpr fun p hp => ?_)
      cases p with
      | none => exact absurd hp hnone
      | some _ => rfl

theorem map_rowId_locate (files : List DataFileValue) (rowIds : List Nat) :
    (locate files rowIds).map RowLocation.rowId = rowIds := by
  simp [locate, Function.comp_def]

/-- Equality and `IS NULL` queries are exact. Over a ready index whose entries are exactly those of its live rows, an
    equality query of a tuple returns the rows that hold it, each once, and one that is refused asks for a tuple no row
    holds; an `IS NULL` query that is accepted returns the rows whose leading columns match, in index order or its
    reverse. -/
theorem equality_and_null_queries_exact {Row : Type} (s : StoreState Row) (cache : ProjectionCache)
    (view : CatalogSnapshot) (table index : Nat) (info : IndexInfo) (types : List KeyType)
    (rows : Nat → Option (List (Option IndexKeyValue))) (hready : view.readyIndex table index = .ok info)
    (h : Indexed s.entries index info types rows) :
    (∀ values, Typed (info.shape types) (values.map some) →
      match (Prog.alone s cache (Catalog.probe table index [values] view)).2 with
      | .ok locations => (locations.map RowLocation.rowId).Nodup ∧
          ∀ r, r ∈ locations.map RowLocation.rowId ↔ ∃ v, rows r = some v ∧ Holds (values.map some) v
      | .error _ => ∀ r v, rows r = some v → ¬ Holds (values.map some) v) ∧
    ∀ predicates reverse locations, Typed ((info.shape types).take predicates.length) predicates →
      (Prog.alone s cache (Catalog.scanNulls table index predicates reverse view)).2 = .ok locations →
      InOrder (info.shape types) rows reverse (locations.map RowLocation.rowId) ∧
      ∀ r, r ∈ locations.map RowLocation.rowId ↔
        ∃ v, rows r = some v ∧ Holds predicates (v.take predicates.length) := by
  constructor
  · intro values htyped
    have hlen := htyped.length_eq
    rw [info.length_shape, List.length_map, h.arity] at hlen
    rw [alone_probe hready, if_neg (not_not.mpr hlen.symm)]
    cases hkey : info.key (values.map some) with
    | ok key =>
      simp only [Except.map, map_rowId_locate]
      refine ⟨List.nodup_reverse.mpr (List.nodup_dedup _), fun r => ?_⟩
      rw [List.mem_reverse, List.mem_dedup, List.mem_reverse, h.mem_lookup_iff htyped hkey]
    | error e =>
      intro r v hr hv
      obtain ⟨key, hrow⟩ := h.encodes r v hr
      obtain ⟨key', hok⟩ := IndexInfo.key_ok_of_holds htyped (h.typed r v hr) hrow hv
      rw [hkey] at hok
      cases hok
  · intro predicates reverse locations htyped hok
    rw [alone_scanNulls hready] at hok
    obtain ⟨key, hkey, rfl⟩ := Results.map_eq_ok.mp hok
    obtain ⟨hnull, hkey⟩ := nullPrefixKey_ok hkey
    rw [map_rowId_locate]
    exact ⟨h.inOrder_filter false reverse _, h.mem_nullPrefixRowIds reverse hnull htyped hkey⟩

/-! An index over two signed bytes with two rows: row 3 holds 5 and NULL, row 4 holds 6 and NULL. Unique or not, each
    row is stored in the same entry. -/

namespace NullPair

def definition (unique : Bool) : IndexValue :=
  { (default : IndexValue) with indexId := 7, tableId := 1, indexName := "pair", columnIds := [1, 2], unique }

def view (unique : Bool) : CatalogSnapshot :=
  { indexes := ExtTreeMap.empty.insert 1 (ExtTreeMap.empty.insert 7 (definition unique)) }

def types : List KeyType := [.int .i8, .int .i8]

def row (n : Nat) : List (Option IndexKeyValue) := [some (.int n .i8), none]

def rows (r : Nat) : Option (List (Option IndexKeyValue)) := if r = 3 ∨ r = 4 then some (row (r + 2)) else none

def key (n : Nat) : CanonicalKey := [0x00, 0x80 + UInt8.ofNat n, 0x00, 0x01]

def entries : IndexEntries := { multi := ExtTreeSet.ofList [(7, key 5, 3), (7, key 6, 4)] }

def store : StoreState Nat := { catalog := {}, entries }

theorem ready (unique : Bool) : (view unique).readyIndex 1 7 = .ok (indexInfo (definition unique)) := by
  cases unique <;> decide +kernel

theorem rows_eq_some {r : Nat} {v : List (Option IndexKeyValue)} :
    rows r = some v ↔ (r = 3 ∨ r = 4) ∧ v = row (r + 2) := by
  rw [rows, Option.ite_none_right_eq_some, Option.some.injEq, eq_comm (a := v)]

theorem key_row (unique : Bool) {r : Nat} (hr : r = 3 ∨ r = 4) :
    (indexInfo (definition unique)).key (row (r + 2)) = .ok (key (r + 2)) := by
  rcases hr with rfl | rfl <;> cases unique <;> decide +kernel

theorem typed_row {unique : Bool} {n : Nat} (hn : n < 2 ^ 7) :
    Typed ((indexInfo (definition unique)).shape types) (row n) :=
  .cons (by rintro _ ⟨⟩; exact .int (by omega) (by omega)) (.cons (by rintro _ ⟨⟩) .nil)

theorem indexed (unique : Bool) : Indexed entries 7 (indexInfo (definition unique)) types rows where
  arity := rfl
  typed r v hr := by
    obtain ⟨hid, rfl⟩ := rows_eq_some.mp hr
    exact typed_row (by omega)
  rowId_lt r v hr := by
    obtain ⟨hid, -⟩ := rows_eq_some.mp hr
    omega
  encodes r v hr := by
    obtain ⟨hid, rfl⟩ := rows_eq_some.mp hr
    exact ⟨_, key_row unique hid⟩
  unique k r := by
    refine iff_of_false (by simp [entries]) ?_
    rintro ⟨-, v, hr, hnull, -⟩
    obtain ⟨-, rfl⟩ := rows_eq_some.mp hr
    simp [row] at hnull
  multi k r := by
    have hmem : (7, k, r) ∈ entries.multi ↔ (r = 3 ∨ r = 4) ∧ k = key (r + 2) := by
      simp only [entries, ExtTreeSet.mem_ofList, List.contains_iff_mem, List.mem_cons, List.not_mem_nil, or_false,
        Prod.mk.injEq, true_and]
      constructor
      · rintro (⟨rfl, rfl⟩ | ⟨rfl, rfl⟩) <;> simp
      · rintro ⟨rfl | rfl, rfl⟩ <;> simp
    rw [hmem]
    constructor
    · rintro ⟨hid, rfl⟩
      exact ⟨_, rows_eq_some.mpr ⟨hid, rfl⟩, fun _ => by simp [row], key_row unique hid⟩
    · rintro ⟨v, hr, -, hkey⟩
      obtain ⟨hid, rfl⟩ := rows_eq_some.mp hr
      exact ⟨hid, Except.ok.inj (hkey.symm.trans (key_row unique hid))⟩

end NullPair

/-- A query for 5 and NULL finds the row of a unique index that holds them, and not the other row with a NULL. -/
theorem null_query_finds_row :
    (Prog.alone NullPair.store {}
      (Catalog.scanNulls 1 7 (NullPair.row 5) false (NullPair.view true))).2 = .ok [⟨3, .inline⟩] ∧
    ∀ r, r ∈ ([⟨3, .inline⟩] : List RowLocation).map RowLocation.rowId ↔
      ∃ v, NullPair.rows r = some v ∧ Holds (NullPair.row 5) (v.take 2) := by
  have hscan : (Prog.alone NullPair.store {}
      (Catalog.scanNulls 1 7 (NullPair.row 5) false (NullPair.view true))).2 = .ok [⟨3, .inline⟩] := by
    decide +kernel
  refine ⟨hscan, ((equality_and_null_queries_exact NullPair.store {} (NullPair.view true) 1 7 _ NullPair.types
    NullPair.rows (NullPair.ready true) (NullPair.indexed true)).2 (NullPair.row 5) false [⟨3, .inline⟩]
    (NullPair.typed_row (by norm_num)) hscan).2⟩

end Moraine
