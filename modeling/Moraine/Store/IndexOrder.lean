-- SUMMARY: Canonical index keys sort like SQL tuples, and the key of a leading run begins the keys that extend it.
import Moraine.Base.BinaryFloat
import Moraine.Base.OrderCode
import Moraine.Store.IndexEncoding

/-!
# The order of canonical keys

What an index promises about its keys is an order on tuples: column by column, NULLs where the column places them
whatever its direction, numbers numerically, strings and blobs bytewise. Each part of the encoding decides its part of
that order whatever follows it, so the concatenation of the columns decides the order of the tuples.
-/

namespace Moraine

open OrderCode

/-! ## Tuples and their order -/

/-- The type of an indexed column. -/
inductive KeyType where
  | int (width : IntWidth)
  | uInt (width : IntWidth)
  | f32 | f64 | bool | str | bytes
  deriving DecidableEq

namespace IndexKeyValue

/-- The value is one a column of the type holds. An integer is carried as an `i128` or a `u128` whatever its width. -/
inductive HasType : IndexKeyValue → KeyType → Prop
  | int {value : Int} {width : IntWidth} (lo : -2 ^ 127 ≤ value) (hi : value < 2 ^ 127) :
    HasType (.int value width) (.int width)
  | uInt {value : Nat} {width : IntWidth} (hi : value < 2 ^ 128) : HasType (.uInt value width) (.uInt width)
  | f32 {bits : BitVec 32} : HasType (.f32 bits) .f32
  | f64 {bits : BitVec 64} : HasType (.f64 bits) .f64
  | bool {value : Bool} : HasType (.bool value) .bool
  | str {value : String} : HasType (.str value) .str
  | bytes {value : List UInt8} : HasType (.bytes value) .bytes

/-- A float is ordered by its value: the two zeros are one, and every NaN is one above all numbers. -/
def f32Value (bits : BitVec 32) : ℤ := BinaryFloat.value (w := 31) 23 bits

def f64Value (bits : BitVec 64) : ℤ := BinaryFloat.value (w := 63) 52 bits

/-- SQL's order on the values of one type. -/
def sqlCompare : IndexKeyValue → IndexKeyValue → Ordering
  | .int a _, .int b _ => compare a b
  | .uInt a _, .uInt b _ => compare a b
  | .f32 a, .f32 b => compare (f32Value a) (f32Value b)
  | .f64 a, .f64 b => compare (f64Value a) (f64Value b)
  | .bool a, .bool b => compare a b
  | .str a, .str b => compare a.toUTF8.toList b.toUTF8.toList
  | .bytes a, .bytes b => compare a b
  | _, _ => .eq

/-- SQL's equality on the values of one type. -/
def SqlEq : IndexKeyValue → IndexKeyValue → Prop
  | .int a _, .int b _ => a = b
  | .uInt a _, .uInt b _ => a = b
  | .f32 a, .f32 b => f32Value a = f32Value b
  | .f64 a, .f64 b => f64Value a = f64Value b
  | .bool a, .bool b => a = b
  | .str a, .str b => a = b
  | .bytes a, .bytes b => a = b
  | _, _ => False

end IndexKeyValue

/-- A column of an index: its type and how it is ordered. -/
structure ColumnShape where
  type : KeyType
  direction : Direction
  nulls : NullOrder
  deriving DecidableEq

/-- The order of one column's values. A NULL is placed as declared whatever the direction. -/
def ColumnShape.sqlCompare (column : ColumnShape) : Option IndexKeyValue → Option IndexKeyValue → Ordering
  | none, none => .eq
  | none, some _ => match column.nulls with
    | .first => .lt
    | .last => .gt
  | some _, none => match column.nulls with
    | .first => .gt
    | .last => .lt
  | some a, some b => match column.direction with
    | .ascending => a.sqlCompare b
    | .descending => (a.sqlCompare b).swap

/-- Two columns hold the same: NULL both, or equal values. -/
def SameValue : Option IndexKeyValue → Option IndexKeyValue → Prop
  | none, none => True
  | some a, some b => a.SqlEq b
  | _, _ => False

/-- The values are a tuple over the columns. -/
def Typed (shape : List ColumnShape) (values : List (Option IndexKeyValue)) : Prop :=
  List.Forall₂ (fun column value => ∀ v ∈ value, v.HasType column.type) shape values

/-- SQL's order on tuples: the first column that differs decides. -/
def tupleCompare : List ColumnShape → List (Option IndexKeyValue) → List (Option IndexKeyValue) → Ordering
  | column :: shape, a :: as, b :: bs => (column.sqlCompare a b).then (tupleCompare shape as bs)
  | _, _, _ => .eq

/-- The column with a value in it. -/
def ColumnShape.hold (column : ColumnShape) (value : Option IndexKeyValue) : OrderedColumn :=
  ⟨value, column.direction, column.nulls⟩

/-- The values in their columns' orders, as many as are given. -/
def orderedColumns (shape : List ColumnShape) (values : List (Option IndexKeyValue)) : List OrderedColumn :=
  List.zipWith ColumnShape.hold shape values

/-- The key of a tuple. -/
def keyBytes (shape : List ColumnShape) (values : List (Option IndexKeyValue)) : CanonicalKey :=
  (orderedColumns shape values).flatMap columnBytes

/-! ## Fixed-width numbers -/

theorem compare_mul_add {k a b r s : Nat} (hr : r < k) (hs : s < k) :
    compare (a * k + r) (b * k + s) = (compare a b).then (compare r s) := by
  rcases lt_trichotomy a b with hab | rfl | hab
  · rw [compare_lt_iff_lt.mpr hab, Ordering.lt_then, compare_lt_iff_lt]
    have := Nat.mul_le_mul_right k (Nat.succ_le_of_lt hab)
    rw [Nat.succ_mul] at this
    omega
  · rw [Std.compare_self, Ordering.eq_then]
    rcases lt_trichotomy r s with hrs | rfl | hrs
    · rw [compare_lt_iff_lt.mpr hrs, compare_lt_iff_lt]
      omega
    · rw [Std.compare_self, Std.compare_self]
    · rw [compare_gt_iff_gt.mpr hrs, compare_gt_iff_gt]
      omega
  · rw [compare_gt_iff_gt.mpr hab, Ordering.gt_then, compare_gt_iff_gt]
    have := Nat.mul_le_mul_right k (Nat.succ_le_of_lt hab)
    rw [Nat.succ_mul] at this
    omega

theorem mod_pow_succ (n w : Nat) : n % 256 ^ (w + 1) = n / 256 ^ w % 256 * 256 ^ w + n % 256 ^ w := by
  rw [pow_succ, Nat.mod_mul]
  ring

/-- Big-endian bytes decide as the numbers they hold. -/
theorem decides_beBytes (m n w : Nat) :
    Decides (compare (m % 256 ^ w) (n % 256 ^ w)) (beBytes m w) (beBytes n w) := by
  induction w with
  | zero => simpa [beBytes, Nat.mod_one] using Decides.nil
  | succ w ih =>
    have hpos : 0 < 256 ^ w := by positivity
    rw [mod_pow_succ, mod_pow_succ, compare_mul_add (Nat.mod_lt _ hpos) (Nat.mod_lt _ hpos)]
    have hbyte : ∀ k, (UInt8.ofNat k).toNat = k % 256 := fun k => by simp
    have := (Decides.letter (UInt8.ofNat (m / 256 ^ w)) (UInt8.ofNat (n / 256 ^ w))).append fun _ => ih
    rwa [UInt8.compare_eq_toNat_compare_toNat, hbyte, hbyte] at this

theorem decides_beBytes_of_lt {m n w : Nat} (hm : m < 256 ^ w) (hn : n < 256 ^ w) :
    Decides (compare m n) (beBytes m w) (beBytes n w) := by
  simpa only [Nat.mod_eq_of_lt hm, Nat.mod_eq_of_lt hn] using decides_beBytes m n w

theorem xor_sign (b : UInt8) : b ^^^ 0x80 = b + 0x80 := by
  have hall : ∀ n < 256, n ^^^ 128 = (n + 128) % 256 := by decide +kernel
  apply UInt8.toNat_inj.mp
  simpa using hall b.toNat b.toNat_lt

/-- Flipping the sign bit adds half the range. -/
theorem flipSign_beBytes (n w : Nat) : flipSign (beBytes n (w + 1)) = beBytes (n + 128 * 256 ^ w) (w + 1) := by
  have hpos : 0 < 256 ^ w := by positivity
  have htail : beBytes n w = beBytes (n + 128 * 256 ^ w) w :=
    (decides_beBytes n (n + 128 * 256 ^ w) w).eq_iff.mpr (by simp)
  rw [beBytes, flipSign, beBytes, xor_sign, Nat.add_mul_div_right _ _ hpos, htail, UInt8.ofNat_add]
  rfl

/-! ## Values -/

theorem IntWidth.pow_bytes (w : IntWidth) : (256 : Nat) ^ w.bytes = 2 ^ (w.bytes * 8) := by
  cases w <;> rfl

theorem toList_loop (bs : ByteArray) (i : Nat) (r : List UInt8) :
    ByteArray.toList.loop bs i r = r.reverse ++ bs.data.toList.drop i := by
  fun_induction ByteArray.toList.loop bs i r with
  | case1 i r h ih =>
    have hi : i < bs.data.toList.length := by simpa using h
    have hget : bs.get! i = bs.data.toList[i] := by
      simp at hi
      simp [ByteArray.get!, getElem!_pos, hi]
    rw [ih, List.reverse_cons, List.append_assoc, List.drop_eq_getElem_cons hi, hget]
    rfl
  | case2 i r h =>
    rw [List.drop_of_length_le (by simpa using h), List.append_nil]

theorem toUTF8_toList_inj {a b : String} : a.toUTF8.toList = b.toUTF8.toList ↔ a = b := by
  constructor
  · intro h
    simp only [ByteArray.toList, toList_loop, List.reverse_nil, List.nil_append, List.drop_zero] at h
    exact String.toByteArray_inj.mp (ByteArray.ext (Array.toList_inj.mp h))
  · rintro rfl
    rfl

/-- A signed integer's bytes hold it shifted by half its range. -/
theorem encode_int {value : Int} {width : IntWidth} (hlo : -2 ^ (width.bytes * 8 - 1) ≤ value)
    (hhi : value < 2 ^ (width.bytes * 8 - 1)) :
    (IndexKeyValue.int value width).encode =
      beBytes (value + 2 ^ (width.bytes * 8 - 1)).toNat width.bytes := by
  obtain ⟨w, hw⟩ : ∃ w, width.bytes = w + 1 := by cases width <;> exact ⟨_, rfl⟩
  rw [IndexKeyValue.encode, hw, flipSign_beBytes, ← hw, (decides_beBytes _ _ _).eq_iff, compare_eq_iff_eq, hw]
  cases width <;> simp [IntWidth.bytes] at hw hlo hhi <;> subst hw <;> norm_num <;> omega

theorem canonicalF32_canonical : BinaryFloat.Canonical (w := 31) 23 canonicalF32 0x7fc00000#32 :=
  .of_tests rfl rfl rfl rfl (by decide) fun _ => rfl

theorem canonicalF64_canonical : BinaryFloat.Canonical (w := 63) 52 canonicalF64 0x7ff8000000000000#64 :=
  .of_tests rfl rfl rfl rfl (by decide) fun _ => rfl

theorem IntWidth.signed_bounds {value : Int} {width : IntWidth} (hlo : -2 ^ 127 ≤ value) (hhi : value < 2 ^ 127)
    (hfits : width.holdsSigned value = true) :
    -2 ^ (width.bytes * 8 - 1) ≤ value ∧ value < 2 ^ (width.bytes * 8 - 1) := by
  cases width <;> simp [holdsSigned] at hfits
  case i128 => exact ⟨hlo, hhi⟩
  all_goals exact hfits

theorem IntWidth.unsigned_bound {value : Nat} {width : IntWidth} (hhi : value < 2 ^ 128)
    (hfits : width.holdsUnsigned value = true) : value < 256 ^ width.bytes := by
  rw [pow_bytes]
  cases width <;> simp [holdsUnsigned] at hfits
  case i128 => exact hhi
  all_goals exact hfits

/-- The canonical bytes of two values that fit one type compare as SQL compares the values. -/
theorem compare_encode {a b : IndexKeyValue} {type : KeyType} (ha : a.HasType type) (hb : b.HasType type)
    (hfa : a.fits = true) (hfb : b.fits = true) : compare a.encode b.encode = a.sqlCompare b := by
  cases ha with
  | @int x width halo hahi =>
    cases hb with
    | @int y _ hblo hbhi =>
      obtain ⟨hxlo, hxhi⟩ := IntWidth.signed_bounds halo hahi hfa
      obtain ⟨hylo, hyhi⟩ := IntWidth.signed_bounds hblo hbhi hfb
      have hpow : (256 : ℤ) ^ width.bytes = 2 ^ (width.bytes * 8 - 1) + 2 ^ (width.bytes * 8 - 1) := by
        cases width <;> rfl
      have hshift : ∀ z : ℤ, z < 2 ^ (width.bytes * 8 - 1) →
          (z + 2 ^ (width.bytes * 8 - 1)).toNat < 256 ^ width.bytes := fun z hz => by
        zify
        omega
      rw [encode_int hxlo hxhi, encode_int hylo hyhi,
        (decides_beBytes_of_lt (hshift x hxhi) (hshift y hyhi)).compare_eq,
        IndexKeyValue.sqlCompare]
      rcases lt_trichotomy x y with hxy | rfl | hxy
      · rw [compare_lt_iff_lt.mpr hxy, compare_lt_iff_lt]
        omega
      · rw [Std.compare_self, Std.compare_self]
      · rw [compare_gt_iff_gt.mpr hxy, compare_gt_iff_gt]
        omega
  | @uInt x width hahi =>
    cases hb with
    | @uInt y _ hbhi =>
      exact (decides_beBytes_of_lt (IntWidth.unsigned_bound hahi hfa) (IntWidth.unsigned_bound hbhi hfb)).compare_eq
  | @f32 x =>
    cases hb with
    | @f32 y =>
      refine (decides_beBytes_of_lt (BitVec.isLt _) (BitVec.isLt _)).compare_eq.trans ?_
      exact BinaryFloat.compare_ordered canonicalF32_canonical x y
  | @f64 x =>
    cases hb with
    | @f64 y =>
      refine (decides_beBytes_of_lt (BitVec.isLt _) (BitVec.isLt _)).compare_eq.trans ?_
      exact BinaryFloat.compare_ordered canonicalF64_canonical x y
  | @bool x =>
    cases hb with
    | @bool y => cases x <;> cases y <;> decide
  | str => cases hb; rfl
  | bytes => cases hb; rfl

/-! ## Byte strings -/

theorem compare_eq_lt_of_lt {a b : UInt8} (h : a < b) : compare a b = .lt := by
  rw [UInt8.compare_eq_toNat_compare_toNat, compare_lt_iff_lt]
  exact UInt8.lt_iff_toNat_lt.mp h

theorem compare_complement (x y : UInt8) : compare (~~~ x) (~~~ y) = (compare x y).swap := by
  have hx := x.toNat_lt
  have hy := y.toNat_lt
  rw [UInt8.compare_eq_toNat_compare_toNat, UInt8.compare_eq_toNat_compare_toNat, UInt8.toNat_not, UInt8.toNat_not,
    Nat.compare_swap]
  rcases lt_trichotomy x.toNat y.toNat with h | h | h
  · rw [compare_gt_iff_gt.mpr h, compare_gt_iff_gt, UInt8.size]
    omega
  · rw [h, Std.compare_self, Std.compare_self]
  · rw [compare_lt_iff_lt.mpr h, compare_lt_iff_lt, UInt8.size]
    omega

/-- An escaped byte sorts as the byte: the escape is above the terminator and below every byte left as it is. -/
theorem decides_escape (a b : UInt8) :
    Decides (compare a b) (if a ≤ 1 then [0x01, a] else [a]) (if b ≤ 1 then [0x01, b] else [b]) := by
  split_ifs with ha hb hb
  · exact (Decides.letter 1 1).append fun _ => Decides.letter a b
  · have hlt : 1 < b := UInt8.not_le.mp hb
    intro s t
    simp [List.compare_cons_cons, compare_eq_lt_of_lt hlt, compare_eq_lt_of_lt (UInt8.lt_of_le_of_lt ha hlt)]
  · have hlt : 1 < a := UInt8.not_le.mp ha
    intro s t
    simp [List.compare_cons_cons, Std.OrientedCmp.gt_of_lt (compare_eq_lt_of_lt hlt),
      Std.OrientedCmp.gt_of_lt (compare_eq_lt_of_lt (UInt8.lt_of_le_of_lt hb hlt))]
  · exact Decides.letter a b

/-- Framed byte strings sort bytewise, a beginning before what extends it. -/
theorem decides_frameBytes (a b : List UInt8) : Decides (compare a b) (frameBytes a) (frameBytes b) := by
  rw [List.compare_eq_compareLex]
  refine decides_terminated decides_escape (fun c => ?_) a b
  split_ifs with hc
  · exact ⟨_, _, rfl, by decide⟩
  · exact ⟨_, _, rfl, compare_eq_lt_of_lt (UInt8.lt_trans (by decide) (UInt8.not_le.mp hc))⟩

/-! ## Columns and tuples -/

/-- A column's part of the key decides as the column is ordered. -/
theorem decides_columnBytes {column : ColumnShape} {a b : Option IndexKeyValue}
    (ha : ∀ v ∈ a, v.HasType column.type ∧ v.fits = true) (hb : ∀ v ∈ b, v.HasType column.type ∧ v.fits = true) :
    Decides (column.sqlCompare a b) (columnBytes (column.hold a)) (columnBytes (column.hold b)) := by
  have hzero : compare (0 : UInt8) 1 = .lt := by decide
  have hone : compare (1 : UInt8) 0 = .gt := by decide
  obtain ⟨type, direction, nulls⟩ := column
  cases a with
  | none =>
    cases b with
    | none => exact fun s t => by simp [ColumnShape.sqlCompare, ColumnShape.hold, columnBytes, List.compare_cons_cons]
    | some b =>
      intro s t
      cases nulls <;>
        simp [ColumnShape.sqlCompare, ColumnShape.hold, columnBytes, nullFlags, List.compare_cons_cons, hzero, hone]
  | some a =>
    cases b with
    | none =>
      intro s t
      cases nulls <;>
        simp [ColumnShape.sqlCompare, ColumnShape.hold, columnBytes, nullFlags, List.compare_cons_cons, hzero, hone]
    | some b =>
      have hframe : Decides (a.sqlCompare b) (frameBytes a.encode) (frameBytes b.encode) := by
        rw [← compare_encode (ha a rfl).1 (hb b rfl).1 (ha a rfl).2 (hb b rfl).2]
        exact decides_frameBytes a.encode b.encode
      have hflag := Decides.letter (nullFlags nulls).2 (nullFlags nulls).2
      rw [Std.compare_self] at hflag
      cases direction with
      | ascending => exact hflag.append fun _ => hframe
      | descending => exact hflag.append fun _ => hframe.map compare_complement

/-- The values of a tuple fit their columns' types and widths. -/
def Fitting (shape : List ColumnShape) (values : List (Option IndexKeyValue)) : Prop :=
  List.Forall₂ (fun column value => ∀ v ∈ value, v.HasType column.type ∧ v.fits = true) shape values

/-- The keys of two tuples decide as the tuples are ordered. -/
theorem decides_tuple {shape : List ColumnShape} {as bs : List (Option IndexKeyValue)} (ha : Fitting shape as)
    (hb : Fitting shape bs) :
    Decides (tupleCompare shape as bs) (keyBytes shape as) (keyBytes shape bs) := by
  induction ha generalizing bs with
  | nil =>
    cases hb
    exact Decides.nil
  | cons ha _ ih =>
    cases hb with
    | cons hb hbs => exact (decides_columnBytes ha hb).append fun _ => ih hbs

theorem encodeOrderedKey_eq_ok {columns : List OrderedColumn} {key : CanonicalKey} :
    encodeOrderedKey columns = .ok key ↔ (∀ v ∈ columns.filterMap OrderedColumn.value, v.fits = true) ∧
      ((columns.filterMap OrderedColumn.value).map fun v => v.encode.length).sum ≤ MAX_INDEX_KEY_BYTES ∧
      columns.flatMap columnBytes = key := by
  simp only [encodeOrderedKey]
  cases hfind : (columns.filterMap OrderedColumn.value).find? (!·.fits) with
  | some v =>
    have hv := List.find?_some hfind
    have hmem := List.mem_of_find?_eq_some hfind
    refine iff_of_false (fun h => by cases h) fun h => ?_
    simp [h.1 v hmem] at hv
  | none =>
    have hfits : ∀ v ∈ columns.filterMap OrderedColumn.value, v.fits = true := fun v hmem => by
      simpa using List.find?_eq_none.mp hfind v hmem
    by_cases hsum : ((columns.filterMap OrderedColumn.value).map fun v => v.encode.length).sum > MAX_INDEX_KEY_BYTES
    · simp only [hsum, if_true]
      refine iff_of_false (fun h => by cases h) fun h => ?_
      omega
    · simp only [hsum, if_false]
      exact ⟨fun h => ⟨hfits, not_lt.mp hsum, Except.ok.inj h⟩, fun h => congrArg Except.ok h.2.2⟩

theorem orderedColumns_take_length (shape : List ColumnShape) (run : List (Option IndexKeyValue)) :
    orderedColumns shape run = orderedColumns (shape.take run.length) run := by
  have hcut : orderedColumns shape run = (orderedColumns shape run).take run.length :=
    (List.take_of_length_le (by simp [orderedColumns])).symm
  rw [hcut, orderedColumns, List.take_zipWith, List.take_length, orderedColumns]

theorem keyBytes_take_length (shape : List ColumnShape) (run : List (Option IndexKeyValue)) :
    keyBytes shape run = keyBytes (shape.take run.length) run := by
  rw [keyBytes, orderedColumns_take_length, keyBytes]

theorem keyBytes_split (shape : List ColumnShape) (values : List (Option IndexKeyValue)) (n : Nat) :
    keyBytes shape values =
      keyBytes (shape.take n) (values.take n) ++ keyBytes (shape.drop n) (values.drop n) := by
  rw [keyBytes, keyBytes, keyBytes, ← List.flatMap_append, orderedColumns, orderedColumns, orderedColumns,
    ← List.take_zipWith, ← List.drop_zipWith, List.take_append_drop]

/-- Accepted values fit. -/
theorem fitting_of_encodeOrderedKey {shape : List ColumnShape} {values : List (Option IndexKeyValue)}
    {key : CanonicalKey} (htyped : Typed shape values) (h : encodeOrderedKey (orderedColumns shape values) = .ok key) :
    Fitting shape values ∧ keyBytes shape values = key := by
  obtain ⟨hfits, -, hkey⟩ := encodeOrderedKey_eq_ok.mp h
  refine ⟨?_, hkey⟩
  clear h hkey
  induction htyped with
  | nil => exact .nil
  | cons hv _ ih =>
    refine .cons (fun v hmem => ⟨hv v hmem, hfits v ?_⟩) (ih fun v hmem => hfits v ?_)
    · exact List.mem_filterMap.mpr ⟨_, List.mem_cons_self, hmem⟩
    · obtain ⟨c, hc, hval⟩ := List.mem_filterMap.mp hmem
      exact List.mem_filterMap.mpr ⟨c, List.mem_cons_of_mem _ hc, hval⟩

theorem fitting_of_run {shape : List ColumnShape} {run : List (Option IndexKeyValue)} {key : CanonicalKey}
    (htyped : Typed (shape.take run.length) run) (h : encodeOrderedKey (orderedColumns shape run) = .ok key) :
    Fitting (shape.take run.length) run ∧ keyBytes shape run = key := by
  obtain ⟨hfit, hkey⟩ := fitting_of_encodeOrderedKey htyped (orderedColumns_take_length shape run ▸ h)
  exact ⟨hfit, by rwa [keyBytes_take_length]⟩

theorem Fitting.typed {shape : List ColumnShape} {values : List (Option IndexKeyValue)} (h : Fitting shape values) :
    Typed shape values := h.imp fun _ _ hv v hmem => (hv v hmem).1

theorem IndexKeyValue.sqlCompare_eq_iff {a b : IndexKeyValue} {type : KeyType} (ha : a.HasType type)
    (hb : b.HasType type) : a.sqlCompare b = .eq ↔ a.SqlEq b := by
  cases ha <;> cases hb <;> simp only [sqlCompare, SqlEq, compare_eq_iff_eq]
  case str => rw [Std.LawfulEqOrd.compare_eq_iff_eq, toUTF8_toList_inj]
  case bytes => exact Std.LawfulEqOrd.compare_eq_iff_eq

theorem ColumnShape.sqlCompare_eq_iff {column : ColumnShape} {a b : Option IndexKeyValue}
    (ha : ∀ v ∈ a, v.HasType column.type) (hb : ∀ v ∈ b, v.HasType column.type) :
    column.sqlCompare a b = .eq ↔ SameValue a b := by
  obtain ⟨type, direction, nulls⟩ := column
  cases a with
  | none => cases b <;> cases nulls <;> simp [sqlCompare, SameValue]
  | some a =>
    cases b with
    | none => cases nulls <;> simp [sqlCompare, SameValue]
    | some b =>
      have := IndexKeyValue.sqlCompare_eq_iff (ha a rfl) (hb b rfl)
      cases direction <;> simp [sqlCompare, SameValue, this]

theorem tupleCompare_eq_iff {shape : List ColumnShape} {as bs : List (Option IndexKeyValue)} (ha : Typed shape as)
    (hb : Typed shape bs) : tupleCompare shape as bs = .eq ↔ List.Forall₂ SameValue as bs := by
  induction ha generalizing bs with
  | nil =>
    cases hb
    simp [tupleCompare]
  | cons ha _ ih =>
    cases hb with
    | cons hb hbs =>
      rw [tupleCompare, Ordering.then_eq_eq, ColumnShape.sqlCompare_eq_iff ha hb, ih hbs, List.forall₂_cons]

/-- The key of a leading run begins exactly the keys of the tuples that start with the run. -/
theorem runKey_prefix_iff {shape : List ColumnShape} {values run : List (Option IndexKeyValue)}
    (hrun : Fitting (shape.take run.length) run) (hvalues : Fitting shape values) :
    keyBytes shape run <+: keyBytes shape values ↔ List.Forall₂ SameValue run (values.take run.length) := by
  rw [keyBytes_take_length shape run, keyBytes_split shape values run.length,
    (decides_tuple hrun (List.forall₂_take _ hvalues)).prefix_iff,
    tupleCompare_eq_iff hrun.typed (Fitting.typed (List.forall₂_take _ hvalues))]

/-- Canonical keys order like SQL tuples: their byte order is the order of the tuples, they are equal exactly where
    the tuples are, and the key of a leading run begins exactly the keys of the tuples that start with the run. -/
theorem canonical_keys_order_like_tuples (shape : List ColumnShape) (values others : List (Option IndexKeyValue))
    (key other : CanonicalKey) (hvalues : Typed shape values) (hothers : Typed shape others)
    (hkey : encodeOrderedKey (orderedColumns shape values) = .ok key)
    (hother : encodeOrderedKey (orderedColumns shape others) = .ok other) :
    compare key other = tupleCompare shape values others ∧
    (key = other ↔ List.Forall₂ SameValue values others) ∧
    ∀ run runKey, Typed (shape.take run.length) run → encodeOrderedKey (orderedColumns shape run) = .ok runKey →
      (runKey <+: key ↔ List.Forall₂ SameValue run (values.take run.length)) := by
  obtain ⟨hfit, rfl⟩ := fitting_of_encodeOrderedKey hvalues hkey
  obtain ⟨hotherFit, rfl⟩ := fitting_of_encodeOrderedKey hothers hother
  have hdecides := decides_tuple hfit hotherFit
  refine ⟨hdecides.compare_eq, ?_, fun run runKey hrun hrunKey => ?_⟩
  · rw [hdecides.eq_iff, tupleCompare_eq_iff hvalues hothers]
  · obtain ⟨hrunFit, rfl⟩ := fitting_of_run hrun hrunKey
    rw [runKey_prefix_iff hrunFit hfit]

/-- Over a signed byte and a descending blob with NULLs first, `(-1, x'01')` sorts before `(2, NULL)`. -/
theorem negative_key_sorts_first :
    compare ([0x00, 0x7f, 0x00, 0x01, 0xfe, 0xfe, 0xff] : CanonicalKey) [0x00, 0x82, 0x00, 0x00] =
      tupleCompare [⟨.int .i8, .ascending, .last⟩, ⟨.bytes, .descending, .first⟩]
        [some (.int (-1) .i8), some (.bytes [1])] [some (.int 2 .i8), none] :=
  (canonical_keys_order_like_tuples [⟨.int .i8, .ascending, .last⟩, ⟨.bytes, .descending, .first⟩]
    [some (.int (-1) .i8), some (.bytes [1])] [some (.int 2 .i8), none] _ _
    (.cons (by rintro _ ⟨⟩; exact .int (by norm_num) (by norm_num)) (.cons (by rintro _ ⟨⟩; exact .bytes) .nil))
    (.cons (by rintro _ ⟨⟩; exact .int (by norm_num) (by norm_num)) (.cons (by rintro _ ⟨⟩) .nil))
    (by decide +kernel) (by decide +kernel)).1

end Moraine
