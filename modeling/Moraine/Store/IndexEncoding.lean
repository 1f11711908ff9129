-- SUMMARY: Canonical byte encoding of indexed values.
import Moraine.Store.Store

/-!
# Index value encoding

An index entry's key embeds the indexed column values as bytes: per column a flag that separates NULL
from a value, then the value's canonical bytes framed as a terminated byte string, complemented when the
column is descending. A float is its bit pattern.
-/

namespace Moraine

/-- The largest sum of component encodings an index key may have. -/
def MAX_INDEX_KEY_BYTES : Nat := 1024

/-- Byte width of a fixed-width integer column. -/
inductive IntWidth where
  | i8 | i16 | i32 | i64 | i128
  deriving DecidableEq

namespace IntWidth

def bytes : IntWidth → Nat
  | .i8 => 1
  | .i16 => 2
  | .i32 => 4
  | .i64 => 8
  | .i128 => 16

/-- An `i128` holds any value it is given. -/
def holdsSigned (w : IntWidth) (value : Int) : Bool :=
  w == .i128 || decide (-(2 ^ (w.bytes * 8 - 1) : Int) ≤ value ∧ value < 2 ^ (w.bytes * 8 - 1))

def holdsUnsigned (w : IntWidth) (value : Nat) : Bool :=
  w == .i128 || decide (value < 2 ^ (w.bytes * 8))

def name : IntWidth → String
  | .i8 => "I8"
  | .i16 => "I16"
  | .i32 => "I32"
  | .i64 => "I64"
  | .i128 => "I128"

end IntWidth

/-- A non-null indexed column value. `int` and `uInt` range over the values of an `i128` and a `u128`. -/
inductive IndexKeyValue where
  | int (value : Int) (width : IntWidth)
  | uInt (value : Nat) (width : IntWidth)
  | f32 (bits : BitVec 32)
  | f64 (bits : BitVec 64)
  | bool (value : Bool)
  | str (value : String)
  | bytes (value : List UInt8)
  deriving DecidableEq

/-- The low `w` bytes of `n`, most significant first. -/
def beBytes (n : Nat) : Nat → List UInt8
  | 0 => []
  | w + 1 => UInt8.ofNat (n / 256 ^ w) :: beBytes n w

@[simp] theorem length_beBytes (n w : Nat) : (beBytes n w).length = w := by
  induction w with
  | zero => rfl
  | succ w ih => simp [beBytes, ih]

/-- Flips the sign bit of a big-endian two's-complement integer. -/
def flipSign : List UInt8 → List UInt8
  | [] => []
  | b :: bs => (b ^^^ 0x80) :: bs

@[simp] theorem length_flipSign (bs : List UInt8) : (flipSign bs).length = bs.length := by
  cases bs <;> rfl

/-- One bit pattern for every NaN, and `+0.0` for `-0.0`. -/
def canonicalF32 (bits : BitVec 32) : BitVec 32 :=
  if bits &&& 0x7fffffff#32 > 0x7f800000#32 then 0x7fc00000#32
  else if bits = 0x80000000#32 then 0#32
  else bits

/-- One bit pattern for every NaN, and `+0.0` for `-0.0`. -/
def canonicalF64 (bits : BitVec 64) : BitVec 64 :=
  if bits &&& 0x7fffffffffffffff#64 > 0x7ff0000000000000#64 then 0x7ff8000000000000#64
  else if bits = 0x8000000000000000#64 then 0#64
  else bits

namespace IndexKeyValue

/-- The canonical bytes of a value. A negative float has every bit flipped and any other its sign bit. -/
def encode : IndexKeyValue → List UInt8
  | .int value width => flipSign (beBytes (value % 2 ^ (width.bytes * 8)).toNat width.bytes)
  | .uInt value width => beBytes value width.bytes
  | .f32 bits =>
    let bits := canonicalF32 bits
    let mask := 0x80000000#32 ||| (0#32 - (bits >>> 31))
    beBytes (bits ^^^ mask).toNat 4
  | .f64 bits =>
    let bits := canonicalF64 bits
    let mask := 0x8000000000000000#64 ||| (0#64 - (bits >>> 63))
    beBytes (bits ^^^ mask).toNat 8
  | .bool value => [if value then 1 else 0]
  | .str value => value.toUTF8.toList
  | .bytes value => value

def encodedLen : IndexKeyValue → Nat
  | .int _ width | .uInt _ width => width.bytes
  | .f32 _ => 4
  | .f64 _ => 8
  | .bool _ => 1
  | .str value => value.toUTF8.toList.length
  | .bytes value => value.length

/-- The length a batch is sized by is the length the encoding has. -/
theorem length_encode (v : IndexKeyValue) : v.encode.length = v.encodedLen := by
  cases v <;> simp [encode, encodedLen]

/-- Whether an integer fits its declared width. -/
def fits : IndexKeyValue → Bool
  | .int value width => width.holdsSigned value
  | .uInt value width => width.holdsUnsigned value
  | _ => true

/-- The source's own equality on values: floats compare as IEEE does, so a NaN differs from itself and the two zeros
    are equal. -/
def valueEq : IndexKeyValue → IndexKeyValue → Bool
  | .int a v, .int b w => a == b && v == w
  | .uInt a v, .uInt b w => a == b && v == w
  | .f32 a, .f32 b =>
    let magnitude := fun bits : BitVec 32 => bits &&& 0x7fffffff#32
    (a == b || magnitude a == 0 && magnitude b == 0) && decide (magnitude a ≤ 0x7f800000#32)
  | .f64 a, .f64 b =>
    let magnitude := fun bits : BitVec 64 => bits &&& 0x7fffffffffffffff#64
    (a == b || magnitude a == 0 && magnitude b == 0) && decide (magnitude a ≤ 0x7ff0000000000000#64)
  | .bool a, .bool b => a == b
  | .str a, .str b => a == b
  | .bytes a, .bytes b => a == b
  | _, _ => false

/-- The debug text of an integer value, the only kind an error names. -/
def debug : IndexKeyValue → String
  | .int value width => s!"Int \x7b value: {value}, width: {width.name} \x7d"
  | .uInt value width => s!"UInt \x7b value: {value}, width: {width.name} \x7d"
  | _ => ""

end IndexKeyValue

inductive Direction where
  | ascending | descending
  deriving DecidableEq

/-- Where NULLs sort, independent of the direction. -/
inductive NullOrder where
  | first | last
  deriving DecidableEq

/-- One column of an ordered key. `none` is SQL NULL. -/
structure OrderedColumn where
  value : Option IndexKeyValue
  direction : Direction
  nulls : NullOrder
  deriving DecidableEq

/-- The framed concatenation of the column encodings. -/
abbrev CanonicalKey := List UInt8

open OrdMap in
instance instTransOrdUniqueKey : Std.TransOrd (Nat × CanonicalKey) := inferInstance

open OrdMap in
instance instTransOrdMultiKey : Std.TransOrd (Nat × CanonicalKey × Nat) := inferInstance

/-- What an unescaped encoding of `values` would take. -/
def nominalKeyBytes (values : List (Option IndexKeyValue)) : Nat :=
  (values.map fun
    | some value => 1 + value.encodedLen + 1
    | none => 1).sum

/-- The flags of a NULL and of a value. -/
def nullFlags : NullOrder → UInt8 × UInt8
  | .first => (0x00, 0x01)
  | .last => (0x01, 0x00)

/-- A storekey byte string: the bytes `0x00` and `0x01` escaped behind `0x01`, then a `0x00`. -/
def frameBytes (raw : List UInt8) : List UInt8 :=
  raw.flatMap (fun b => if b ≤ 1 then [0x01, b] else [b]) ++ [0x00]

/-- One column's part of the key. -/
def columnBytes (column : OrderedColumn) : List UInt8 :=
  let (nullFlag, nonNullFlag) := nullFlags column.nulls
  match column.value with
  | none => [nullFlag]
  | some value =>
    nonNullFlag :: match column.direction with
      | .ascending => frameBytes value.encode
      | .descending => (frameBytes value.encode).map (~~~ ·)

def encodeOrderedKey (columns : List OrderedColumn) : Except Error CanonicalKey := do
  let values := columns.filterMap OrderedColumn.value
  if let some value := values.find? (!·.fits) then
    throw (.constraint s!"index key value {value.debug} does not fit its declared integer width")
  let total := (values.map fun v => v.encode.length).sum
  if total > MAX_INDEX_KEY_BYTES then
    throw (.constraint s!"index key of {total} bytes exceeds the {MAX_INDEX_KEY_BYTES}-byte limit")
  return columns.flatMap columnBytes

/-- Encodes values in their columns' orders. A column beyond the given orders is ascending with NULLs
    last. -/
def encodeOrderedValues (values : List (Option IndexKeyValue)) (directions : List Direction)
    (nulls : List NullOrder) : Except Error CanonicalKey :=
  encodeOrderedKey (values.zipIdx.map fun (value, index) =>
    { value
      direction := directions[index]?.getD .ascending
      nulls := nulls[index]?.getD .last })

end Moraine
