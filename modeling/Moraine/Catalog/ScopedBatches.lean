-- SUMMARY: Scoped reads of Parquet files as the reader runs them: projections, row selections and batches of rows.
import Moraine.Base.Results
import Moraine.Catalog.ScopedRead

/-!
# Scoped reads in batches

The Parquet reader returns the projected columns of the selected rows, in order, in batches whose sizes are its own
affair. A scoped read tells it which columns to project, finds the indexed columns and the row-id column among the
projected ones, and counts the rows that have come out: from the count it knows at which row of the file it is, for a
read of all rows, for one that is resumed at a row, and for one of selected rows.

`scoped_reads_agree` says that whatever is selected and however it is cut into batches, the entries are those that a
read of all rows has at the same positions.
-/

namespace Moraine

open Std (ExtTreeMap ExtTreeSet)
open OrdMap

namespace Parquet

/-! ## Values -/

inductive TimeUnit where
  | second | millisecond | microsecond | nanosecond
  deriving DecidableEq

/-- The Arrow types that the reader tells apart. Those that cannot be indexed are named by their debug text. -/
inductive DataType where
  | int8 | int16 | int32 | int64
  | uInt8 | uInt16 | uInt32 | uInt64
  | float32 | float64
  | boolean
  | utf8 | largeUtf8
  | binary | largeBinary
  | fixedSizeBinary (size : Nat)
  | date32 | date64
  | timestamp (unit : TimeUnit) (timezone : Option String)
  | other (debug : String)
  deriving DecidableEq

def TimeUnit.debug : TimeUnit → String
  | .second => "Second"
  | .millisecond => "Millisecond"
  | .microsecond => "Microsecond"
  | .nanosecond => "Nanosecond"

def DataType.debug : DataType → String
  | .int8 => "Int8"
  | .int16 => "Int16"
  | .int32 => "Int32"
  | .int64 => "Int64"
  | .uInt8 => "UInt8"
  | .uInt16 => "UInt16"
  | .uInt32 => "UInt32"
  | .uInt64 => "UInt64"
  | .float32 => "Float32"
  | .float64 => "Float64"
  | .boolean => "Boolean"
  | .utf8 => "Utf8"
  | .largeUtf8 => "LargeUtf8"
  | .binary => "Binary"
  | .largeBinary => "LargeBinary"
  | .fixedSizeBinary size => s!"FixedSizeBinary({size})"
  | .date32 => "Date32"
  | .date64 => "Date64"
  | .timestamp unit none => s!"Timestamp({unit.debug}, None)"
  | .timestamp unit (some timezone) => s!"Timestamp({unit.debug}, Some({timezone.quote}))"
  | .other debug => debug

/-- One value of an Arrow array. -/
inductive Scalar where
  | int (value : Int)
  | f32 (bits : BitVec 32)
  | f64 (bits : BitVec 64)
  | bool (value : Bool)
  | str (value : String)
  | bytes (value : List UInt8)
  deriving DecidableEq

namespace Scalar

def signed (width : IntWidth) : Scalar → Option IndexKeyValue
  | .int value => some (.int value width)
  | _ => none

def unsigned (width : IntWidth) : Scalar → Option IndexKeyValue
  | .int (.ofNat value) => some (.uInt value width)
  | _ => none

end Scalar

/-- How the values of a type are indexed, if they are. Dates and timestamps are indexed by their integers. -/
def DataType.indexed : DataType → Option (Scalar → Option IndexKeyValue)
  | .int8 => some (Scalar.signed .i8)
  | .int16 => some (Scalar.signed .i16)
  | .int32 => some (Scalar.signed .i32)
  | .int64 => some (Scalar.signed .i64)
  | .uInt8 => some (Scalar.unsigned .i8)
  | .uInt16 => some (Scalar.unsigned .i16)
  | .uInt32 => some (Scalar.unsigned .i32)
  | .uInt64 => some (Scalar.unsigned .i64)
  | .float32 => some fun | .f32 bits => some (.f32 bits) | _ => none
  | .float64 => some fun | .f64 bits => some (.f64 bits) | _ => none
  | .boolean => some fun | .bool value => some (.bool value) | _ => none
  | .utf8 | .largeUtf8 => some fun | .str value => some (.str value) | _ => none
  | .binary | .largeBinary | .fixedSizeBinary _ => some fun | .bytes value => some (.bytes value) | _ => none
  | .date32 => some (Scalar.signed .i32)
  | .date64 | .timestamp .. => some (Scalar.signed .i64)
  | .other _ => none

/-- The canonical value of a cell, `none` for NULL. -/
def arrayValue (dataType : DataType) : Option Scalar → Except Error (Option IndexKeyValue)
  | none => .ok none
  | some scalar =>
    match dataType.indexed with
    | none => .error (.constraint s!"scoped read: column type {dataType.debug} is not indexable")
    | some value =>
      match value scalar with
      | some value => .ok (some value)
      | none => .error (.corruption "scoped read: parquet column type mismatch")

def rowIdValue (dataType : DataType) : Option Scalar → Except Error Nat
  | none => .error (.corruption "scoped read: row-id column holds a NULL")
  | some scalar =>
    match dataType, scalar with
    | .int64, .int (.ofNat value) | .uInt64, .int (.ofNat value) => .ok value
    | .int64, .int (.negSucc _) => .error (.corruption "scoped read: negative row id")
    | .int64, _ | .uInt64, _ => .error (.corruption "scoped read: parquet column type mismatch")
    | dataType, _ =>
      .error (.corruption s!"scoped read: row-id column has non-integer type {dataType.debug}")

/-! ## Files and readers -/

/-- A column of a file's root schema. -/
structure Field where
  id : Option Int
  dataType : DataType
  deriving DecidableEq

/-- A Parquet file, row by row. Its footer counts the rows with a signed integer of 64 bits. -/
structure File where
  path : String
  /-- The object's length. -/
  size : Nat
  fields : List Field
  rows : List (List (Option Scalar))
  shaped : ∀ row ∈ rows, row.length = fields.length
  counted : rows.length < 2 ^ 63

/-- Some rows of the projected columns. -/
structure RecordBatch where
  columns : List DataType
  rows : List (List (Option Scalar))
  deriving DecidableEq

/-- What a row has at the positions that a mask names, in the file's order. -/
def masked {α : Type} (mask : List Nat) (row : List α) : List α :=
  row.zipIdx.filterMap fun (cell, position) => if mask.contains position then some cell else none

/-- Ranges of rows, from a start up to and not including an end. -/
abbrev RowSelection := List (Nat × Nat)

/-- The rows that are read, in order: all of them where none are selected. -/
def File.selectedRows (file : File) : Option RowSelection → List Nat
  | none => List.range file.rows.length
  | some ranges => ranges.flatMap fun (start, stop) => List.range' start (stop - start)

/-- An object is fetched whole and decoded from memory, or its column chunks are fetched as they are needed. -/
inductive Access where
  | whole
  | ranged
  deriving DecidableEq

/-- A reader of a file. It returns the selected rows in order, cut into batches as it likes. -/
structure Reader (file : File) where
  batches : Access → List Nat → Option RowSelection → List RecordBatch
  columns : ∀ access mask selection, ∀ batch ∈ batches access mask selection,
    batch.columns = masked mask (file.fields.map Field.dataType)
  rows : ∀ access mask selection, (batches access mask selection).flatMap RecordBatch.rows =
    (file.selectedRows selection).filterMap fun p => file.rows[p]?.map (masked mask)

/-- The reader that returns every row in a batch of its own. -/
def Reader.rowByRow (file : File) : Reader file where
  batches _ mask selection :=
    ((file.selectedRows selection).filterMap fun p => file.rows[p]?.map (masked mask)).map fun row =>
      { columns := masked mask (file.fields.map Field.dataType), rows := [row] }
  columns _ _ _ _ hbatch := by
    obtain ⟨_, -, rfl⟩ := List.mem_map.mp hbatch
    rfl
  rows _ _ _ := by simp [List.flatMap_map]

/-! ## Scoped reads -/

/-- The reserved field id of the embedded row-id column. -/
def ROW_ID_FIELD_ID : Int := 2147483540

def embeddedRowIdPosition (file : File) : Option Nat :=
  file.fields.findIdx? (·.id == some ROW_ID_FIELD_ID)

/-- The position of the row-id column if it is to be read, and the dense start. -/
def resolveRowIdSource (file : File) (source : RowIdSource) : Except Error (Option Nat × Nat) :=
  match source, embeddedRowIdPosition file with
  | .ordinal, some _ => .error (.constraint
      s!"scoped read: {file.path} carries an embedded row-id column and cannot be read by ordinal")
  | .ordinal, none => .ok (none, 0)
  | .resolve _, some position => .ok (some position, 0)
  | .resolve (some start), none => .ok (none, start)
  | .resolve none, none => .error (.corruption
      s!"scoped read: {file.path} is recorded as carrying per-row ids but has no embedded row-id column")

/-- An index past the columns: the source panics there and returns nothing. -/
def outOfBounds : Error := .corruption "scoped read: column index out of bounds"

/-- The positions to project. Repeats are neighbours once the positions are sorted. -/
def projectedPositions (indexedPositions : List Nat) (rowIdPosition : Option Nat) : List Nat :=
  ((indexedPositions ++ rowIdPosition.toList).insertionSort (· ≤ ·)).dedup

/-- The column of the output batch that a position of the file is at. -/
def outputIndex (projected : List Nat) (position : Nat) : Except Error Nat :=
  match projected.idxOf? position with
  | some index => .ok index
  | none => .error (.corruption "scoped read: projected column vanished")

/-- The columns to project, with the place of each requested one among them. -/
def projection (file : File) (indexedPositions : List Nat) (rowIdPosition : Option Nat) :
    Except Error (List Nat × List Nat × Option Nat) :=
  let projected := projectedPositions indexedPositions rowIdPosition
  if projected.all (· < file.fields.length) then
    match Results.each (outputIndex projected) indexedPositions with
    | .error e => .error e
    | .ok indexedOutput =>
      match rowIdPosition with
      | none => .ok (projected, indexedOutput, none)
      | some position => (outputIndex projected position).map fun output => (projected, indexedOutput, some output)
  else .error outOfBounds

/-- Which row of the file the nth row of a read is. -/
inductive Ordinals where
  | dense
  | offset (start : Nat)
  | selected (positions : List Nat)

def Ordinals.at (nth : Nat) : Ordinals → Except Error Nat
  | .dense => .ok nth
  | .offset start => .ok (saturatingAdd start nth)
  | .selected positions =>
    match positions[nth]? with
    | some position => .ok position
    | none => .error (.corruption "scoped read: the reader emitted more rows than the selection named")

/-- The selection of the rows at ascending positions. -/
def rowSelection (positions : List Nat) (totalRows : Nat) : Except Error RowSelection :=
  Results.each (fun position =>
    if position < totalRows then .ok (position, saturatingAdd position 1)
    else .error (.corruption s!"scoped read: selected row {position} is past the file's {totalRows} rows")) positions

/-- A cell of a batch, with the type of its column. -/
def cellAt (columns : List DataType) (row : List (Option Scalar)) (position : Nat) :
    Except Error (DataType × Option Scalar) :=
  match columns[position]?, row[position]? with
  | some dataType, some cell => .ok (dataType, cell)
  | _, _ => .error outOfBounds

/-- The entry of one row. `ordinal` is its place in the file, which dense ids are counted from. -/
def rowEntry (columns : List DataType) (positions : List Nat) (rowIdPosition : Option Nat) (rowIdStart : Nat)
    (ordinal : Except Error Nat) (row : List (Option Scalar)) : Except Error ScopedReadEntry :=
  match Results.each (fun position => (cellAt columns row position).bind fun x => arrayValue x.1 x.2) positions with
  | .error e => .error e
  | .ok values =>
    let rowId := match rowIdPosition with
      | some position => (cellAt columns row position).bind fun x => rowIdValue x.1 x.2
      | none => ordinal.map (saturatingAdd rowIdStart ·)
    rowId.map fun rowId => { rowId, values }

/-- The entries of a batch. `emitted` rows have come out of the read before it. -/
def recordBatchEntries (batch : RecordBatch) (positions : List Nat) (rowIdPosition : Option Nat) (rowIdStart : Nat)
    (ordinals : Ordinals) (emitted : Nat) : Except Error (List ScopedReadEntry) :=
  Results.each (fun (row, nth) =>
    rowEntry batch.columns positions rowIdPosition rowIdStart (ordinals.at (saturatingAdd emitted nth)) row)
    batch.rows.zipIdx

/-- The entries of all batches. -/
def batchEntries (positions : List Nat) (rowIdPosition : Option Nat) (rowIdStart : Nat) (ordinals : Ordinals) :
    List RecordBatch → List ScopedReadEntry → Nat → Except Error (List ScopedReadEntry)
  | [], entries, _ => .ok entries
  | batch :: batches, entries, emitted =>
    match recordBatchEntries batch positions rowIdPosition rowIdStart ordinals emitted with
    | .error e => .error e
    | .ok more => batchEntries positions rowIdPosition rowIdStart ordinals batches (entries ++ more)
        (saturatingAdd emitted batch.rows.length)

/-- An object below this size is fetched whole. -/
def WHOLE_OBJECT_THRESHOLD : Nat := 4 * 1024 * 1024

/-- The positions to read, or `none` when that is all of them. -/
def selectedPositions : ScopedRows → Option (List Nat)
  | .all => none
  | .selected wanted => some wanted.toList

variable {file : File}

/-- The entries of the selected rows. Both ways to fetch the object run the same loop. -/
def selectedEntries (reader : Reader file) (access : Access) (indexedPositions : List Nat)
    (selected : Option (List Nat)) (source : RowIdSource) : Except Error (List ScopedReadEntry) :=
  match resolveRowIdSource file source with
  | .error e => .error e
  | .ok (rowIdPosition, rowIdStart) =>
    match projection file indexedPositions rowIdPosition with
    | .error e => .error e
    | .ok (mask, indexedOutput, rowIdOutput) =>
      match selected with
      | none =>
        batchEntries indexedOutput rowIdOutput rowIdStart .dense (reader.batches access mask none) [] 0
      | some positions =>
        match rowSelection positions file.rows.length with
        | .error e => .error e
        | .ok selection => batchEntries indexedOutput rowIdOutput rowIdStart (.selected positions)
            (reader.batches access mask (some selection)) [] 0

def accessOf (file : File) (fileSize : Option Nat) : Access :=
  if fileSize.getD file.size < WHOLE_OBJECT_THRESHOLD then .whole else .ranged

def scopedReadEntries (reader : Reader file) (indexedPositions : List Nat) (rows : ScopedRows) (source : RowIdSource)
    (fileSize : Option Nat) : Except Error (List ScopedReadEntry) :=
  match selectedPositions rows with
  -- A selection that names no row is answered without reading anything.
  | some [] => .ok []
  | selected => selectedEntries reader (accessOf file fileSize) indexedPositions selected source

/-- Hands the entries of each batch to the consumer, with the position of the batch's first row. -/
def feedBatches {σ : Type} (consume : List ScopedReadEntry → Nat → EStateM Error σ Unit) (positions : List Nat)
    (rowIdPosition : Option Nat) (rowIdStart startOrdinal : Nat) : List RecordBatch → Nat → EStateM Error σ Unit
  | [], _ => pure ()
  | batch :: batches, emitted =>
    match recordBatchEntries batch positions rowIdPosition rowIdStart (.offset startOrdinal) emitted with
    | .error e => throw e
    | .ok entries => do
      consume entries (saturatingAdd startOrdinal emitted)
      feedBatches consume positions rowIdPosition rowIdStart startOrdinal batches
        (saturatingAdd emitted batch.rows.length)

/-- Streams the entries of the rows from `startOrdinal` on to a consumer. -/
def scopedReadEntryBatches {σ : Type} (consume : List ScopedReadEntry → Nat → EStateM Error σ Unit)
    (reader : Reader file) (indexedPositions : List Nat) (source : RowIdSource) (fileSize : Option Nat)
    (startOrdinal : Nat) : EStateM Error σ Unit :=
  let total := file.rows.length
  if total < startOrdinal then
    throw (.corruption s!"scoped read: resume row {startOrdinal} is past the file's {total} rows")
  else if startOrdinal = total then pure ()
  else
    match resolveRowIdSource file source with
    | .error e => throw e
    | .ok (rowIdPosition, rowIdStart) =>
      match projection file indexedPositions rowIdPosition with
      | .error e => throw e
      | .ok (mask, indexedOutput, rowIdOutput) =>
        feedBatches consume indexedOutput rowIdOutput rowIdStart startOrdinal
          (reader.batches (accessOf file fileSize) mask (some [(startOrdinal, total)])) 0

/-! ## Projections -/

section Projection

variable {α : Type} {mask : List Nat} {l : List α}

/-- A sorted mask picks the positions it lists. -/
theorem map_some_masked (hsorted : mask.Pairwise (· < ·)) (hbound : ∀ p ∈ mask, p < l.length) :
    (masked mask l).map some = mask.map (l[·]?) := by
  have hmasked : masked mask l = (l.zipIdx.filter fun x => mask.contains x.2).map Prod.fst := by
    rw [masked, ← List.filterMap_eq_map, List.filterMap_filter]
    rfl
  have hpositions : (l.zipIdx.filter fun x => mask.contains x.2).map Prod.snd = mask := by
    have hrange : (l.zipIdx.filter fun x => mask.contains x.2).map Prod.snd =
        (List.range l.length).filter mask.contains := by
      rw [List.range_eq_range', ← List.zipIdx_map_snd 0 l, List.filter_map]
      rfl
    rw [hrange]
    have hlt : ((List.range l.length).filter mask.contains).Pairwise (· < ·) := List.pairwise_lt_range.filter _
    refine List.Perm.eq_of_pairwise (fun a b _ _ hab hba => absurd hba hab.asymm) hlt hsorted
      ((List.perm_ext_iff_of_nodup (hlt.imp fun h => h.ne) (hsorted.imp fun h => h.ne)).mpr fun p => ?_)
    rw [List.mem_filter, List.mem_range, List.contains_iff_mem]
    exact ⟨fun h => h.2, fun h => ⟨hbound p h, h⟩⟩
  rw [hmasked, List.map_map, ← hpositions, List.map_map, hpositions]
  refine List.map_congr_left fun x hx => ?_
  exact (List.mem_zipIdx_iff_getElem?.mp (List.mem_filter.mp hx).1).symm

theorem getElem?_masked (hsorted : mask.Pairwise (· < ·)) (hbound : ∀ p ∈ mask, p < l.length) {p i : Nat}
    (hi : mask[i]? = some p) : (masked mask l)[i]? = l[p]? := by
  have heq := congrArg (·[i]?) (map_some_masked hsorted hbound)
  simp only [List.getElem?_map, hi, Option.map_some] at heq
  cases hcell : (masked mask l)[i]? with
  | none => rw [hcell] at heq; cases heq
  | some cell =>
    rw [hcell] at heq
    exact Option.some.inj heq

/-- The requested positions and their places among the projected columns. -/
structure Projected (file : File) (mask positions output : List Nat) : Prop where
  sorted : mask.Pairwise (· < ·)
  bound : ∀ p ∈ mask, p < file.fields.length
  places : List.Forall₂ (fun p i => mask[i]? = some p) positions output

theorem sorted_projectedPositions (positions : List Nat) (rowIdPosition : Option Nat) :
    (projectedPositions positions rowIdPosition).Pairwise (· < ·) :=
  (((List.pairwise_insertionSort (· ≤ ·) _).sublist (List.dedup_sublist _)).and (List.nodup_dedup _)).imp
    fun h => Nat.lt_of_le_of_ne h.1 h.2

theorem outputIndex_eq_ok {projected : List Nat} {p i : Nat} (h : outputIndex projected p = .ok i) :
    projected[i]? = some p := by
  unfold outputIndex at h
  cases hp : projected.idxOf? p with
  | none => rw [hp] at h; cases h
  | some index =>
    rw [hp] at h
    cases h
    obtain ⟨hlt, heq, -⟩ := List.idxOf?_eq_some_iff.mp hp
    rw [List.getElem?_eq_getElem hlt, heq]

theorem projection_eq_ok {positions indexedOutput : List Nat} {rowIdPosition rowIdOutput : Option Nat}
    (h : projection file positions rowIdPosition = .ok (mask, indexedOutput, rowIdOutput)) :
    Projected file mask positions indexedOutput ∧ Projected file mask rowIdPosition.toList rowIdOutput.toList := by
  have hsorted := sorted_projectedPositions positions rowIdPosition
  unfold projection at h
  simp only at h
  split at h
  · next hall =>
    have hbound : ∀ p ∈ projectedPositions positions rowIdPosition, p < file.fields.length :=
      fun p hp => of_decide_eq_true (List.all_eq_true.mp hall p hp)
    split at h
    · cases h
    · next output heach =>
      have hplaces := (Results.each_forall₂ heach).imp fun p i hp => outputIndex_eq_ok hp.2
      cases rowIdPosition with
      | none =>
        cases h
        exact ⟨⟨hsorted, hbound, hplaces⟩, ⟨hsorted, hbound, .nil⟩⟩
      | some position =>
        obtain ⟨i, hi, heq⟩ := Results.map_eq_ok.mp h
        cases heq
        exact ⟨⟨hsorted, hbound, hplaces⟩, ⟨hsorted, hbound, .cons (outputIndex_eq_ok hi) .nil⟩⟩
  · cases h

/-- Where the projected columns are, the cells of a row are those of the file. -/
theorem Projected.cellAt_eq {positions output : List Nat} (h : Projected file mask positions output)
    {row : List (Option Scalar)} (hrow : row.length = file.fields.length) :
    List.Forall₂ (fun p i => cellAt (masked mask (file.fields.map Field.dataType)) (masked mask row) i =
      cellAt (file.fields.map Field.dataType) row p) positions output := by
  refine h.places.imp fun p i hi => ?_
  rw [cellAt, cellAt, getElem?_masked h.sorted (fun q hq => by rw [List.length_map]; exact h.bound q hq) hi,
    getElem?_masked h.sorted (fun q hq => by rw [hrow]; exact h.bound q hq) hi]

/-- The entry of a projected row is the entry of the row. -/
theorem rowEntry_masked {positions indexedOutput : List Nat} {rowIdPosition rowIdOutput : Option Nat} {start : Nat}
    (hpositions : Projected file mask positions indexedOutput)
    (hrowId : Projected file mask rowIdPosition.toList rowIdOutput.toList) {row : List (Option Scalar)}
    (hrow : row.length = file.fields.length) (ordinal : Except Error Nat) :
    rowEntry (masked mask (file.fields.map Field.dataType)) indexedOutput rowIdOutput start ordinal (masked mask row) =
      rowEntry (file.fields.map Field.dataType) positions rowIdPosition start ordinal row := by
  have hvalues : Results.each (fun i => (cellAt (masked mask (file.fields.map Field.dataType)) (masked mask row) i).bind
      fun x => arrayValue x.1 x.2) indexedOutput =
      Results.each (fun p => (cellAt (file.fields.map Field.dataType) row p).bind fun x => arrayValue x.1 x.2)
        positions :=
    Results.each_congr ((hpositions.cellAt_eq hrow).imp fun p i hcell => by rw [hcell])
  unfold rowEntry
  rw [hvalues]
  have hcells := hrowId.cellAt_eq hrow
  cases rowIdPosition with
  | none =>
    cases rowIdOutput with
    | none => rfl
    | some i => cases hcells
  | some p =>
    cases rowIdOutput with
    | none => cases hcells
    | some i =>
      obtain ⟨hcell, -⟩ := List.forall₂_cons.mp hcells
      simp only [hcell]

end Projection

/-! ## The loop over the batches -/

/-- The entry that the file's own row at a position has. -/
def File.entryAt (file : File) (positions : List Nat) (rowIdPosition : Option Nat) (rowIdStart p : Nat) :
    Except Error ScopedReadEntry :=
  rowEntry (file.fields.map Field.dataType) positions rowIdPosition rowIdStart (.ok p) (file.rows[p]?.getD [])

/-- The rows that a read still has to return, as it numbers them. -/
def Ordinals.Follows (ordinals : Ordinals) (emitted : Nat) (rest : List Nat) : Prop :=
  ∀ i p, rest[i]? = some p → ordinals.at (emitted + i) = .ok p

theorem Ordinals.Follows.append {ordinals : Ordinals} {emitted : Nat} {front back : List Nat}
    (h : ordinals.Follows emitted (front ++ back)) :
    ordinals.Follows emitted front ∧ ordinals.Follows (emitted + front.length) back := by
  constructor
  · intro i p hi
    obtain ⟨hlt, -⟩ := List.getElem?_eq_some_iff.mp hi
    exact h i p (by rw [List.getElem?_append_left hlt, hi])
  · intro i p hi
    rw [Nat.add_assoc]
    exact h _ p (by rw [List.getElem?_append_right (Nat.le_add_right _ _), Nat.add_sub_cancel_left, hi])

/-- The projected columns of a read. -/
structure Plan (file : File) where
  positions : List Nat
  rowIdPosition : Option Nat
  rowIdStart : Nat
  mask : List Nat
  indexedOutput : List Nat
  rowIdOutput : Option Nat
  indexed : Projected file mask positions indexedOutput
  rowId : Projected file mask rowIdPosition.toList rowIdOutput.toList

section Loop

variable (plan : Plan file)

/-- The entry of the row at a position. -/
def Plan.entryAt (p : Nat) : Except Error ScopedReadEntry :=
  file.entryAt plan.positions plan.rowIdPosition plan.rowIdStart p

/-- The batches return the rows at these positions. -/
structure Plan.Returns (batches : List RecordBatch) (rest : List Nat) : Prop where
  columns : ∀ batch ∈ batches, batch.columns = masked plan.mask (file.fields.map Field.dataType)
  bound : ∀ p ∈ rest, p < file.rows.length
  rows : batches.flatMap RecordBatch.rows = rest.map fun p => masked plan.mask (file.rows[p]?.getD [])

variable {plan} {ordinals : Ordinals} {rest : List Nat} {emitted : Nat}

theorem Plan.Returns.nil (h : plan.Returns [] rest) : rest = [] :=
  List.map_eq_nil_iff.mp h.rows.symm

/-- The first batch returns the first positions, and the others the rest. -/
theorem Plan.Returns.cons {batch : RecordBatch} {batches : List RecordBatch}
    (h : plan.Returns (batch :: batches) rest) :
    ∃ front back, rest = front ++ back ∧ plan.Returns [batch] front ∧ plan.Returns batches back := by
  obtain ⟨front, back, rfl, hfront, hback⟩ := List.map_eq_append_iff.mp (h.rows.symm.trans List.flatMap_cons)
  refine ⟨front, back, rfl, ⟨fun b hb => ?_, fun p hp => h.bound p (List.mem_append_left _ hp), ?_⟩,
    ⟨fun b hb => h.columns b (List.mem_cons_of_mem _ hb), fun p hp => h.bound p (List.mem_append_right _ hp),
      hback.symm⟩⟩
  · obtain rfl := List.mem_singleton.mp hb
    exact h.columns b List.mem_cons_self
  · rw [List.flatMap_singleton]
    exact hfront.symm

theorem Plan.Returns.length {batch : RecordBatch} (h : plan.Returns [batch] rest) :
    batch.rows.length = rest.length := by
  have hrows := h.rows
  rw [List.flatMap_singleton] at hrows
  rw [hrows, List.length_map]

/-- The entries of a batch are those of the rows it returns. -/
theorem recordBatchEntries_eq {batch : RecordBatch} (h : plan.Returns [batch] rest)
    (hfollows : ordinals.Follows emitted rest)
    (hfits : emitted + rest.length ≤ u64Max) :
    recordBatchEntries batch plan.indexedOutput plan.rowIdOutput plan.rowIdStart ordinals emitted =
      Results.each plan.entryAt rest := by
  have hrows := h.rows
  rw [List.flatMap_singleton] at hrows
  refine Results.each_congr (List.forall₂_iff_get.mpr ⟨by rw [List.length_zipIdx, h.length], fun i hi hi' => ?_⟩)
  have hrow : batch.rows[i]? = some (masked plan.mask (file.rows[rest[i]]?.getD [])) := by
    rw [hrows, List.getElem?_map, List.getElem?_eq_getElem hi]
    rfl
  have hlive : rest[i] < file.rows.length := h.bound _ (List.getElem_mem hi)
  simp only [List.get_eq_getElem, List.getElem_zipIdx, Nat.zero_add]
  obtain ⟨hlt, hcells⟩ := List.getElem?_eq_some_iff.mp hrow
  rw [h.columns batch (List.mem_singleton_self batch), hcells, saturatingAdd_eq (by omega),
    hfollows i rest[i] (List.getElem?_eq_getElem hi)]
  refine rowEntry_masked plan.indexed plan.rowId (file.shaped _ ?_) _
  rw [List.getElem?_eq_getElem hlive]
  exact List.getElem_mem hlive

/-- So are those of all batches. -/
theorem batchEntries_eq {batches : List RecordBatch} {entries : List ScopedReadEntry} (h : plan.Returns batches rest)
    (hfollows : ordinals.Follows emitted rest) (hfits : emitted + rest.length ≤ u64Max) :
    batchEntries plan.indexedOutput plan.rowIdOutput plan.rowIdStart ordinals batches entries emitted =
      (Results.each plan.entryAt rest).map (entries ++ ·) := by
  induction batches generalizing rest entries emitted with
  | nil =>
    rw [h.nil, batchEntries, Results.each]
    exact congrArg Except.ok (List.append_nil entries).symm
  | cons batch batches ih =>
    obtain ⟨front, back, rfl, hfront, hback⟩ := h.cons
    obtain ⟨hfollows, hfollows'⟩ := hfollows.append
    rw [List.length_append] at hfits
    rw [batchEntries, recordBatchEntries_eq hfront hfollows (by omega), Results.each_append_eq]
    cases Results.each plan.entryAt front with
    | error e => rfl
    | ok more =>
      dsimp only
      rw [saturatingAdd_eq (by rw [hfront.length]; omega), hfront.length, ih hback hfollows' (by omega)]
      cases Results.each plan.entryAt back with
      | error e => rfl
      | ok rest => exact congrArg Except.ok (List.append_assoc _ _ _)

-- A consumer that collects what it is handed.

/-- Groups of entries with the position of their first row. -/
abbrev Groups := List (List ScopedReadEntry × Nat)

def collect (entries : List ScopedReadEntry) (firstOrdinal : Nat) : EStateM Error Groups Unit :=
  modify (· ++ [(entries, firstOrdinal)])

/-- All entries of the groups, in order. -/
def Groups.entries (groups : Groups) : List ScopedReadEntry := groups.flatMap Prod.fst

/-- Each group begins where the one before it ends. -/
def Groups.Consecutive : Nat → Groups → Prop
  | _, [] => True
  | first, (entries, firstOrdinal) :: groups => firstOrdinal = first ∧ Consecutive (first + entries.length) groups

/-- The groups are of the rows at the first of some consecutive positions. -/
structure Plan.Fed (plan : Plan file) (first : Nat) (rest : List Nat) (groups : Groups) : Prop where
  consecutive : groups.Consecutive first
  entries : ∃ count, Results.each plan.entryAt (rest.take count) = .ok groups.entries

/-- Batch by batch the entries are fed until one of the rows fails. -/
theorem feedBatches_collect {start : Nat} {batches : List RecordBatch} (groups : Groups) (h : plan.Returns batches rest)
    (hfollows : (Ordinals.offset start).Follows emitted rest) (hfits : start + emitted + rest.length ≤ u64Max) :
    ∃ more, plan.Fed (start + emitted) rest more ∧
      (feedBatches collect plan.indexedOutput plan.rowIdOutput plan.rowIdStart start batches emitted groups =
          .ok () (groups ++ more) ∧ Results.each plan.entryAt rest = .ok more.entries ∨
        ∃ e, feedBatches collect plan.indexedOutput plan.rowIdOutput plan.rowIdStart start batches emitted groups =
          .error e (groups ++ more) ∧ Results.each plan.entryAt rest = .error e) := by
  induction batches generalizing rest emitted groups with
  | nil =>
    rw [h.nil]
    refine ⟨[], ⟨trivial, 0, rfl⟩, .inl ⟨?_, rfl⟩⟩
    rw [List.append_nil]
    rfl
  | cons batch batches ih =>
    obtain ⟨front, back, rfl, hfront, hback⟩ := h.cons
    obtain ⟨hfollows, hfollows'⟩ := hfollows.append
    rw [List.length_append] at hfits
    rw [Results.each_append_eq, feedBatches, recordBatchEntries_eq hfront hfollows (by omega)]
    cases hentries : Results.each plan.entryAt front with
    | error e =>
      refine ⟨[], ⟨trivial, 0, rfl⟩, .inr ⟨e, ?_, rfl⟩⟩
      rw [List.append_nil]
      rfl
    | ok entries =>
      have hlength : entries.length = front.length := (Results.each_forall₂ hentries).length_eq.symm
      have hstep : ∀ next : EStateM Error Groups Unit,
          (do collect entries (saturatingAdd start emitted); next) groups =
            next (groups ++ [(entries, start + emitted)]) := by
        intro next
        rw [saturatingAdd_eq (by omega)]
        rfl
      dsimp only
      rw [hstep, saturatingAdd_eq (by rw [hfront.length]; omega), hfront.length]
      -- What the other batches feed comes after this group.
      obtain ⟨more, hfed, houtcome⟩ := ih (groups ++ [(entries, start + emitted)]) hback hfollows' (by omega)
      obtain ⟨count, hcount⟩ := hfed.entries
      refine ⟨(entries, start + emitted) :: more, ⟨⟨rfl, ?_⟩, front.length + count, ?_⟩, ?_⟩
      · rw [hlength, Nat.add_assoc]
        exact hfed.consecutive
      · rw [List.take_length_add_append, Results.each_append_eq, hentries, hcount]
        rfl
      · rw [List.append_assoc, List.singleton_append] at houtcome
        refine houtcome.imp (fun ⟨hrun, hmore⟩ => ⟨hrun, ?_⟩) fun ⟨e, hrun, hmore⟩ => ⟨e, hrun, ?_⟩
        · rw [hmore]
          rfl
        · rw [hmore]
          rfl

end Loop

/-! ## Reads -/

/-- The row at the position has the entry, as the source of row ids resolves it. -/
def File.Yields (file : File) (columns : List Nat) (source : RowIdSource) (p : Nat) (entry : ScopedReadEntry) : Prop :=
  ∃ rowIdPosition rowIdStart, resolveRowIdSource file source = .ok (rowIdPosition, rowIdStart) ∧
    file.entryAt columns rowIdPosition rowIdStart p = .ok entry

/-- The plan of a read: the row-id source resolves, and the columns can be projected. -/
structure Plan.Of (plan : Plan file) (columns : List Nat) (source : RowIdSource) : Prop where
  positions : plan.positions = columns
  source : resolveRowIdSource file source = .ok (plan.rowIdPosition, plan.rowIdStart)
  projection : projection file columns plan.rowIdPosition = .ok (plan.mask, plan.indexedOutput, plan.rowIdOutput)

section Reads

variable {columns : List Nat} {source : RowIdSource} {plan : Plan file}

/-- A read has a plan, or it is refused before anything is read. -/
theorem exists_plan (file : File) (columns : List Nat) (source : RowIdSource) :
    (∃ plan : Plan file, plan.Of columns source) ∨
      (∃ e, resolveRowIdSource file source = .error e) ∨
      ∃ x e, resolveRowIdSource file source = .ok x ∧ projection file columns x.1 = .error e := by
  cases hsource : resolveRowIdSource file source with
  | error e => exact .inr (.inl ⟨e, rfl⟩)
  | ok x =>
    cases hprojection : projection file columns x.1 with
    | error e => exact .inr (.inr ⟨x, e, rfl, hprojection⟩)
    | ok y =>
      obtain ⟨hindexed, hrowId⟩ := projection_eq_ok hprojection
      exact .inl ⟨⟨columns, x.1, x.2, y.1, y.2.1, y.2.2, hindexed, hrowId⟩, rfl, hsource, hprojection⟩

theorem Plan.Of.yields (h : plan.Of columns source) {p : Nat} {entry : ScopedReadEntry}
    (hentry : plan.entryAt p = .ok entry) : file.Yields columns source p entry := by
  refine ⟨plan.rowIdPosition, plan.rowIdStart, h.source, ?_⟩
  rw [← h.positions]
  exact hentry

/-- What a reader returns of rows of the file. -/
theorem Reader.returns (reader : Reader file) (access : Access) {selection : Option RowSelection}
    (hbound : ∀ p ∈ file.selectedRows selection, p < file.rows.length) :
    plan.Returns (reader.batches access plan.mask selection) (file.selectedRows selection) where
  columns := reader.columns access plan.mask selection
  bound := hbound
  rows := by
    rw [reader.rows, List.filterMap_eq_map_iff_forall_eq_some]
    intro p hp
    rw [List.getElem?_eq_getElem (hbound p hp)]
    rfl

theorem rowSelection_eq_ok {positions : List Nat} {total : Nat} {selection : RowSelection}
    (h : rowSelection positions total = .ok selection) (htotal : total ≤ u64Max) :
    (∀ p ∈ positions, p < total) ∧
      selection.flatMap (fun (start, stop) => List.range' start (stop - start)) = positions := by
  have hpairs : List.Forall₂ (fun p range => p < total ∧ range = (p, p + 1)) positions selection := by
    refine (Results.each_forall₂ h).imp fun p range ⟨_, hrange⟩ => ?_
    split at hrange
    · next hlt =>
      cases hrange
      exact ⟨hlt, by rw [saturatingAdd_eq (by omega)]⟩
    · cases hrange
  clear h
  induction hpairs with
  | nil => exact ⟨nofun, rfl⟩
  | @cons p range positions selection hrange _ ih =>
    obtain ⟨hlt, rfl⟩ := hrange
    refine ⟨fun q hq => ?_, ?_⟩
    · rcases List.mem_cons.mp hq with rfl | hq
      · exact hlt
      · exact ih.1 q hq
    · rw [List.flatMap_cons, ih.2]
      dsimp only
      rw [Nat.add_sub_cancel_left]
      rfl

theorem rowSelection_of_bound {positions : List Nat} {total : Nat} (h : ∀ p ∈ positions, p < total) :
    ∃ selection, rowSelection positions total = .ok selection :=
  Results.each_total fun p hp => ⟨_, if_pos (h p hp)⟩

/-- A read of all rows has the entry of each. -/
theorem Plan.Of.all (h : plan.Of columns source) (reader : Reader file) (access : Access) :
    selectedEntries reader access columns none source = Results.each plan.entryAt (List.range file.rows.length) := by
  have hcounted := file.counted
  have hfollows : Ordinals.dense.Follows 0 (List.range file.rows.length) := by
    intro i p hi
    obtain ⟨hlt, heq⟩ := List.getElem?_eq_some_iff.mp hi
    rw [← heq, List.getElem_range, Nat.zero_add]
    rfl
  have hreturns : plan.Returns (reader.batches access plan.mask none) (List.range file.rows.length) :=
    reader.returns access fun p hp => List.mem_range.mp hp
  rw [selectedEntries, h.source]
  dsimp only
  rw [h.projection]
  dsimp only
  rw [batchEntries_eq hreturns hfollows (by rw [List.length_range, u64Max]; omega)]
  cases Results.each plan.entryAt (List.range file.rows.length) <;> rfl

/-- So has a read of selected rows. -/
theorem Plan.Of.selected (h : plan.Of columns source) (reader : Reader file) (access : Access) {positions : List Nat}
    (hbound : ∀ p ∈ positions, p < file.rows.length) (hnodup : positions.Nodup) :
    selectedEntries reader access columns (some positions) source = Results.each plan.entryAt positions := by
  have hcounted := file.counted
  have hcount := (hnodup.subperm fun p hp => List.mem_range.mpr (hbound p hp)).length_le
  rw [List.length_range] at hcount
  obtain ⟨selection, hselection⟩ := rowSelection_of_bound hbound
  obtain ⟨-, hrows⟩ := rowSelection_eq_ok hselection (by rw [u64Max]; omega)
  have hfollows : (Ordinals.selected positions).Follows 0 positions := by
    intro i p hi
    rw [Nat.zero_add, Ordinals.at, hi]
  have hreturns : plan.Returns (reader.batches access plan.mask (some selection)) positions := by
    have hselected : file.selectedRows (some selection) = positions := hrows
    rw [← hselected] at hbound ⊢
    exact reader.returns access hbound
  rw [selectedEntries, h.source]
  dsimp only
  rw [h.projection]
  dsimp only
  rw [hselection]
  dsimp only
  rw [batchEntries_eq hreturns hfollows (by rw [u64Max]; omega)]
  cases Results.each plan.entryAt positions <;> rfl

/-- A read that is resumed at a row feeds the entries of the rows from there on, until one fails. -/
theorem Plan.Of.resumed (h : plan.Of columns source) (reader : Reader file) (fileSize : Option Nat) {start : Nat}
    (hstart : start < file.rows.length) :
    ∃ groups, plan.Fed start (List.range' start (file.rows.length - start)) groups ∧
      (scopedReadEntryBatches collect reader columns source fileSize start [] = .ok () groups ∧
          Results.each plan.entryAt (List.range' start (file.rows.length - start)) = .ok groups.entries ∨
        ∃ e, scopedReadEntryBatches collect reader columns source fileSize start [] = .error e groups ∧
          Results.each plan.entryAt (List.range' start (file.rows.length - start)) = .error e) := by
  have hcounted := file.counted
  have hrows : file.selectedRows (some [(start, file.rows.length)]) = List.range' start (file.rows.length - start) := by
    rw [File.selectedRows, List.flatMap_singleton]
  have hreturns : plan.Returns (reader.batches (accessOf file fileSize) plan.mask (some [(start, file.rows.length)]))
      (List.range' start (file.rows.length - start)) := by
    rw [← hrows]
    refine reader.returns _ fun p hp => ?_
    rw [hrows, List.mem_range'_1] at hp
    omega
  have hfollows : (Ordinals.offset start).Follows 0 (List.range' start (file.rows.length - start)) := by
    intro i p hi
    obtain ⟨hlt, heq⟩ := List.getElem?_eq_some_iff.mp hi
    rw [List.length_range'] at hlt
    rw [← heq, List.getElem_range', Nat.zero_add, Nat.one_mul, Ordinals.at, saturatingAdd_eq (by rw [u64Max]; omega)]
  have hfits : start + 0 + (List.range' start (file.rows.length - start)).length ≤ u64Max := by
    rw [List.length_range', u64Max]
    omega
  have hread : scopedReadEntryBatches collect reader columns source fileSize start =
      feedBatches collect plan.indexedOutput plan.rowIdOutput plan.rowIdStart start
        (reader.batches (accessOf file fileSize) plan.mask (some [(start, file.rows.length)])) 0 := by
    simp only [scopedReadEntryBatches]
    rw [if_neg (by omega), if_neg (by omega), h.source]
    dsimp only
    rw [h.projection]
  rw [hread]
  exact feedBatches_collect [] hreturns hfollows hfits

end Reads

section Agreement

variable (reader : Reader file) (columns : List Nat) (source : RowIdSource)

/-- What scoped reads of a file have in common. -/
structure ReadsAgree : Prop where
  /-- A read of all rows has the entry of each. -/
  full : ∀ fileSize entries, scopedReadEntries reader columns .all source fileSize = .ok entries →
    List.Forall₂ (file.Yields columns source) (List.range file.rows.length) entries
  /-- So has a read of selected rows. -/
  selected : ∀ fileSize wanted entries,
    scopedReadEntries reader columns (.selected wanted) source fileSize = .ok entries →
    List.Forall₂ (file.Yields columns source) wanted.toList entries
  /-- A read that is resumed at a row has fed the entries of rows from there on, also where it fails. -/
  fed : ∀ fileSize start groups,
    (scopedReadEntryBatches collect reader columns source fileSize start [] = .ok () groups ∨
      ∃ e, scopedReadEntryBatches collect reader columns source fileSize start [] = .error e groups) →
    Groups.Consecutive start groups ∧
      ∃ count, List.Forall₂ (file.Yields columns source) (List.range' start count) (Groups.entries groups)
  /-- Where all rows can be read, so can rows of the file, with the same entries. -/
  selects : ∀ fileSize all, scopedReadEntries reader columns .all source fileSize = .ok all →
    ∀ fileSize' wanted, (∀ p ∈ wanted, p < file.rows.length) →
      scopedReadEntries reader columns (.selected wanted) source fileSize' = .ok (wanted.toList.filterMap (all[·]?))
  /-- A position past the file is refused. -/
  refuses : ∀ fileSize wanted, (∃ p ∈ wanted, file.rows.length ≤ p) →
    ∀ entries, scopedReadEntries reader columns (.selected wanted) source fileSize ≠ .ok entries
  /-- Where all rows can be read, a read that is resumed at a row of the file feeds the same entries from there on. -/
  resumes : ∀ fileSize all, scopedReadEntries reader columns .all source fileSize = .ok all →
    ∀ fileSize' start, start ≤ file.rows.length → ∃ groups : Groups,
      scopedReadEntryBatches collect reader columns source fileSize' start [] = .ok () groups ∧
        groups.Consecutive start ∧ groups.entries = all.drop start

variable {reader columns source}

theorem exists_plan_of_selectedEntries {access : Access} {selected : Option (List Nat)} {entries : List ScopedReadEntry}
    (h : selectedEntries reader access columns selected source = .ok entries) :
    ∃ plan : Plan file, plan.Of columns source := by
  rcases exists_plan file columns source with hplan | ⟨e, he⟩ | ⟨x, e, hx, he⟩
  · exact hplan
  · rw [selectedEntries, he] at h
    cases h
  · rw [selectedEntries, hx] at h
    dsimp only at h
    rw [he] at h
    cases h

theorem bound_of_selectedEntries {access : Access} {positions : List Nat} {entries : List ScopedReadEntry}
    (h : selectedEntries reader access columns (some positions) source = .ok entries) :
    ∀ p ∈ positions, p < file.rows.length := by
  obtain ⟨plan, hplan⟩ := exists_plan_of_selectedEntries h
  rw [selectedEntries, hplan.source] at h
  dsimp only at h
  rw [hplan.projection] at h
  dsimp only at h
  have hcounted := file.counted
  cases hselection : rowSelection positions file.rows.length with
  | error e => rw [hselection] at h; cases h
  | ok selection => exact (rowSelection_eq_ok hselection (by rw [u64Max]; omega)).1

theorem scopedReadEntries_selected (fileSize : Option Nat) (wanted : ExtTreeSet Nat) :
    scopedReadEntries reader columns (.selected wanted) source fileSize =
      if wanted.toList = [] then .ok []
      else selectedEntries reader (accessOf file fileSize) columns (some wanted.toList) source := by
  unfold scopedReadEntries selectedPositions
  dsimp only
  cases wanted.toList with
  | nil => rfl
  | cons p positions => rfl

/-- The entries at some of the positions that have all been read. -/
theorem each_of_range {f : Nat → Except Error ScopedReadEntry} {n : Nat} {all : List ScopedReadEntry}
    (h : Results.each f (List.range n) = .ok all) {positions : List Nat} (hbound : ∀ p ∈ positions, p < n) :
    Results.each f positions = .ok (positions.filterMap (all[·]?)) := by
  obtain ⟨hlength, hentries⟩ := List.forall₂_iff_get.mp (Results.each_forall₂ h)
  rw [List.length_range] at hlength
  induction positions with
  | nil => rfl
  | cons p positions ih =>
    have hp := hbound p List.mem_cons_self
    have hentry := (hentries p (by rw [List.length_range]; exact hp) (hlength ▸ hp)).2
    rw [List.get_eq_getElem, List.getElem_range] at hentry
    rw [Results.each, hentry]
    dsimp only
    rw [ih fun q hq => hbound q (List.mem_cons_of_mem _ hq), List.filterMap_cons,
      List.getElem?_eq_getElem (hlength ▸ hp)]
    rfl

/-- Where something has been fed, the read has a plan. -/
theorem exists_plan_of_fed {fileSize : Option Nat} {start : Nat} {groups : Groups}
    (h : scopedReadEntryBatches collect reader columns source fileSize start [] = .ok () groups ∨
      ∃ e, scopedReadEntryBatches collect reader columns source fileSize start [] = .error e groups) :
    groups = [] ∨ ∃ plan : Plan file, plan.Of columns source ∧ start < file.rows.length := by
  have hnothing : ∀ {outcome : EStateM.Result Error Groups Unit}, (outcome = .ok () [] ∨ ∃ e, outcome = .error e []) →
      (outcome = .ok () groups ∨ ∃ e, outcome = .error e groups) → groups = [] := by
    rintro outcome (rfl | ⟨_, rfl⟩) (h | ⟨_, h⟩) <;> cases h <;> rfl
  simp only [scopedReadEntryBatches] at h
  split at h
  · exact .inl (hnothing (.inr ⟨_, rfl⟩) h)
  split at h
  · exact .inl (hnothing (.inl rfl) h)
  next hle hne =>
  rcases exists_plan file columns source with ⟨plan, hplan⟩ | ⟨e, he⟩ | ⟨x, e, hx, he⟩
  · exact .inr ⟨plan, hplan, by omega⟩
  · rw [he] at h
    exact .inl (hnothing (.inr ⟨e, rfl⟩) h)
  · rw [hx] at h
    dsimp only at h
    rw [he] at h
    exact .inl (hnothing (.inr ⟨e, rfl⟩) h)

theorem take_range' (start length count : Nat) :
    (List.range' start length).take count = List.range' start (min count length) := by
  refine List.ext_getElem (by simp) fun i _ _ => ?_
  simp

/-- What a read that is resumed at a row has fed, whether it returned or failed. -/
theorem yields_of_fed {fileSize : Option Nat} {start : Nat} {groups : Groups}
    (h : scopedReadEntryBatches collect reader columns source fileSize start [] = .ok () groups ∨
      ∃ e, scopedReadEntryBatches collect reader columns source fileSize start [] = .error e groups) :
    groups.Consecutive start ∧ ∃ count ≤ file.rows.length - start,
      List.Forall₂ (file.Yields columns source) (List.range' start count) groups.entries := by
  rcases exists_plan_of_fed h with rfl | ⟨plan, hplan, hstart⟩
  · exact ⟨trivial, 0, Nat.zero_le _, .nil⟩
  · obtain ⟨fed, hfed, houtcome⟩ := hplan.resumed reader fileSize hstart
    obtain rfl : groups = fed := by
      rcases h with h | ⟨_, h⟩ <;> rcases houtcome with ⟨hrun, -⟩ | ⟨_, hrun, -⟩ <;> rw [hrun] at h <;> cases h <;> rfl
    obtain ⟨count, hentries⟩ := hfed.entries
    refine ⟨hfed.consecutive, min count (file.rows.length - start), Nat.min_le_right _ _, ?_⟩
    rw [take_range'] at hentries
    exact (Results.each_forall₂ hentries).imp fun p entry hentry => hplan.yields hentry.2

end Agreement

/-- Scoped reads agree however they are split. For every file, with or without an embedded row-id column, every list
    of index columns and whatever batches the reader cuts the rows into, a read of selected rows and one that is resumed
    at a row have the entries that a read of all rows has at the same positions. -/
theorem scoped_reads_agree (reader : Reader file) (columns : List Nat) (source : RowIdSource) :
    ReadsAgree reader columns source where
  full fileSize entries h := by
    change selectedEntries reader _ columns none source = _ at h
    obtain ⟨plan, hplan⟩ := exists_plan_of_selectedEntries h
    rw [hplan.all] at h
    exact (Results.each_forall₂ h).imp fun p entry hentry => hplan.yields hentry.2
  selected fileSize wanted entries h := by
    rw [scopedReadEntries_selected] at h
    split at h
    · next hnil =>
      cases h
      rw [hnil]
      exact .nil
    · obtain ⟨plan, hplan⟩ := exists_plan_of_selectedEntries h
      rw [hplan.selected reader _ (bound_of_selectedEntries h) (nodup_toList_set wanted)] at h
      exact (Results.each_forall₂ h).imp fun p entry hentry => hplan.yields hentry.2
  fed fileSize start groups h := by
    obtain ⟨hconsecutive, count, -, hentries⟩ := yields_of_fed h
    exact ⟨hconsecutive, count, hentries⟩
  selects fileSize all hall fileSize' wanted hbound := by
    change selectedEntries reader _ columns none source = _ at hall
    obtain ⟨plan, hplan⟩ := exists_plan_of_selectedEntries hall
    rw [hplan.all] at hall
    have hbound' : ∀ p ∈ wanted.toList, p < file.rows.length := fun p hp => hbound p (ExtTreeSet.mem_toList.mp hp)
    rw [scopedReadEntries_selected]
    split
    · next hnil => rw [hnil]; rfl
    · rw [hplan.selected reader _ hbound' (nodup_toList_set wanted), each_of_range hall hbound']
  refuses fileSize wanted hpast entries h := by
    obtain ⟨p, hp, hle⟩ := hpast
    have hmem : p ∈ wanted.toList := ExtTreeSet.mem_toList.mpr hp
    rw [scopedReadEntries_selected, if_neg (List.ne_nil_of_mem hmem)] at h
    exact absurd (bound_of_selectedEntries h p hmem) (Nat.not_lt.mpr hle)
  resumes fileSize all hall fileSize' start hstart := by
    change selectedEntries reader _ columns none source = _ at hall
    obtain ⟨plan, hplan⟩ := exists_plan_of_selectedEntries hall
    rw [hplan.all] at hall
    have hsplit : List.range file.rows.length = List.range start ++ List.range' start (file.rows.length - start) := by
      rw [List.range_eq_range', List.range_eq_range', ← Nat.add_sub_cancel' hstart, ← List.range'_append_1,
        Nat.add_sub_cancel_left, Nat.zero_add]
    rw [hsplit] at hall
    have hdrop := (Results.each_append hall).2
    rw [List.length_range] at hdrop
    rcases Nat.lt_or_eq_of_le hstart with hlt | rfl
    · obtain ⟨groups, hfed, ⟨hrun, hentries⟩ | ⟨e, -, herror⟩⟩ := hplan.resumed reader fileSize' hlt
      · exact ⟨groups, hrun, hfed.consecutive, Except.ok.inj (hentries.symm.trans hdrop)⟩
      · rw [hdrop] at herror
        cases herror
    · refine ⟨[], ?_, trivial, ?_⟩
      · unfold scopedReadEntryBatches
        rw [if_neg (Nat.lt_irrefl _), if_pos rfl]
        rfl
      · rw [Nat.sub_self] at hdrop
        exact Except.ok.inj hdrop

/-- Three rows with an embedded row-id column between two indexed ones. -/
def threeRows : File where
  path := "a.parquet"
  size := 0
  fields := [⟨some 1, .int64⟩, ⟨some ROW_ID_FIELD_ID, .int64⟩, ⟨some 2, .utf8⟩]
  rows := [[some (.int 7), some (.int 40), none], [some (.int 8), some (.int 50), some (.str "x")],
    [some (.int 9), some (.int 41), none]]
  shaped := by decide
  counted := by decide

/-- The index columns are named in another order and twice, and every row comes in a batch of its own: the first and
    third row, and a read that is resumed at the second, have the entries of the read of all rows. -/
theorem scoped_reads_agree_rowByRow :
    scopedReadEntries (.rowByRow threeRows) [2, 0, 2] (.selected (ExtTreeSet.ofList [2, 0])) (.resolve (some 3)) none =
      .ok [⟨40, [none, some (.int 7 .i64), none]⟩, ⟨41, [none, some (.int 9 .i64), none]⟩] ∧
    ∃ groups : Groups,
      scopedReadEntryBatches collect (.rowByRow threeRows) [2, 0, 2] (.resolve (some 3)) none 1 [] = .ok () groups ∧
      groups.map Prod.snd = [1, 2] ∧ groups.entries =
        [⟨50, [some (.str "x"), some (.int 8 .i64), some (.str "x")]⟩, ⟨41, [none, some (.int 9 .i64), none]⟩] := by
  have hall : scopedReadEntries (.rowByRow threeRows) [2, 0, 2] .all (.resolve (some 3)) none =
      .ok [⟨40, [none, some (.int 7 .i64), none]⟩, ⟨50, [some (.str "x"), some (.int 8 .i64), some (.str "x")]⟩,
        ⟨41, [none, some (.int 9 .i64), none]⟩] := rfl
  have hagree := scoped_reads_agree (.rowByRow threeRows) [2, 0, 2] (.resolve (some 3))
  obtain ⟨groups, hrun, -, hentries⟩ := hagree.resumes none _ hall none 1 (by decide)
  have hbound : ∀ p ∈ (ExtTreeSet.ofList [2, 0] : ExtTreeSet Nat), p < threeRows.rows.length := by
    simp [ExtTreeSet.mem_ofList, threeRows]
  refine ⟨(hagree.selects none _ hall none _ hbound).trans rfl, groups, hrun, ?_, hentries⟩
  cases hrun
  rfl

end Parquet

end Moraine
