-- SUMMARY: Store keys, their order, and the decoded records that live under them.
import Moraine.Base.OrdMap
import Moraine.Store.Proto

/-!
# Keys and records

A key is a typed tree: subspace, kind, components. Its encoding is order preserving, one discriminant
per enum level in declaration order and then the components, so the order of encoded keys is the
lexicographic order of the discriminants and components. Only the order of the `current` subspace is
needed: a scan, a changelog and a replay go through its keys in that order.
-/

namespace Moraine

/-- A temporally versioned catalog entity, or one of the unversioned kinds keyed beside them. -/
inductive EntityKey where
  | schema (schemaId : Nat)
  | table (tableId : Nat)
  | view (viewId : Nat)
  | column (tableId columnId : Nat)
  | partition (tableId partitionId : Nat)
  | file (tableId dataFileId : Nat)
  | deleteFile (tableId deleteFileId : Nat)
  | fileColumnStats (tableId dataFileId columnId : Nat)
  | tableStats (tableId : Nat)
  | tableColumnStats (tableId columnId : Nat)
  | tag (objectId : Nat)
  | option (scopeKind scopeId : Nat)
  | sort (tableId sortId : Nat)
  | macroDef (macroId : Nat)
  | mapping (tableId mappingId : Nat)
  | index (tableId indexId : Nat)
  deriving DecidableEq, Inhabited

/-- A live record's key: an entity, or a row of the deletion schedule. -/
inductive CurrentKey where
  | entity (key : EntityKey)
  | gcFile (dataFileId : Nat)
  deriving Inhabited

/-- The discriminants and components of a key, in encoding order. -/
def CurrentKey.components : CurrentKey → List Nat
  | .entity (.schema s) => [0, 0, s]
  | .entity (.table t) => [0, 1, t]
  | .entity (.view v) => [0, 2, v]
  | .entity (.column t c) => [0, 3, t, c]
  | .entity (.partition t p) => [0, 4, t, p]
  | .entity (.file t f) => [0, 5, t, f]
  | .entity (.deleteFile t d) => [0, 6, t, d]
  | .entity (.fileColumnStats t f c) => [0, 7, t, f, c]
  | .entity (.tableStats t) => [0, 8, t]
  | .entity (.tableColumnStats t c) => [0, 9, t, c]
  | .entity (.tag o) => [0, 10, o]
  | .entity (.option k s) => [0, 11, k, s]
  | .entity (.sort t s) => [0, 12, t, s]
  | .entity (.macroDef m) => [0, 13, m]
  | .entity (.mapping t m) => [0, 14, t, m]
  | .entity (.index t i) => [0, 15, t, i]
  | .gcFile f => [1, f]

/-- `Key::decode` on the `current` subspace: an unknown discriminant or a wrong arity fails. -/
def CurrentKey.decode : List Nat → Option CurrentKey
  | [0, 0, s] => some (.entity (.schema s))
  | [0, 1, t] => some (.entity (.table t))
  | [0, 2, v] => some (.entity (.view v))
  | [0, 3, t, c] => some (.entity (.column t c))
  | [0, 4, t, p] => some (.entity (.partition t p))
  | [0, 5, t, f] => some (.entity (.file t f))
  | [0, 6, t, d] => some (.entity (.deleteFile t d))
  | [0, 7, t, f, c] => some (.entity (.fileColumnStats t f c))
  | [0, 8, t] => some (.entity (.tableStats t))
  | [0, 9, t, c] => some (.entity (.tableColumnStats t c))
  | [0, 10, o] => some (.entity (.tag o))
  | [0, 11, k, s] => some (.entity (.option k s))
  | [0, 12, t, s] => some (.entity (.sort t s))
  | [0, 13, m] => some (.entity (.macroDef m))
  | [0, 14, t, m] => some (.entity (.mapping t m))
  | [0, 15, t, i] => some (.entity (.index t i))
  | [1, f] => some (.gcFile f)
  | _ => none

/-- Decoding inverts encoding. -/
theorem CurrentKey.decode_components (k : CurrentKey) : decode k.components = some k := by
  rcases k with ⟨⟨⟩⟩ | _ <;> rfl

theorem CurrentKey.components_injective : Function.Injective CurrentKey.components := by
  intro k l h
  have := congrArg decode h
  rwa [decode_components, decode_components, Option.some.injEq] at this

/-- Keys in the order of their encodings. -/
instance : LinearOrder CurrentKey :=
  LinearOrder.lift' CurrentKey.components CurrentKey.components_injective

instance : Std.LawfulEqOrd CurrentKey := ⟨fun h => compare_eq_iff_eq.mp h⟩

-- The orders of map keys are instances of their own: definitions refer to them by name.
instance : Std.TransOrd CurrentKey := inferInstance

theorem CurrentKey.lt_iff {k l : CurrentKey} : k < l ↔ k.components < l.components := Iff.rfl

/-- A decoded record of the `current` subspace. The scope of an option record is in its key only, so
    the decoder attaches it. -/
inductive EntityRecord where
  | schema (value : SchemaValue)
  | table (value : TableValue)
  | view (value : ViewValue)
  | column (value : ColumnValue)
  | file (value : DataFileValue)
  | deleteFile (value : DeleteFileValue)
  | partition (value : PartitionValue)
  | sort (value : SortValue)
  | macroDef (value : MacroValue)
  | mapping (value : MappingValue)
  | index (value : IndexValue)
  | fileColumnStats (value : FileColumnStatsValue)
  | tableStats (value : TableStatsValue)
  | tableColumnStats (value : TableColumnStatsValue)
  | option (scopeKind scopeId : Nat) (value : OptionScopeValue)
  | tag (value : TagValue)
  | gcFile (value : GcFileValue)
  deriving DecidableEq

namespace EntityRecord

/-- The key a record's own ids name. -/
def key : EntityRecord → CurrentKey
  | schema v => .entity (.schema v.schemaId)
  | table v => .entity (.table v.tableId)
  | view v => .entity (.view v.viewId)
  | column v => .entity (.column v.tableId v.columnId)
  | file v => .entity (.file v.tableId v.dataFileId)
  | deleteFile v => .entity (.deleteFile v.tableId v.deleteFileId)
  | partition v => .entity (.partition v.tableId v.partitionId)
  | sort v => .entity (.sort v.tableId v.sortId)
  | macroDef v => .entity (.macroDef v.macroId)
  | mapping v => .entity (.mapping v.tableId v.mappingId)
  | index v => .entity (.index v.tableId v.indexId)
  | fileColumnStats v => .entity (.fileColumnStats v.tableId v.dataFileId v.columnId)
  | tableStats v => .entity (.tableStats v.tableId)
  | tableColumnStats v => .entity (.tableColumnStats v.tableId v.columnId)
  | option k s _ => .entity (.option k s)
  | tag v => .entity (.tag v.objectId)
  | gcFile v => .gcFile v.dataFileId

/-- The record's begin and end snapshot; `none` for the unversioned kinds, which are live at any
    time-travel target. -/
def lifecycle : EntityRecord → Option (Nat × Option Nat)
  | schema v => some (v.beginSnapshot, v.endSnapshot)
  | table v => some (v.beginSnapshot, v.endSnapshot)
  | view v => some (v.beginSnapshot, v.endSnapshot)
  | column v => some (v.beginSnapshot, v.endSnapshot)
  | file v => some (v.beginSnapshot, v.endSnapshot)
  | deleteFile v => some (v.beginSnapshot, v.endSnapshot)
  | partition v => some (v.beginSnapshot, v.endSnapshot)
  | sort v => some (v.beginSnapshot, v.endSnapshot)
  | macroDef v => some (v.beginSnapshot, v.endSnapshot)
  | index v => some (v.beginSnapshot, v.endSnapshot)
  | mapping _ | fileColumnStats _ | tableStats _ | tableColumnStats _ | option .. | tag _ | gcFile _ => none

end EntityRecord

/-- A name a catalog entity can be looked up by, with its scope: a schema for tables, views and macros,
    a table for indexes. -/
inductive NameKey where
  | schema (name : String)
  | table (schemaId : Nat) (name : String)
  | view (schemaId : Nat) (name : String)
  | macroDef (schemaId : Nat) (name : String)
  | index (tableId : Nat) (name : String)
  deriving DecidableEq

/-- The name a record is looked up by, `none` for the kinds that have none. -/
def EntityRecord.nameKey : EntityRecord → Option NameKey
  | schema v => some (.schema v.schemaName)
  | table v => some (.table v.schemaId v.tableName)
  | view v => some (.view v.schemaId v.viewName)
  | macroDef v => some (.macroDef v.schemaId v.macroName)
  | index v => some (.index v.tableId v.indexName)
  | _ => none

end Moraine
