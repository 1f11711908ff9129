-- SUMMARY: Live records by key, and the records and names that the removals of a view take with them.
import Moraine.Transaction.Fold

/-!
# Live records and removals

A removal drops the records of some keys and nothing else, and unlinks the names these records hold. Most remove one
key, like a fold does. Dropping a table takes along what belongs to it, dropping a schema its options, and dropping
a column its statistics.
-/

namespace Moraine

open OrdMap

/-- What is dropped with a table. Per-file statistics and mappings stay. -/
def CurrentKey.dropsWith (t : Nat) : CurrentKey → Bool
  | .entity (.table t') | .entity (.column t' _) | .entity (.file t' _) | .entity (.deleteFile t' _)
  | .entity (.partition t' _) | .entity (.sort t' _) | .entity (.index t' _) | .entity (.tableStats t')
  | .entity (.tableColumnStats t' _) | .entity (.option 2 t') => t' == t
  | _ => false

namespace CatalogSnapshot

variable (v : CatalogSnapshot)

section Live

variable {v}

theorem get_schema {s : Nat} {value : SchemaValue} (h : v.schemas[s]? = some value) :
    v.get (.entity (.schema s)) = some (.schema value) := by simp only [get, h, Option.map_some]

theorem get_table {t : Nat} {value : TableValue} (h : v.tables[t]? = some value) :
    v.get (.entity (.table t)) = some (.table value) := by simp only [get, h, Option.map_some]

theorem get_view {w : Nat} {value : ViewValue} (h : v.views[w]? = some value) :
    v.get (.entity (.view w)) = some (.view value) := by simp only [get, h, Option.map_some]

theorem get_column {t c : Nat} {value : ColumnValue} (h : getNested v.columns t c = some value) :
    v.get (.entity (.column t c)) = some (.column value) := by simp only [get, h, Option.map_some]

theorem get_index {t i : Nat} {value : IndexValue} (h : getNested v.indexes t i = some value) :
    v.get (.entity (.index t i)) = some (.index value) := by simp only [get, h, Option.map_some]

theorem get_file {t f : Nat} {value : DataFileValue} (h : getNested v.dataFiles t f = some value) :
    v.get (.entity (.file t f)) = some (.file value) := by simp only [get, h, Option.map_some]

theorem get_tableStats {t : Nat} {value : TableStatsValue} (h : v.tableStats[t]? = some value) :
    v.get (.entity (.tableStats t)) = some (.tableStats value) := by simp only [get, h, Option.map_some]

end Live

section Get

/-- A view that lacks the records of some keys has no others. -/
theorem get_of_ite {v w : CatalogSnapshot} {D : CurrentKey → Prop} [DecidablePred D]
    (h : ∀ k, w.get k = if D k then none else v.get k) {k : CurrentKey} {r : EntityRecord} (hr : w.get k = some r) :
    v.get k = some r := by
  rw [h] at hr
  split at hr
  · cases hr
  · exact hr

theorem get_deleteView (id : Nat) (k : CurrentKey) :
    (v.deleteView id).get k = if k = .entity (.view id) then none else v.get k :=
  v.get_remove (k := .entity (.view id)) rfl k

theorem get_deleteMacro (id : Nat) (k : CurrentKey) :
    (v.deleteMacro id).get k = if k = .entity (.macroDef id) then none else v.get k :=
  v.get_remove (k := .entity (.macroDef id)) rfl k

theorem get_deletePartition (t p : Nat) (k : CurrentKey) :
    (v.deletePartition t p).get k = if k = .entity (.partition t p) then none else v.get k :=
  v.get_remove (k := .entity (.partition t p)) rfl k

theorem get_deleteSort (t s : Nat) (k : CurrentKey) :
    (v.deleteSort t s).get k = if k = .entity (.sort t s) then none else v.get k :=
  v.get_remove (k := .entity (.sort t s)) rfl k

theorem get_deleteIndex (t i : Nat) (k : CurrentKey) :
    (v.deleteIndex t i).get k = if k = .entity (.index t i) then none else v.get k :=
  v.get_remove (k := .entity (.index t i)) rfl k

theorem get_deleteDataFile (t f : Nat) (k : CurrentKey) :
    (v.deleteDataFile t f).get k = if k = .entity (.file t f) then none else v.get k :=
  v.get_remove (k := .entity (.file t f)) rfl k

theorem get_deleteDeleteFile (t f : Nat) (k : CurrentKey) :
    (v.deleteDeleteFile t f).get k = if k = .entity (.deleteFile t f) then none else v.get k :=
  v.get_remove (k := .entity (.deleteFile t f)) rfl k

theorem get_removeOptionRecord (components : Nat × Nat) (k : CurrentKey) :
    (v.removeOptionRecord components).get k =
      if k = .entity (.option components.1 components.2) then none else v.get k :=
  v.get_remove (k := .entity (.option components.1 components.2)) rfl k

theorem get_deleteSchema (s : Nat) (k : CurrentKey) :
    (v.deleteSchema s).get k =
      if k = .entity (.schema s) ∨ k = .entity (.option 1 s) then none else v.get k := by
  rw [deleteSchema, get_removeOptionRecord]
  have hschema : (v.removeSchemaOnly s).get k = if k = .entity (.schema s) then none else v.get k :=
    v.get_remove (k := .entity (.schema s)) rfl k
  rw [hschema, schemaScope]
  split
  · next h => rw [if_pos (.inr h)]
  · next h => simp only [h, or_false]

theorem get_deleteColumn (t c : Nat) (k : CurrentKey) :
    (v.deleteColumn t c).get k =
      if k = .entity (.column t c) ∨ k = .entity (.tableColumnStats t c) then none else v.get k := by
  have hstats : (v.deleteColumn t c).get k =
      if k = .entity (.tableColumnStats t c) then none else (v.removeColumnOnly t c).get k :=
    (v.removeColumnOnly t c).get_remove (k := .entity (.tableColumnStats t c)) rfl k
  have hcolumn : (v.removeColumnOnly t c).get k = if k = .entity (.column t c) then none else v.get k :=
    v.get_remove (k := .entity (.column t c)) rfl k
  rw [hstats, hcolumn]
  split
  · next h => rw [if_pos (.inr h)]
  · next h => simp only [h, or_false]

theorem get_deleteTable (t : Nat) (k : CurrentKey) :
    (v.deleteTable t).get k = if k.dropsWith t then none else v.get k := by
  rw [deleteTable, get_removeOptionRecord]
  rcases k with ⟨⟨⟩⟩ | _
  case entity.option kind scope =>
    rw [tableScope]
    by_cases hkind : kind = 2
    · subst hkind
      simp [CurrentKey.dropsWith, get, removeTableOnly]
    · have hkeeps : CurrentKey.dropsWith t (.entity (.option kind scope)) = false := by
        unfold CurrentKey.dropsWith
        split <;> simp_all
      simp [hkeeps, hkind, get, removeTableOnly]
  all_goals simp [CurrentKey.dropsWith, get, removeTableOnly, map_ite]

end Get

end CatalogSnapshot

end Moraine
