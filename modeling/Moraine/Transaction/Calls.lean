-- SUMMARY: The calls of verbs that commit closures make.
import Moraine.Transaction.Verbs

/-!
# Verb calls

A commit closure's effect on its transaction is a sequence of verb calls. They start from a sound view: every record
stands under the key its own ids name and carries no end.
-/

namespace Moraine

open Std OrdMap

namespace CatalogSnapshot

/-- Every record stands under the key its own ids name and carries no end. -/
def Sound (v : CatalogSnapshot) : Prop := ∀ k r, v.get k = some r → r.key = k ∧ isLive none r

variable {v w : CatalogSnapshot}

theorem Sound.putRecord (hv : v.Sound) {r : EntityRecord} (hr : isLive none r) : (v.putRecord r).Sound := by
  intro k r' h
  rw [get_putRecord] at h
  split at h
  · next hk => cases h; exact ⟨hk.symm, hr⟩
  · exact hv k r' h

/-- Removing records keeps a view sound. -/
theorem Sound.mono (hv : v.Sound) (h : ∀ k r, w.get k = some r → v.get k = some r) : w.Sound :=
  fun k r hr => hv k r (h k r hr)

/-- Without a target, a versioned record is live if it carries no end and any other always. -/
theorem isLive_none (r : EntityRecord) : isLive none r = (r.lifecycle.bind Prod.snd).isNone := by
  unfold isLive included
  cases r.lifecycle with
  | none => rfl
  | some life => cases life.2 <;> simp [*]

/-- A versioned record of a sound view carries no end. -/
theorem Sound.unended (hv : v.Sound) {k : CurrentKey} {r : EntityRecord} (h : v.get k = some r) {begun : Nat}
    {ended : Option Nat} (hlife : r.lifecycle = some (begun, ended)) : ended = none := by
  have hlive := (hv k r h).2
  rw [isLive_none, hlife] at hlive
  simpa using hlive

end CatalogSnapshot

namespace Transaction

theorem findIndex_some {v : CatalogSnapshot} {index table : Nat} {value : IndexValue}
    (h : findIndex v index = some (table, value)) : getNested v.indexes table index = some value := by
  obtain ⟨⟨t, perTable⟩, hmem, hvalue⟩ := List.exists_of_findSome?_eq_some h
  obtain ⟨_, hget, heq⟩ := Option.map_eq_some_iff.mp hvalue
  cases heq
  simpa [getNested, (ExtTreeMap.mem_toList_iff_getElem?_eq_some.mp hmem)] using hget

end Transaction

/-! ## Calls -/

/-- A call of a public verb, with its arguments. -/
inductive Call where
  | createSchema (name uuid : String)
  | dropSchema (schema : Nat)
  | createTable (schema : Nat) (name : String) (columns : List ColumnDef) (uuid : String)
  | renameTable (table : Nat) (newName : String)
  | setTableSchema (table newSchema : Nat)
  | dropTable (table : Nat)
  | addColumn (table : Nat) (column : ColumnDef)
  | renameColumn (table column : Nat) (newName : String)
  | alterColumn (table column : Nat) (alteration : ColumnAlteration)
  | dropColumn (table column : Nat)
  | setPartitioning (table : Nat) (columns : List PartitionColumnDef)
  | clearPartitioning (table : Nat)
  | setSorting (table : Nat) (keys : List SortKeyDef)
  | clearSorting (table : Nat)
  | createIndex (table : Nat) (index : IndexDef) (backfill : List IndexEntry)
  | createIndexOrderedWithMaintenance (table : Nat) (index : IndexDef) (orders : List ColumnOrder)
      (maintenance : IndexMaintenance) (backfill : List IndexEntry)
  | createIndexStagedOrderedWithMaintenance (table : Nat) (index : IndexDef) (orders : List ColumnOrder)
      (maintenance : IndexMaintenance)
  | dropIndex (index : Nat)
  | buildIndexSourceStep (index : Nat) (batch : List IndexEntry) (isFinal : Bool)
      (source : Option (Nat × Nat))
  | registerDataFile (table : Nat) (file : DataFile) (indexEntries : List FileIndexEntry)
  | expireDataFile (table file : Nat)
  | registerDeleteFile (table : Nat) (file : DeleteFile) (indexEntries : List FileIndexRemoval)
  | expireDeleteFile (table file : Nat)
  | updateTableStats (table recordCount fileSizeBytes : Nat)
  | updateColumnStats (table column : Nat) (stats : ColumnStats)
  | createView (schema : Nat) (name dialect sql uuid : String)
  | alterView (view : Nat) (dialect sql : String)
  | dropView (view : Nat)
  | createMacro (schema : Nat) (name : String) (implementations : List MacroImplementationDef)
  | dropMacro (macroId : Nat)
  | setOption (scope : OptionScope) (key value : String)
  | unsetOption (scope : OptionScope) (key : String)
  | setTag (target : TagTarget) (key value : String)
  | removeTag (target : TagTarget) (key : String)
  | inlineInsert (table : Nat) (chunk : InlineChunk) (indexEntries : List FileIndexEntry)
  | inlineDelete (table rowId : Nat) (indexEntries : List FileIndexRemoval)
  | flushInlinedData (table schemaVersion : Nat) (flushed : List FlushedDataFile)

namespace Call

open Transaction

/-- Runs a command for its effect. -/
def ignore {α : Type} (c : Verb α) : Verb Unit := do
  let _ ← c
  return ()

/-- The verb a call runs. `createIndexOrdered`, the other staged creations and `buildIndexStep` are the
    listed ones at default arguments. -/
def run : Call → Verb Unit
  | .createSchema name uuid => ignore (Transaction.createSchema name uuid)
  | .dropSchema schema => Transaction.dropSchema schema
  | .createTable schema name columns uuid => ignore (Transaction.createTable schema name columns uuid)
  | .renameTable table newName => Transaction.renameTable table newName
  | .setTableSchema table newSchema => Transaction.setTableSchema table newSchema
  | .dropTable table => Transaction.dropTable table
  | .addColumn table column => ignore (Transaction.addColumn table column)
  | .renameColumn table column newName => Transaction.renameColumn table column newName
  | .alterColumn table column alteration => Transaction.alterColumn table column alteration
  | .dropColumn table column => Transaction.dropColumn table column
  | .setPartitioning table columns => ignore (Transaction.setPartitioning table columns)
  | .clearPartitioning table => Transaction.clearPartitioning table
  | .setSorting table keys => ignore (Transaction.setSorting table keys)
  | .clearSorting table => Transaction.clearSorting table
  | .createIndex table index backfill => ignore (Transaction.createIndex table index backfill)
  | .createIndexOrderedWithMaintenance table index orders maintenance backfill =>
    ignore (Transaction.createIndexOrderedWithMaintenance table index orders maintenance backfill)
  | .createIndexStagedOrderedWithMaintenance table index orders maintenance =>
    ignore (Transaction.createIndexStagedOrderedWithMaintenance table index orders maintenance)
  | .dropIndex index => Transaction.dropIndex index
  | .buildIndexSourceStep index batch isFinal source =>
    ignore (Transaction.buildIndexSourceStep index batch isFinal source)
  | .registerDataFile table file indexEntries => ignore (Transaction.registerDataFile table file indexEntries)
  | .expireDataFile table file => Transaction.expireDataFile table file
  | .registerDeleteFile table file indexEntries =>
    ignore (Transaction.registerDeleteFile table file indexEntries)
  | .expireDeleteFile table file => Transaction.expireDeleteFile table file
  | .updateTableStats table recordCount fileSizeBytes =>
    Transaction.updateTableStats table recordCount fileSizeBytes
  | .updateColumnStats table column stats => Transaction.updateColumnStats table column stats
  | .createView schema name dialect sql uuid => ignore (Transaction.createView schema name dialect sql uuid)
  | .alterView view dialect sql => Transaction.alterView view dialect sql
  | .dropView view => Transaction.dropView view
  | .createMacro schema name implementations => ignore (Transaction.createMacro schema name implementations)
  | .dropMacro macroId => Transaction.dropMacro macroId
  | .setOption scope key value => Transaction.setOption scope key value
  | .unsetOption scope key => Transaction.unsetOption scope key
  | .setTag target key value => Transaction.setTag target key value
  | .removeTag target key => Transaction.removeTag target key
  | .inlineInsert table chunk indexEntries => ignore (Transaction.inlineInsert table chunk indexEntries)
  | .inlineDelete table rowId indexEntries => Transaction.inlineDelete table rowId indexEntries
  | .flushInlinedData table schemaVersion flushed =>
    ignore (Transaction.flushInlinedData table schemaVersion flushed)

/-- A sequence of calls, stopped by the first that fails. -/
def runAll : List Call → Verb Unit
  | [] => return ()
  | call :: calls => do
    call.run
    runAll calls

end Call

end Moraine
