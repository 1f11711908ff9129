-- SUMMARY: The stored inline records of every table, and what a list of writes leaves of one of them.
import Moraine.Catalog.Flush

/-!
# The inline subspace

Beside the chunks and tombstones of its inlined rows, a table has inline records of the deletes against its
data files, of the Arrow schema of each schema version, and a marker that its table of file deletes exists.
A write names a table and one record of it.
-/

namespace Moraine

open Std (ExtTreeMap ExtTreeSet TransOrd LawfulEqOrd)
open OrdMap

variable {Row : Type*}

/-- The stored inline records of one table. -/
structure TableInline (Row : Type*) where
  rows : InlineTable Row := {}
  /-- The begin snapshot of the delete recorded for a data file and a row id. -/
  fileDeletes : ExtTreeMap (Nat × Nat) Nat := ∅
  /-- The Arrow schema of a schema version. -/
  schemas : ExtTreeMap Nat (List UInt8) := ∅
  fileDeleteTable : Bool := false

/-- A write of one inline record of a table; `none` deletes it. -/
inductive TableInlineWrite (Row : Type*) where
  | rows (write : InlineWrite Row)
  | fileDelete (dataFileId rowId : Nat) (beginSnapshot : Option Nat)
  | schema (schemaVersion : Nat) (arrowSchema : Option (List UInt8))
  | fileDeleteTable (present : Bool)

/-- A write of an inline record, with its table. -/
abbrev InlineStoreWrite (Row : Type*) := Nat × TableInlineWrite Row

def TableInline.apply (t : TableInline Row) : TableInlineWrite Row → TableInline Row
  | .rows write => { t with rows := t.rows.apply write }
  | .fileDelete dataFileId rowId value => { t with fileDeletes := setKey t.fileDeletes (dataFileId, rowId) value }
  | .schema schemaVersion value => { t with schemas := setKey t.schemas schemaVersion value }
  | .fileDeleteTable present => { t with fileDeleteTable := present }

/-- The inline records of every table. -/
structure InlineStore (Row : Type*) where
  tables : ExtTreeMap Nat (TableInline Row) := ∅

namespace InlineStore

/-- The inline records of a table; a table without any has none. -/
def table (s : InlineStore Row) (tableId : Nat) : TableInline Row := s.tables[tableId]?.getD {}

def apply (s : InlineStore Row) (w : InlineStoreWrite Row) : InlineStore Row :=
  { tables := s.tables.insert w.1 ((s.table w.1).apply w.2) }

def applyAll (s : InlineStore Row) (ws : List (InlineStoreWrite Row)) : InlineStore Row := ws.foldl apply s

@[simp] theorem applyAll_nil (s : InlineStore Row) : s.applyAll [] = s := rfl

@[simp] theorem applyAll_cons (s : InlineStore Row) (w : InlineStoreWrite Row) (ws : List (InlineStoreWrite Row)) :
    s.applyAll (w :: ws) = (s.apply w).applyAll ws := rfl

theorem table_apply (s : InlineStore Row) (w : InlineStoreWrite Row) (tableId : Nat) :
    (s.apply w).table tableId = if tableId = w.1 then (s.table tableId).apply w.2 else s.table tableId := by
  by_cases h : tableId = w.1
  · subst h
    simp [apply, table]
  · simp [apply, table, h]

/-- Writes that put no chunk under a key delete it or leave it. -/
theorem applyAll_chunk {ws : List (InlineStoreWrite Row)} {tableId : Nat} {key : InsertKey}
    (hputs : ∀ value, (tableId, .rows (.chunk key (some value))) ∉ ws) (s : InlineStore Row)
    (chunk : InlineChunkValue Row) :
    ((s.applyAll ws).table tableId).rows.chunks[key]? = some chunk ↔
      (s.table tableId).rows.chunks[key]? = some chunk ∧ (tableId, .rows (.chunk key none)) ∉ ws := by
  induction ws generalizing s with
  | nil => simp
  | cons w ws ih =>
    have hrest := ih (fun value hv => hputs value (List.mem_cons_of_mem _ hv)) (s.apply w)
    rw [applyAll_cons, hrest, List.mem_cons, not_or, table_apply]
    obtain ⟨id, w⟩ := w
    by_cases hid : tableId = id
    · subst hid
      cases w with
      | rows w =>
        cases w with
        | chunk k value =>
          by_cases hk : key = k
          · subst hk
            cases value with
            | none => simp [TableInline.apply, InlineTable.apply]
            | some value => exact absurd List.mem_cons_self (hputs value)
          · simp [TableInline.apply, InlineTable.apply, hk]
        | tombstone rowId e => simp [TableInline.apply, InlineTable.apply]
      | fileDelete dataFileId rowId value => simp [TableInline.apply]
      | schema schemaVersion value => simp [TableInline.apply]
      | fileDeleteTable present => simp [TableInline.apply]
    · simp [hid]

/-- A chunk that is put and never overwritten or deleted is stored. -/
theorem applyAll_chunk_of_put {ws : List (InlineStoreWrite Row)} {tableId : Nat} {key : InsertKey}
    {chunk : InlineChunkValue Row} {s : InlineStore Row}
    (hput : (tableId, .rows (.chunk key (some chunk))) ∈ ws ∨ (s.table tableId).rows.chunks[key]? = some chunk)
    (honly : ∀ value, (tableId, .rows (.chunk key value)) ∈ ws → value = some chunk) :
    ((s.applyAll ws).table tableId).rows.chunks[key]? = some chunk := by
  induction ws generalizing s with
  | nil =>
    rcases hput with hput | hput
    · cases hput
    · exact hput
  | cons w ws ih =>
    have honly' : ∀ value, (tableId, .rows (.chunk key value)) ∈ ws → value = some chunk :=
      fun value hv => honly value (List.mem_cons_of_mem _ hv)
    by_cases hw : w = (tableId, .rows (.chunk key (some chunk)))
    · refine ih (.inr ?_) honly'
      rw [hw, table_apply]
      simp [TableInline.apply, InlineTable.apply]
    · rcases hput with hput | hput
      · exact ih (.inl ((List.mem_cons.mp hput).resolve_left (Ne.symm hw))) honly'
      · refine ih (.inr ?_) honly'
        -- Another write of this chunk would be the same put.
        have hother : ∀ value, w ≠ (tableId, .rows (.chunk key value)) := by
          intro value heq
          rw [honly value (by rw [heq]; exact List.mem_cons_self)] at heq
          exact hw heq
        have hkept : (s.apply w).table tableId = (s.applyAll [w]).table tableId := rfl
        rw [hkept, applyAll_chunk (fun value hv => hother _ (List.mem_singleton.mp hv).symm)]
        exact ⟨hput, fun hv => hother none (List.mem_singleton.mp hv).symm⟩

/-- Where the writes give a version one schema at most, it has that schema if they write it and its old one if not. -/
theorem applyAll_schema {ws : List (InlineStoreWrite Row)} {tableId schemaVersion : Nat} {arrowSchema : List UInt8}
    (honly : ∀ value, (tableId, .schema schemaVersion value) ∈ ws → value = some arrowSchema) (s : InlineStore Row)
    (recorded : List UInt8) :
    ((s.applyAll ws).table tableId).schemas[schemaVersion]? = some recorded ↔
      ((tableId, .schema schemaVersion (some arrowSchema)) ∈ ws ∧ recorded = arrowSchema) ∨
      ((tableId, .schema schemaVersion (some arrowSchema)) ∉ ws ∧
        (s.table tableId).schemas[schemaVersion]? = some recorded) := by
  induction ws generalizing s with
  | nil => simp
  | cons w ws ih =>
    rw [applyAll_cons, ih (fun value hv => honly value (List.mem_cons_of_mem _ hv)), table_apply]
    have hhead : ∀ value, w = (tableId, .schema schemaVersion value) → value = some arrowSchema :=
      fun value hw => honly value (hw ▸ List.mem_cons_self)
    obtain ⟨id, w⟩ := w
    by_cases hid : tableId = id
    · subst hid
      cases w with
      | schema version value =>
        by_cases hversion : schemaVersion = version
        · subst hversion
          obtain rfl := hhead value rfl
          simp [TableInline.apply, eq_comm, ← or_and_right, em]
        · simp [TableInline.apply, hversion]
      | _ => simp [TableInline.apply]
    · simp [hid]

end InlineStore

end Moraine
