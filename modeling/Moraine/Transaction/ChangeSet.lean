-- SUMMARY: Change sets, their text in the snapshot record, and the conflicts found from either form.
import Moraine.Base.QuotedText
import Moraine.Transaction.Commit

/-!
# Change sets

What a commit touched, as conflict classification compares it. A commit builds its set from the operations
it recorded and stores it as text in its snapshot record, beside the ids of the data files it deleted from.
A committer that lost its race rebuilds the set of every intervening commit from that record.
-/

namespace Moraine

open Std (ExtTreeMap ExtTreeSet)
open OrdMap QuotedText

/-! ## The entries of a change text -/

/-- The kinds of entries that carry one id. -/
inductive IdKind where
  | droppedSchema | droppedTable | droppedView | droppedScalarMacro | droppedTableMacro
  | insertedIntoTable | deletedFromTable | alteredTable | alteredView | mergeAdjacent | rewriteDelete
  | compactedTable
  deriving DecidableEq

/-- The kinds of entries that carry a schema name and the name of what was created in it. -/
inductive PairKind where
  | createdTable | createdView | createdScalarMacro | createdTableMacro
  deriving DecidableEq

inductive EntryKind where
  | createdSchema
  | id (kind : IdKind)
  | pair (kind : PairKind)
  deriving DecidableEq

def EntryKind.wire : EntryKind → String
  | .createdSchema => "created_schema"
  | .id .droppedSchema => "dropped_schema"
  | .pair .createdTable => "created_table"
  | .id .alteredTable => "altered_table"
  | .id .droppedTable => "dropped_table"
  | .pair .createdView => "created_view"
  | .id .alteredView => "altered_view"
  | .id .droppedView => "dropped_view"
  | .pair .createdScalarMacro => "created_scalar_macro"
  | .pair .createdTableMacro => "created_table_macro"
  | .id .droppedScalarMacro => "dropped_scalar_macro"
  | .id .droppedTableMacro => "dropped_table_macro"
  | .id .insertedIntoTable => "inserted_into_table"
  | .id .deletedFromTable => "deleted_from_table"
  | .id .mergeAdjacent => "merge_adjacent"
  | .id .rewriteDelete => "rewrite_delete"
  | .id .compactedTable => "compacted_table"

def EntryKind.ofWire : String → Option EntryKind
  | "created_schema" => some .createdSchema
  | "dropped_schema" => some (.id .droppedSchema)
  | "created_table" => some (.pair .createdTable)
  | "altered_table" => some (.id .alteredTable)
  | "dropped_table" => some (.id .droppedTable)
  | "created_view" => some (.pair .createdView)
  | "altered_view" => some (.id .alteredView)
  | "dropped_view" => some (.id .droppedView)
  | "created_scalar_macro" => some (.pair .createdScalarMacro)
  | "created_table_macro" => some (.pair .createdTableMacro)
  | "dropped_scalar_macro" => some (.id .droppedScalarMacro)
  | "dropped_table_macro" => some (.id .droppedTableMacro)
  | "inserted_into_table" => some (.id .insertedIntoTable)
  | "deleted_from_table" => some (.id .deletedFromTable)
  | "merge_adjacent" => some (.id .mergeAdjacent)
  | "rewrite_delete" => some (.id .rewriteDelete)
  | "compacted_table" => some (.id .compactedTable)
  | _ => none

def quoteIdent (s : String) : String := .ofList (quote '"' s.toList)

/-- One entry with what it carries. -/
inductive Entry where
  | createdSchema (name : String)
  | id (kind : IdKind) (n : Nat)
  | pair (kind : PairKind) (scope name : String)
  deriving DecidableEq

def Entry.kind : Entry → EntryKind
  | .createdSchema _ => .createdSchema
  | .id kind _ => .id kind
  | .pair kind _ _ => .pair kind

def Entry.payload : Entry → String
  | .createdSchema name => quoteIdent name
  | .id _ n => toString n
  | .pair _ scope name => quoteIdent scope ++ "." ++ quoteIdent name

def Entry.text (e : Entry) : String := e.kind.wire ++ ":" ++ e.payload

/-! ## The set -/

structure ChangeSet where
  createdSchemas : ExtTreeSet String := ∅
  droppedSchemas : ExtTreeSet Nat := ∅
  createdTables : ExtTreeSet (String × String) := ∅
  createdTableSchemaIds : ExtTreeSet Nat := ∅
  alteredTables : ExtTreeSet Nat := ∅
  droppedTables : ExtTreeSet Nat := ∅
  createdViews : ExtTreeSet (String × String) := ∅
  createdViewSchemaIds : ExtTreeSet Nat := ∅
  alteredViews : ExtTreeSet Nat := ∅
  droppedViews : ExtTreeSet Nat := ∅
  createdScalarMacros : ExtTreeSet (String × String) := ∅
  createdTableMacros : ExtTreeSet (String × String) := ∅
  createdMacroSchemaIds : ExtTreeSet Nat := ∅
  droppedScalarMacros : ExtTreeSet Nat := ∅
  droppedTableMacros : ExtTreeSet Nat := ∅
  insertedTables : ExtTreeSet Nat := ∅
  deletedFromTables : ExtTreeSet Nat := ∅
  deletedDataFileIds : ExtTreeSet Nat := ∅
  /-- The commit deletes without naming the file it deletes from. -/
  deletesUntargetedFiles : Bool := false
  mergeAdjacentTables : ExtTreeSet Nat := ∅
  rewriteDeleteTables : ExtTreeSet Nat := ∅
  /-- Read from old texts, never written. -/
  compactedTables : ExtTreeSet Nat := ∅
  /-- Reading met a kind or a payload that is not modelled. -/
  hasUnknown : Bool := false

namespace ChangeSet

/-- Adds what one recorded operation touches. -/
def record (set : ChangeSet) : Operation → ChangeSet
  | .createSchema _ name => { set with createdSchemas := set.createdSchemas.insert name }
  | .dropSchema schemaId => { set with droppedSchemas := set.droppedSchemas.insert schemaId }
  | .createTable schemaId _ schemaName tableName =>
    { set with
      createdTables := set.createdTables.insert (schemaName, tableName)
      createdTableSchemaIds := set.createdTableSchemaIds.insert schemaId }
  | .alterTable tableId | .alterTableSorting tableId | .finishIndexMaintenance tableId =>
    { set with alteredTables := set.alteredTables.insert tableId }
  | .dropTable tableId => { set with droppedTables := set.droppedTables.insert tableId }
  | .registerDataFile tableId | .inlineInsert tableId | .advanceIndexBuild tableId =>
    { set with insertedTables := set.insertedTables.insert tableId }
  | .registerDeleteFile tableId dataFileId =>
    { set with
      deletedFromTables := set.deletedFromTables.insert tableId
      deletedDataFileIds := set.deletedDataFileIds.insert dataFileId }
  -- An inlined delete names a row, not a file.
  | .inlineDelete tableId =>
    { set with
      deletedFromTables := set.deletedFromTables.insert tableId
      deletesUntargetedFiles := true }
  | .expireDataFile tableId | .flushInlinedData tableId =>
    { set with mergeAdjacentTables := set.mergeAdjacentTables.insert tableId }
  | .expireDeleteFile tableId => { set with rewriteDeleteTables := set.rewriteDeleteTables.insert tableId }
  | .updateStats _ | .alterSchema _ => set
  | .createView schemaId _ schemaName viewName =>
    { set with
      createdViews := set.createdViews.insert (schemaName, viewName)
      createdViewSchemaIds := set.createdViewSchemaIds.insert schemaId }
  | .alterView viewId => { set with alteredViews := set.alteredViews.insert viewId }
  | .dropView viewId => { set with droppedViews := set.droppedViews.insert viewId }
  | .createMacro schemaId _ schemaName macroName macroType =>
    let set := { set with createdMacroSchemaIds := set.createdMacroSchemaIds.insert schemaId }
    if macroType = "table" then
      { set with createdTableMacros := set.createdTableMacros.insert (schemaName, macroName) }
    else { set with createdScalarMacros := set.createdScalarMacros.insert (schemaName, macroName) }
  | .dropMacro macroId macroType =>
    if macroType = "table" then { set with droppedTableMacros := set.droppedTableMacros.insert macroId }
    else { set with droppedScalarMacros := set.droppedScalarMacros.insert macroId }

def fromOperations (operations : List Operation) : ChangeSet := operations.foldl record {}

/-- The ids a set holds under one kind of entry. -/
def ids (set : ChangeSet) : IdKind → ExtTreeSet Nat
  | .droppedSchema => set.droppedSchemas
  | .droppedTable => set.droppedTables
  | .droppedView => set.droppedViews
  | .droppedScalarMacro => set.droppedScalarMacros
  | .droppedTableMacro => set.droppedTableMacros
  | .insertedIntoTable => set.insertedTables
  | .deletedFromTable => set.deletedFromTables
  | .alteredTable => set.alteredTables
  | .alteredView => set.alteredViews
  | .mergeAdjacent => set.mergeAdjacentTables
  | .rewriteDelete => set.rewriteDeleteTables
  | .compactedTable => set.compactedTables

def insertId (set : ChangeSet) (id : Nat) : IdKind → ChangeSet
  | .droppedSchema => { set with droppedSchemas := set.droppedSchemas.insert id }
  | .droppedTable => { set with droppedTables := set.droppedTables.insert id }
  | .droppedView => { set with droppedViews := set.droppedViews.insert id }
  | .droppedScalarMacro => { set with droppedScalarMacros := set.droppedScalarMacros.insert id }
  | .droppedTableMacro => { set with droppedTableMacros := set.droppedTableMacros.insert id }
  | .insertedIntoTable => { set with insertedTables := set.insertedTables.insert id }
  | .deletedFromTable => { set with deletedFromTables := set.deletedFromTables.insert id }
  | .alteredTable => { set with alteredTables := set.alteredTables.insert id }
  | .alteredView => { set with alteredViews := set.alteredViews.insert id }
  | .mergeAdjacent => { set with mergeAdjacentTables := set.mergeAdjacentTables.insert id }
  | .rewriteDelete => { set with rewriteDeleteTables := set.rewriteDeleteTables.insert id }
  | .compactedTable => { set with compactedTables := set.compactedTables.insert id }

/-- The created entries a set holds under one kind. -/
def pairs (set : ChangeSet) : PairKind → ExtTreeSet (String × String)
  | .createdTable => set.createdTables
  | .createdView => set.createdViews
  | .createdScalarMacro => set.createdScalarMacros
  | .createdTableMacro => set.createdTableMacros

def insertPair (set : ChangeSet) (pair : String × String) : PairKind → ChangeSet
  | .createdTable => { set with createdTables := set.createdTables.insert pair }
  | .createdView => { set with createdViews := set.createdViews.insert pair }
  | .createdScalarMacro => { set with createdScalarMacros := set.createdScalarMacros.insert pair }
  | .createdTableMacro => { set with createdTableMacros := set.createdTableMacros.insert pair }

def idEntries (set : ChangeSet) (kind : IdKind) : List Entry := (set.ids kind).toList.map (.id kind)

def pairEntries (set : ChangeSet) (kind : PairKind) : List Entry :=
  (set.pairs kind).toList.map fun pair => .pair kind pair.1 pair.2

/-- The entries in the order they are written. -/
def entries (set : ChangeSet) : List Entry :=
  set.idEntries .droppedSchema ++ set.idEntries .droppedTable ++ set.idEntries .droppedView ++
    set.createdSchemas.toList.map .createdSchema ++
    set.pairEntries .createdTable ++ set.pairEntries .createdView ++
    set.pairEntries .createdScalarMacro ++ set.pairEntries .createdTableMacro ++
    set.idEntries .droppedScalarMacro ++ set.idEntries .droppedTableMacro ++
    set.idEntries .insertedIntoTable ++ set.idEntries .deletedFromTable ++
    set.idEntries .alteredTable ++ set.idEntries .alteredView ++
    set.idEntries .mergeAdjacent ++ set.idEntries .rewriteDelete

def toChangesMade (set : ChangeSet) : String := ",".intercalate (set.entries.map Entry.text)

/-! ## Reading a change text -/

/-- Splits at the commas outside quotes and drops empty entries. -/
def splitEntries (changesMade : String) : List (List Char) :=
  (splitOutside '"' ',' false changesMade.toList).filter fun e => !e.isEmpty

/-- A decimal number of 64 bits, a leading plus sign allowed. -/
def parseU64 (text : List Char) : Option Nat :=
  let digits := match text with
    | '+' :: rest => rest
    | text => text
  if digits ≠ [] ∧ digits.all Char.isDigit ∧ Nat.ofDigitChars 10 digits 0 ≤ u64Max then
    some (Nat.ofDigitChars 10 digits 0)
  else none

def parseCreatedSchemaPayload (payload : List Char) : Option String := do
  let (name, rest) ← unquote '"' payload
  if rest.isEmpty then some (.ofList name) else none

def parseCreatedTablePayload (payload : List Char) : Option (String × String) := do
  let (schema, rest) ← unquote '"' payload
  let rest ← if rest.head? = some '.' then some rest.tail else none
  let (table, rest) ← unquote '"' rest
  if rest.isEmpty then some (.ofList schema, .ofList table) else none

/-- A parsed delete names the table and never the files, so it is untargeted. -/
def markUntargeted (set : ChangeSet) (kind : IdKind) : ChangeSet :=
  if kind = .deletedFromTable then { set with deletesUntargetedFiles := true } else set

def unknown (set : ChangeSet) : ChangeSet := { set with hasUnknown := true }

/-- Adds what one entry of known kind says. -/
def readPayload (set : ChangeSet) (payload : List Char) : EntryKind → ChangeSet
  | .createdSchema =>
    match parseCreatedSchemaPayload payload with
    | some name => { set with createdSchemas := set.createdSchemas.insert name }
    | none => set.unknown
  | .id kind =>
    match parseU64 payload with
    | some id => (set.markUntargeted kind).insertId id kind
    | none => (set.markUntargeted kind).unknown
  | .pair kind =>
    match parseCreatedTablePayload payload with
    | some pair => set.insertPair pair kind
    | none => set.unknown

/-- Adds what one entry says. Kinds are matched in lower case. -/
def readEntry (set : ChangeSet) (entry : List Char) : ChangeSet :=
  match splitOnce ':' entry with
  | none => set.unknown
  | some (kind, payload) =>
    match EntryKind.ofWire (.ofList (kind.map Char.toLower)) with
    | none => set.unknown
    | some kind => set.readPayload payload kind

def parse (changesMade : String) : ChangeSet := (splitEntries changesMade).foldl readEntry {}

/-! ## Conflicts -/

def touchesSchemaList (set : ChangeSet) : Bool :=
  !set.createdSchemas.isEmpty || !set.droppedSchemas.isEmpty

def createsTableIn (set : ChangeSet) (schemaId : Nat) : Bool :=
  set.createdTableSchemaIds.contains schemaId || set.createdViewSchemaIds.contains schemaId ||
    set.createdMacroSchemaIds.contains schemaId

structure TableKinds where
  inserted : Bool := false
  deleted : Bool := false
  altered : Bool := false
  dropped : Bool := false
  compacted : Bool := false
  deriving DecidableEq

/-- Changes the kinds of each listed table. -/
def markTables (kinds : ExtTreeMap Nat TableKinds) (f : TableKinds → TableKinds) (tables : List Nat) :
    ExtTreeMap Nat TableKinds :=
  tables.foldl (fun kinds tableId => kinds.insert tableId (f ((kinds[tableId]?).getD {}))) kinds

def tableKinds (set : ChangeSet) : ExtTreeMap Nat TableKinds :=
  let kinds := markTables ∅ (fun k => { k with inserted := true }) set.insertedTables.toList
  let kinds := markTables kinds (fun k => { k with deleted := true }) set.deletedFromTables.toList
  let kinds := markTables kinds (fun k => { k with altered := true })
    (set.alteredTables.toList ++ set.alteredViews.toList)
  let kinds := markTables kinds (fun k => { k with dropped := true })
    (set.droppedTables.toList ++ set.droppedViews.toList)
  markTables kinds (fun k => { k with compacted := true })
    (set.mergeAdjacentTables.toList ++ set.rewriteDeleteTables.toList ++ set.compactedTables.toList)

/-- One direction of the conflict matrix of two commits on one table. -/
def kindsConflictOneWay (x y : TableKinds) : Bool :=
  (x.inserted && (y.altered || y.deleted || y.dropped)) ||
    (x.deleted && (y.altered || y.compacted || y.dropped || y.inserted)) ||
    (x.altered && (y.altered || y.dropped)) ||
    (x.compacted && (y.deleted || y.dropped || y.compacted))

def kindsConflict (a b : TableKinds) : Bool := kindsConflictOneWay a b || kindsConflictOneWay b a

/-- Two deletes of one table meet on a file, or one of them does not name its files. -/
def deleteDeleteConflicts (ours theirs : ChangeSet) : Bool :=
  ours.deletesUntargetedFiles || theirs.deletesUntargetedFiles ||
    ours.deletedDataFileIds.toList.any theirs.deletedDataFileIds.contains

/-- A table both commits touch has incompatible kinds, or deletes that meet. -/
def tablesConflict (ours theirs : ChangeSet) : Bool :=
  ours.tableKinds.toList.any fun (tableId, ourKinds) =>
    match theirs.tableKinds[tableId]? with
    | none => false
    | some theirKinds =>
      kindsConflict ourKinds theirKinds ||
        (ourKinds.deleted && theirKinds.deleted && deleteDeleteConflicts ours theirs)

/-- The first commit creates something in a schema the second drops. -/
def createdInDropped (a b : ChangeSet) : Bool := b.droppedSchemas.toList.any a.createsTableIn

def conflicts (ours theirs : ChangeSet) : Bool :=
  if ours.hasUnknown || theirs.hasUnknown then true
  else if ours.touchesSchemaList && theirs.touchesSchemaList then true
  else if tablesConflict ours theirs then true
  else createdInDropped ours theirs || createdInDropped theirs ours

end ChangeSet

/-! ## The set in the snapshot record -/

/-- What a commit's record says about its operations: their text, and the data files they delete from. -/
def recordedChanges (operations : List Operation) : String × List Nat :=
  ((ChangeSet.fromOperations operations).toChangesMade,
    (ChangeSet.fromOperations operations).deletedDataFileIds.toList)

/-- The change set a committer reads from the record of an intervening commit. A record that has been
    expired is an unknown change. -/
def interveningChange : Option SnapshotValue → ChangeSet
  | none => { hasUnknown := true }
  | some snapshot =>
    let set := ChangeSet.parse snapshot.changesMade
    if snapshot.deletedDataFileIds.isEmpty then set
    else
      { set with
        deletedDataFileIds := .ofList snapshot.deletedDataFileIds
        deletesUntargetedFiles := false }

/-! ## A written entry reads back -/

theorem EntryKind.ofWire_wire (kind : EntryKind) :
    ofWire (.ofList (kind.wire.toList.map Char.toLower)) = some kind := by
  rcases kind with _ | kind | kind
  · decide
  all_goals cases kind <;> decide

theorem EntryKind.wire_plain (kind : EntryKind) :
    ∀ c ∈ kind.wire.toList, c ≠ '"' ∧ c ≠ ',' ∧ c ≠ ':' := by
  rcases kind with _ | kind | kind
  · simp [wire]
  all_goals cases kind <;> simp [wire]

theorem toList_quoteIdent (s : String) : (quoteIdent s).toList = quote '"' s.toList := String.toList_ofList

namespace ChangeSet

theorem toList_toString_nat (n : Nat) : (toString n).toList = Nat.toDigits 10 n := by simp

theorem isDigit_of_mem_toString {n : Nat} {c : Char} (h : c ∈ (toString n).toList) : c.isDigit = true := by
  rw [toList_toString_nat] at h
  exact Nat.isDigit_of_mem_toDigits (by decide) (by decide) h

theorem parseU64_toString {n : Nat} (h : n ≤ u64Max) : parseU64 (toString n).toList = some n := by
  have hdigits : ∀ c ∈ (toString n).toList, c.isDigit = true := fun c => isDigit_of_mem_toString
  have hvalue : Nat.ofDigitChars 10 (toString n).toList 0 = n := by
    rw [toList_toString_nat, Nat.ofDigitChars_toDigits (by decide) (by decide)]
  have hne : (toString n).toList ≠ [] := by
    rw [toList_toString_nat]
    exact Nat.toDigits_ne_nil
  generalize (toString n).toList = digits at hdigits hvalue hne
  unfold parseU64
  split
  · rename_i rest
    exact absurd (hdigits '+' List.mem_cons_self) (by decide)
  · simp [hne, hvalue, h, List.all_eq_true.mpr hdigits]

theorem parseCreatedSchemaPayload_quoteIdent (name : String) :
    parseCreatedSchemaPayload (quoteIdent name).toList = some name := by
  have hread := unquote_quote '"' name.toList [] (by simp)
  rw [List.append_nil] at hread
  simp [parseCreatedSchemaPayload, toList_quoteIdent, hread]

theorem parseCreatedTablePayload_pair (scope name : String) :
    parseCreatedTablePayload (quoteIdent scope ++ "." ++ quoteIdent name).toList = some (scope, name) := by
  have hscope := unquote_quote '"' scope.toList ('.' :: quote '"' name.toList) (by simp)
  have hname := unquote_quote '"' name.toList [] (by simp)
  rw [List.append_nil] at hname
  simp [parseCreatedTablePayload, toList_quoteIdent, hscope, hname]

end ChangeSet

/-- The id an entry carries has 64 bits. -/
def Entry.Fits : Entry → Prop
  | .id _ n => n ≤ u64Max
  | _ => True

theorem Entry.toList_text (e : Entry) : e.text.toList = e.kind.wire.toList ++ ':' :: e.payload.toList := by
  simp [Entry.text]

theorem Entry.text_ne_nil (e : Entry) : e.text.toList ≠ [] := by simp [e.toList_text]

/-- No comma of an entry is outside quotes. -/
theorem Entry.closed_text (e : Entry) : Closed '"' ',' e.text.toList := by
  have hkind : Closed '"' ',' (e.kind.wire.toList ++ [':']) := by
    apply Closed.of_plain
    intro c hc
    rw [List.mem_append, List.mem_singleton] at hc
    rcases hc with hc | rfl
    · exact ⟨(e.kind.wire_plain c hc).1, (e.kind.wire_plain c hc).2.1⟩
    · decide
  have hpayload : Closed '"' ',' e.payload.toList := by
    cases e with
    | createdSchema name =>
      rw [payload, toList_quoteIdent]
      exact closed_quote (by decide) _
    | id kind n =>
      apply Closed.of_plain
      intro c hc
      have hdigit : c.isDigit = true := ChangeSet.isDigit_of_mem_toString hc
      constructor <;> (rintro rfl; exact absurd hdigit (by decide))
    | pair kind scope name =>
      have hdot : Closed '"' ',' ['.'] := Closed.of_plain (by simp)
      simpa [payload, toList_quoteIdent] using
        (closed_quote (by decide) scope.toList).append (hdot.append (closed_quote (by decide) name.toList))
  simpa [e.toList_text] using hkind.append hpayload

namespace ChangeSet

/-- What an entry adds to a set that reads it. -/
def addEntry (set : ChangeSet) : Entry → ChangeSet
  | .createdSchema name => { set with createdSchemas := set.createdSchemas.insert name }
  | .id kind n => (set.markUntargeted kind).insertId n kind
  | .pair kind scope name => set.insertPair (scope, name) kind

theorem readEntry_text (set : ChangeSet) {e : Entry} (h : e.Fits) :
    set.readEntry e.text.toList = set.addEntry e := by
  have hsplit : splitOnce ':' e.text.toList = some (e.kind.wire.toList, e.payload.toList) := by
    rw [e.toList_text]
    exact splitOnce_append (fun hmem => (e.kind.wire_plain ':' hmem).2.2 rfl) _
  simp only [readEntry, hsplit, EntryKind.ofWire_wire]
  cases e with
  | createdSchema name =>
    simp only [Entry.kind, Entry.payload, readPayload, parseCreatedSchemaPayload_quoteIdent, addEntry]
  | id kind n =>
    have hn : n ≤ u64Max := h
    simp only [Entry.kind, Entry.payload, readPayload, parseU64_toString hn, addEntry]
  | pair kind scope name =>
    simp only [Entry.kind, Entry.payload, readPayload, parseCreatedTablePayload_pair, addEntry]

/-- The written text splits into the texts of its entries. -/
theorem splitEntries_intercalate (es : List Entry) :
    splitEntries (",".intercalate (es.map Entry.text)) = es.map fun e => e.text.toList := by
  have hkeep : (es.map fun e => e.text.toList).filter (fun t => !t.isEmpty) = es.map fun e => e.text.toList := by
    apply List.filter_eq_self.mpr
    intro t ht
    obtain ⟨e, -, rfl⟩ := List.mem_map.mp ht
    simpa using e.text_ne_nil
  have hclosed : ∀ t ∈ es.map fun e => e.text.toList, Closed '"' ',' t := by
    intro t ht
    obtain ⟨e, -, rfl⟩ := List.mem_map.mp ht
    exact e.closed_text
  have hjoin : (",".intercalate (es.map Entry.text)).toList = [','].intercalate (es.map fun e => e.text.toList) := by
    rw [String.toList_intercalate, List.map_map]
    rfl
  unfold splitEntries
  rw [hjoin]
  cases es with
  | nil => simp [List.intercalate, splitOutside]
  | cons e es =>
    rw [List.map_cons] at hclosed hkeep ⊢
    rw [splitOutside_intercalate hclosed, hkeep]

theorem parse_intercalate {es : List Entry} (h : ∀ e ∈ es, e.Fits) :
    parse (",".intercalate (es.map Entry.text)) = es.foldl addEntry {} := by
  rw [parse, splitEntries_intercalate, List.foldl_map]
  exact List.foldl_ext _ _ _ fun set e he => readEntry_text set (h e he)

/-! ## A written set reads back -/

/-- What no entry carries. -/
def side (set : ChangeSet) : ExtTreeSet Nat × ExtTreeSet Nat × ExtTreeSet Nat × ExtTreeSet Nat × Bool :=
  (set.createdTableSchemaIds, set.createdViewSchemaIds, set.createdMacroSchemaIds, set.deletedDataFileIds,
    set.hasUnknown)

theorem ext_of {s t : ChangeSet} (hids : ∀ kind, s.ids kind = t.ids kind)
    (hpairs : ∀ kind, s.pairs kind = t.pairs kind) (hschemas : s.createdSchemas = t.createdSchemas)
    (hdeletes : s.deletesUntargetedFiles = t.deletesUntargetedFiles) (hside : s.side = t.side) : s = t := by
  have hdropped := hids .droppedSchema
  have htables := hids .droppedTable
  have hviews := hids .droppedView
  have hscalar := hids .droppedScalarMacro
  have hmacros := hids .droppedTableMacro
  have hinserted := hids .insertedIntoTable
  have hdeleted := hids .deletedFromTable
  have haltered := hids .alteredTable
  have halteredViews := hids .alteredView
  have hmerged := hids .mergeAdjacent
  have hrewritten := hids .rewriteDelete
  have hcompacted := hids .compactedTable
  have hcreated := hpairs .createdTable
  have hcreatedViews := hpairs .createdView
  have hcreatedScalar := hpairs .createdScalarMacro
  have hcreatedMacros := hpairs .createdTableMacro
  cases s
  cases t
  simp_all [ids, pairs, side]

section AddEntry

variable (set : ChangeSet)

theorem ids_insertId (n : Nat) (kind k : IdKind) :
    (set.insertId n kind).ids k = if k = kind then (set.ids k).insert n else set.ids k := by
  cases kind <;> cases k <;> rfl

theorem pairs_insertPair (p : String × String) (kind k : PairKind) :
    (set.insertPair p kind).pairs k = if k = kind then (set.pairs k).insert p else set.pairs k := by
  cases kind <;> cases k <;> rfl

@[simp] theorem pairs_insertId (n : Nat) (kind : IdKind) (k : PairKind) :
    (set.insertId n kind).pairs k = set.pairs k := by
  cases kind <;> cases k <;> rfl

@[simp] theorem ids_insertPair (p : String × String) (kind : PairKind) (k : IdKind) :
    (set.insertPair p kind).ids k = set.ids k := by
  cases kind <;> cases k <;> rfl

@[simp] theorem ids_markUntargeted (kind k : IdKind) : (set.markUntargeted kind).ids k = set.ids k := by
  unfold markUntargeted
  split <;> cases k <;> rfl

@[simp] theorem pairs_markUntargeted (kind : IdKind) (k : PairKind) :
    (set.markUntargeted kind).pairs k = set.pairs k := by
  unfold markUntargeted
  split <;> cases k <;> rfl

theorem mem_ids_addEntry (e : Entry) (k : IdKind) (n : Nat) :
    n ∈ (set.addEntry e).ids k ↔ n ∈ set.ids k ∨ e = .id k n := by
  cases e with
  | createdSchema name => cases k <;> simp [addEntry, ids]
  | id kind m =>
    simp only [addEntry, ids_insertId, ids_markUntargeted, Entry.id.injEq]
    split
    · rename_i hk
      simp only [hk, mem_insert_set, true_and, @eq_comm _ m, or_comm]
    · rename_i hk
      simp [Ne.symm hk]
  | pair kind scope name => simp [addEntry]

theorem mem_pairs_addEntry (e : Entry) (k : PairKind) (p : String × String) :
    p ∈ (set.addEntry e).pairs k ↔ p ∈ set.pairs k ∨ e = .pair k p.1 p.2 := by
  cases e with
  | createdSchema name => cases k <;> simp [addEntry, pairs]
  | id kind m => simp [addEntry]
  | pair kind scope name =>
    simp only [addEntry, pairs_insertPair, Entry.pair.injEq]
    split
    · rename_i hk
      simp only [hk, mem_insert_set, true_and, Prod.ext_iff, @eq_comm _ scope, @eq_comm _ name, or_comm]
    · rename_i hk
      simp [Ne.symm hk]

theorem mem_createdSchemas_addEntry (e : Entry) (name : String) :
    name ∈ (set.addEntry e).createdSchemas ↔ name ∈ set.createdSchemas ∨ e = .createdSchema name := by
  cases e with
  | createdSchema other =>
    simp only [addEntry, mem_insert_set, Entry.createdSchema.injEq, @eq_comm _ other, or_comm]
  | id kind m =>
    have hkeep : (set.addEntry (.id kind m)).createdSchemas = set.createdSchemas := by
      cases kind <;> rfl
    simp [hkeep]
  | pair kind scope other =>
    have hkeep : (set.addEntry (.pair kind scope other)).createdSchemas = set.createdSchemas := by
      cases kind <;> rfl
    simp [hkeep]

theorem deletesUntargetedFiles_addEntry (e : Entry) :
    (set.addEntry e).deletesUntargetedFiles = true ↔
      set.deletesUntargetedFiles = true ∨ ∃ n, e = .id .deletedFromTable n := by
  cases e with
  | createdSchema name => simp [addEntry]
  | id kind m => cases kind <;> simp [addEntry, insertId, markUntargeted]
  | pair kind scope name => cases kind <;> simp [addEntry, insertPair]

theorem side_addEntry (e : Entry) : (set.addEntry e).side = set.side := by
  cases e with
  | createdSchema name => rfl
  | id kind m => cases kind <;> rfl
  | pair kind scope name => cases kind <;> rfl

end AddEntry

section Entries

variable (es : List Entry) (set : ChangeSet)

theorem mem_ids_addEntries (k : IdKind) (n : Nat) :
    n ∈ (es.foldl addEntry set).ids k ↔ n ∈ set.ids k ∨ Entry.id k n ∈ es := by
  induction es generalizing set with
  | nil => simp
  | cons e es ih => rw [List.foldl_cons, ih, mem_ids_addEntry, List.mem_cons, or_assoc, @eq_comm _ e]

theorem mem_pairs_addEntries (k : PairKind) (p : String × String) :
    p ∈ (es.foldl addEntry set).pairs k ↔ p ∈ set.pairs k ∨ Entry.pair k p.1 p.2 ∈ es := by
  induction es generalizing set with
  | nil => simp
  | cons e es ih => rw [List.foldl_cons, ih, mem_pairs_addEntry, List.mem_cons, or_assoc, @eq_comm _ e]

theorem mem_createdSchemas_addEntries (name : String) :
    name ∈ (es.foldl addEntry set).createdSchemas ↔
      name ∈ set.createdSchemas ∨ Entry.createdSchema name ∈ es := by
  induction es generalizing set with
  | nil => simp
  | cons e es ih =>
    rw [List.foldl_cons, ih, mem_createdSchemas_addEntry, List.mem_cons, or_assoc, @eq_comm _ e]

theorem deletesUntargetedFiles_addEntries :
    (es.foldl addEntry set).deletesUntargetedFiles = true ↔
      set.deletesUntargetedFiles = true ∨ ∃ n, Entry.id .deletedFromTable n ∈ es := by
  induction es generalizing set with
  | nil => simp
  | cons e es ih =>
    simp only [List.foldl_cons, ih, deletesUntargetedFiles_addEntry, List.mem_cons, or_assoc, exists_or,
      @eq_comm _ e]

theorem side_addEntries : (es.foldl addEntry set).side = set.side := by
  induction es generalizing set with
  | nil => rfl
  | cons e es ih => rw [List.foldl_cons, ih, side_addEntry]

end Entries

theorem id_mem_entries (set : ChangeSet) (k : IdKind) (n : Nat) :
    Entry.id k n ∈ set.entries ↔ n ∈ set.ids k ∧ k ≠ .compactedTable := by
  cases k <;> simp [entries, idEntries, pairEntries]

theorem pair_mem_entries (set : ChangeSet) (k : PairKind) (p : String × String) :
    Entry.pair k p.1 p.2 ∈ set.entries ↔ p ∈ set.pairs k := by
  cases k <;> simp [entries, idEntries, pairEntries]

theorem createdSchema_mem_entries (set : ChangeSet) (name : String) :
    Entry.createdSchema name ∈ set.entries ↔ name ∈ set.createdSchemas := by
  simp [entries, idEntries, pairEntries]

/-- Every id of the set has 64 bits. -/
def Fits (set : ChangeSet) : Prop := ∀ kind, ∀ n ∈ set.ids kind, n ≤ u64Max

/-- What the text of a set keeps: the ids of created entries' schemas and of deleted-from files are lost. -/
def written (set : ChangeSet) : ChangeSet :=
  { set with
    createdTableSchemaIds := ∅, createdViewSchemaIds := ∅, createdMacroSchemaIds := ∅
    deletedDataFileIds := ∅
    deletesUntargetedFiles := !set.deletedFromTables.isEmpty
    compactedTables := ∅
    hasUnknown := false }

/-- A written set reads back as what its text keeps. -/
theorem parse_toChangesMade {set : ChangeSet} (h : set.Fits) : parse set.toChangesMade = set.written := by
  have hfits : ∀ e ∈ set.entries, e.Fits := by
    intro e he
    cases e with
    | createdSchema name => trivial
    | id kind n => exact h kind n ((set.id_mem_entries kind n).mp he).1
    | pair kind scope name => trivial
  rw [toChangesMade, parse_intercalate hfits]
  apply ext_of
  · intro kind
    apply ExtTreeSet.ext_mem
    intro n
    rw [mem_ids_addEntries, id_mem_entries]
    cases kind <;> simp [ids, written]
  · intro kind
    apply ExtTreeSet.ext_mem
    intro p
    rw [mem_pairs_addEntries, pair_mem_entries]
    cases kind <;> simp [pairs, written]
  · apply ExtTreeSet.ext_mem
    intro name
    rw [mem_createdSchemas_addEntries, createdSchema_mem_entries]
    simp [written]
  · rw [Bool.eq_iff_iff, deletesUntargetedFiles_addEntries]
    simp only [id_mem_entries]
    simp [written, ids, ExtTreeSet.eq_empty_iff_forall_not_mem]
  · rw [side_addEntries]
    rfl

/-! ## What two sets conflict on -/

theorem getD_markTables {f : TableKinds → TableKinds} (hf : ∀ k, f (f k) = f k) (tables : List Nat)
    (kinds : ExtTreeMap Nat TableKinds) (t : Nat) :
    ((markTables kinds f tables)[t]?).getD {} =
      if t ∈ tables then f ((kinds[t]?).getD {}) else (kinds[t]?).getD {} := by
  induction tables generalizing kinds with
  | nil => simp [markTables]
  | cons u tables ih =>
    have hstep := ih (kinds.insert u (f ((kinds[u]?).getD {})))
    rw [markTables, List.foldl_cons]
    rw [markTables] at hstep
    rw [hstep, getElem?_insert_ite]
    by_cases htu : t = u
    · subst htu
      simp [hf]
    · simp [htu]

/-- What the commit did to one table. -/
def kindsOf (set : ChangeSet) (t : Nat) : TableKinds where
  inserted := decide (t ∈ set.insertedTables)
  deleted := decide (t ∈ set.deletedFromTables)
  altered := decide (t ∈ set.alteredTables ∨ t ∈ set.alteredViews)
  dropped := decide (t ∈ set.droppedTables ∨ t ∈ set.droppedViews)
  compacted := decide
    ((t ∈ set.mergeAdjacentTables ∨ t ∈ set.rewriteDeleteTables) ∨ t ∈ set.compactedTables)

theorem getD_tableKinds (set : ChangeSet) (t : Nat) : (set.tableKinds[t]?).getD {} = set.kindsOf t := by
  simp only [tableKinds]
  iterate 5 rw [getD_markTables (by intro k; rfl)]
  simp only [List.mem_append, ExtTreeSet.mem_toList, ExtTreeMap.getElem?_empty, Option.getD_none, kindsOf]
  split_ifs <;> simp_all

theorem not_kindsConflict_empty (k : TableKinds) : kindsConflict k {} = false ∧ kindsConflict {} k = false := by
  simp [kindsConflict, kindsConflictOneWay]

theorem kindsConflict_comm (a b : TableKinds) : kindsConflict a b = kindsConflict b a := Bool.or_comm _ _

/-- The two commits did incompatible things to table `t`. -/
def MeetOn (ours theirs : ChangeSet) (t : Nat) : Prop :=
  kindsConflict (ours.kindsOf t) (theirs.kindsOf t) = true ∨
    t ∈ ours.deletedFromTables ∧ t ∈ theirs.deletedFromTables ∧ deleteDeleteConflicts ours theirs = true

theorem tablesConflict_iff (ours theirs : ChangeSet) :
    tablesConflict ours theirs = true ↔ ∃ t, MeetOn ours theirs t := by
  have hdeleted : ∀ (set : ChangeSet) t, (set.kindsOf t).deleted = true ↔ t ∈ set.deletedFromTables := by
    simp [kindsOf]
  simp only [tablesConflict, List.any_eq_true, Prod.exists, ExtTreeMap.mem_toList_iff_getElem?_eq_some]
  constructor
  · rintro ⟨t, ourKinds, hours, h⟩
    have hkinds := ours.getD_tableKinds t
    rw [hours, Option.getD_some] at hkinds
    cases htheirs : theirs.tableKinds[t]? with
    | none => simp [htheirs] at h
    | some theirKinds =>
      have htheirKinds := theirs.getD_tableKinds t
      rw [htheirs, Option.getD_some] at htheirKinds
      simp only [htheirs, hkinds, htheirKinds, Bool.or_eq_true, Bool.and_eq_true, hdeleted] at h
      exact ⟨t, h.imp id fun hdel => ⟨hdel.1.1, hdel.1.2, hdel.2⟩⟩
  · rintro ⟨t, h⟩
    have hkinds := ours.getD_tableKinds t
    have htheirKinds := theirs.getD_tableKinds t
    -- A table that one side does not list has the empty kinds there, and those meet nothing.
    cases hours : ours.tableKinds[t]? with
    | none =>
      have hempty : ours.kindsOf t = {} := by rw [← hkinds, hours, Option.getD_none]
      simp [MeetOn, hempty, not_kindsConflict_empty, ← hdeleted] at h
    | some ourKinds =>
      cases htheirs : theirs.tableKinds[t]? with
      | none =>
        have hempty : theirs.kindsOf t = {} := by rw [← htheirKinds, htheirs, Option.getD_none]
        simp [MeetOn, hempty, not_kindsConflict_empty, ← hdeleted] at h
      | some theirKinds =>
        rw [hours, Option.getD_some] at hkinds
        rw [htheirs, Option.getD_some] at htheirKinds
        refine ⟨t, ourKinds, hours, ?_⟩
        simp only [htheirs, hkinds, htheirKinds, Bool.or_eq_true, Bool.and_eq_true, hdeleted]
        exact h.imp id fun hdel => ⟨⟨hdel.1, hdel.2.1⟩, hdel.2.2⟩

/-- The two sets conflict otherwise than through something created in a schema the other side drops. -/
def ConflictApart (ours theirs : ChangeSet) : Prop :=
  (ours.hasUnknown = true ∨ theirs.hasUnknown = true) ∨
    (ours.touchesSchemaList = true ∧ theirs.touchesSchemaList = true) ∨ ∃ t, MeetOn ours theirs t

theorem conflicts_iff (ours theirs : ChangeSet) :
    conflicts ours theirs = true ↔
      ConflictApart ours theirs ∨ createdInDropped ours theirs = true ∨ createdInDropped theirs ours = true := by
  unfold conflicts ConflictApart
  rw [← tablesConflict_iff]
  split_ifs <;> simp_all

theorem deleteDeleteConflicts_iff (ours theirs : ChangeSet) :
    deleteDeleteConflicts ours theirs = true ↔
      (ours.deletesUntargetedFiles = true ∨ theirs.deletesUntargetedFiles = true) ∨
        ∃ f, f ∈ ours.deletedDataFileIds ∧ f ∈ theirs.deletedDataFileIds := by
  simp [deleteDeleteConflicts]

theorem MeetOn.symm {ours theirs : ChangeSet} {t : Nat} (h : MeetOn ours theirs t) : MeetOn theirs ours t := by
  refine h.imp (fun hkinds => kindsConflict_comm _ _ ▸ hkinds) fun ⟨hours, htheirs, hdel⟩ => ⟨htheirs, hours, ?_⟩
  rw [deleteDeleteConflicts_iff] at hdel ⊢
  exact hdel.imp Or.symm fun ⟨f, hf⟩ => ⟨f, hf.symm⟩

theorem ConflictApart.symm {ours theirs : ChangeSet} (h : ConflictApart ours theirs) :
    ConflictApart theirs ours :=
  h.imp Or.symm (Or.imp And.symm fun ⟨t, ht⟩ => ⟨t, ht.symm⟩)

theorem conflicts_comm (ours theirs : ChangeSet) : conflicts ours theirs = conflicts theirs ours := by
  rw [Bool.eq_iff_iff, conflicts_iff, conflicts_iff]
  exact or_congr ⟨.symm, .symm⟩ or_comm

end ChangeSet

/-! ## The set rebuilt from the record -/

/-- The ids an operation names. -/
def Operation.ids : Operation → List Nat
  | .createSchema schemaId _ | .dropSchema schemaId | .alterSchema schemaId => [schemaId]
  | .createTable schemaId tableId _ _ => [schemaId, tableId]
  | .alterTable tableId | .alterTableSorting tableId | .advanceIndexBuild tableId
  | .finishIndexMaintenance tableId | .dropTable tableId | .registerDataFile tableId
  | .expireDataFile tableId | .expireDeleteFile tableId | .updateStats tableId | .inlineInsert tableId
  | .inlineDelete tableId | .flushInlinedData tableId => [tableId]
  | .registerDeleteFile tableId dataFileId => [tableId, dataFileId]
  | .createView schemaId viewId _ _ => [schemaId, viewId]
  | .alterView viewId | .dropView viewId => [viewId]
  | .createMacro schemaId macroId _ _ _ => [schemaId, macroId]
  | .dropMacro macroId _ => [macroId]

/-- The id an operation adds to its change set, and the kind of entry it is written under. -/
def Operation.idEntry : Operation → Option (IdKind × Nat)
  | .dropSchema schemaId => some (.droppedSchema, schemaId)
  | .alterTable tableId | .alterTableSorting tableId | .finishIndexMaintenance tableId =>
    some (.alteredTable, tableId)
  | .dropTable tableId => some (.droppedTable, tableId)
  | .registerDataFile tableId | .inlineInsert tableId | .advanceIndexBuild tableId =>
    some (.insertedIntoTable, tableId)
  | .registerDeleteFile tableId _ | .inlineDelete tableId => some (.deletedFromTable, tableId)
  | .expireDataFile tableId | .flushInlinedData tableId => some (.mergeAdjacent, tableId)
  | .expireDeleteFile tableId => some (.rewriteDelete, tableId)
  | .alterView viewId => some (.alteredView, viewId)
  | .dropView viewId => some (.droppedView, viewId)
  | .dropMacro macroId macroType =>
    some (if macroType = "table" then .droppedTableMacro else .droppedScalarMacro, macroId)
  | .createSchema .. | .alterSchema _ | .createTable .. | .updateStats _ | .createView .. | .createMacro .. =>
    none

theorem Operation.mem_ids_of_idEntry {op : Operation} {entry : IdKind × Nat} (h : op.idEntry = some entry) :
    entry.2 ∈ op.ids := by
  cases op <;> cases h <;> simp [ids]

namespace ChangeSet

section Record

variable {set : ChangeSet} {op : Operation}

theorem ids_record (set : ChangeSet) (op : Operation) (kind : IdKind) :
    (set.record op).ids kind =
      match op.idEntry with
      | some (k, n) => if kind = k then (set.ids kind).insert n else set.ids kind
      | none => set.ids kind := by
  cases op with
  | dropMacro macroId macroType =>
    simp only [record, Operation.idEntry]
    split <;> cases kind <;> rfl
  | createMacro schemaId macroId schemaName macroName macroType =>
    simp only [record, Operation.idEntry]
    split <;> cases kind <;> rfl
  | _ => cases kind <;> rfl

theorem Fits.record (h : set.Fits) (hop : ∀ id ∈ op.ids, id ≤ u64Max) : (set.record op).Fits := by
  intro kind n hn
  rw [ids_record] at hn
  cases hentry : op.idEntry with
  | none =>
    simp only [hentry] at hn
    exact h kind n hn
  | some entry =>
    have hmem := Operation.mem_ids_of_idEntry hentry
    simp only [hentry] at hn
    split at hn
    · rcases (mem_insert_set _ _ _).mp hn with rfl | hold
      · exact hop _ hmem
      · exact h kind n hold
    · exact h kind n hn

theorem record_known (set : ChangeSet) (op : Operation) :
    (set.record op).hasUnknown = set.hasUnknown ∧ (set.record op).compactedTables = set.compactedTables := by
  cases op <;> simp [record] <;> split <;> exact ⟨rfl, rfl⟩

theorem deletesUntargetedFiles_record (set : ChangeSet) (op : Operation) :
    (set.record op).deletesUntargetedFiles = true ↔
      set.deletesUntargetedFiles = true ∨ ∃ t, op = .inlineDelete t := by
  cases op <;> simp only [record] <;> (try split) <;> simp

theorem deletedDataFileIds_record (set : ChangeSet) (op : Operation) :
    (∃ f, f ∈ (set.record op).deletedDataFileIds) ↔
      (∃ f, f ∈ set.deletedDataFileIds) ∨ ∃ t f, op = .registerDeleteFile t f := by
  cases op <;> simp only [record] <;> (try split) <;> simp

end Record

section FromOperations

variable (operations : List Operation)

/-- What single operations add to a set is what the operations of a list have added to the empty one. -/
theorem fromOperations_iff {P : ChangeSet → Prop} {Q : Operation → Prop}
    (hrecord : ∀ set op, P (record set op) ↔ P set ∨ Q op) (hempty : ¬ P {}) :
    P (fromOperations operations) ↔ ∃ op ∈ operations, Q op := by
  have hstep : ∀ (ops : List Operation) (set : ChangeSet), P (ops.foldl record set) ↔ P set ∨ ∃ op ∈ ops, Q op := by
    intro ops
    induction ops with
    | nil => simp
    | cons op ops ih =>
      intro set
      rw [List.foldl_cons, ih, hrecord, or_assoc, List.exists_mem_cons_iff]
  rw [fromOperations, hstep]
  exact or_iff_right hempty

/-- What single operations keep holds of the set of every list. -/
theorem fromOperations_keeps {P : ChangeSet → Prop} {operations : List Operation} (hempty : P {})
    (hrecord : ∀ set, ∀ op ∈ operations, P set → P (record set op)) : P (fromOperations operations) := by
  exact List.foldlRecOn operations record hempty fun set hset op hop => hrecord set op hop hset

theorem fits_fromOperations {operations : List Operation}
    (h : ∀ op ∈ operations, ∀ id ∈ op.ids, id ≤ u64Max) : (fromOperations operations).Fits := by
  refine fromOperations_keeps (fun kind n hn => ?_) fun set op hop hset => hset.record (h op hop)
  cases kind <;> simp [ids] at hn

theorem fromOperations_known :
    (fromOperations operations).hasUnknown = false ∧ (fromOperations operations).compactedTables = ∅ := by
  refine fromOperations_keeps (P := fun set => set.hasUnknown = false ∧ set.compactedTables = ∅) ⟨rfl, rfl⟩
    fun set op _ hset => ?_
  rw [(record_known set op).1, (record_known set op).2]
  exact hset

/-- Only an inlined delete names no file. -/
theorem deletesUntargetedFiles_fromOperations :
    (fromOperations operations).deletesUntargetedFiles = true ↔ ∃ t, .inlineDelete t ∈ operations := by
  refine (fromOperations_iff operations (P := fun set => set.deletesUntargetedFiles = true)
    deletesUntargetedFiles_record (by simp)).trans ?_
  constructor
  · rintro ⟨_, hop, t, rfl⟩
    exact ⟨t, hop⟩
  · rintro ⟨t, hop⟩
    exact ⟨_, hop, t, rfl⟩

theorem deletedDataFileIds_fromOperations :
    (fromOperations operations).deletedDataFileIds ≠ ∅ ↔ ∃ t f, .registerDeleteFile t f ∈ operations := by
  rw [Ne, ExtTreeSet.eq_empty_iff_forall_not_mem, not_forall_not]
  refine (fromOperations_iff operations (P := fun set => ∃ f, f ∈ set.deletedDataFileIds)
    deletedDataFileIds_record (by simp)).trans ?_
  constructor
  · rintro ⟨_, hop, t, f, rfl⟩
    exact ⟨t, f, hop⟩
  · rintro ⟨t, f, hop⟩
    exact ⟨_, hop, t, f, rfl⟩

end FromOperations

/-! ## Round trip -/

/-- The element an entry stands for is in its set. -/
def Holds (set : ChangeSet) : Entry → Prop
  | .createdSchema name => name ∈ set.createdSchemas
  | .id kind n => n ∈ set.ids kind
  | .pair kind scope name => (scope, name) ∈ set.pairs kind

theorem holds_addEntry (set : ChangeSet) (e e' : Entry) : (set.addEntry e).Holds e' ↔ set.Holds e' ∨ e = e' := by
  cases e' with
  | createdSchema name => exact mem_createdSchemas_addEntry set e name
  | id kind n => exact mem_ids_addEntry set e kind n
  | pair kind scope name => exact mem_pairs_addEntry set e kind (scope, name)

/-- An entry that does not read adds to no set. -/
theorem holds_unknown (set : ChangeSet) (e : Entry) : set.unknown.Holds e ↔ set.Holds e := by
  cases e with
  | createdSchema name => rfl
  | id kind n => cases kind <;> rfl
  | pair kind scope name => cases kind <;> rfl

theorem holds_markUntargeted (set : ChangeSet) (kind : IdKind) (e : Entry) :
    (set.markUntargeted kind).Holds e ↔ set.Holds e := by
  cases e with
  | createdSchema name =>
    rw [markUntargeted]
    split <;> rfl
  | id kind n => rw [Holds, ids_markUntargeted, Holds]
  | pair kind scope name => rw [Holds, pairs_markUntargeted, Holds]

/-- The element an entry of a change text stands for, if its kind is known and its payload reads. -/
def readAs (entry : List Char) : Option Entry := do
  let (kind, payload) ← splitOnce ':' entry
  match ← EntryKind.ofWire (.ofList (kind.map Char.toLower)) with
  | .createdSchema => (parseCreatedSchemaPayload payload).map .createdSchema
  | .id kind => (parseU64 payload).map (.id kind)
  | .pair kind => (parseCreatedTablePayload payload).map fun pair => .pair kind pair.1 pair.2

/-- An entry adds the element it stands for; one that stands for none only marks the set as unknown. -/
theorem readEntry_reads (set : ChangeSet) (entry : List Char) :
    (∃ e, readAs entry = some e ∧ set.readEntry entry = set.addEntry e) ∨
      readAs entry = none ∧ (set.readEntry entry).hasUnknown = true ∧
        ∀ e, (set.readEntry entry).Holds e ↔ set.Holds e := by
  have hunknown : set.readEntry entry = set.unknown →
      (set.readEntry entry).hasUnknown = true ∧ ∀ e, (set.readEntry entry).Holds e ↔ set.Holds e := by
    intro h
    rw [h]
    exact ⟨rfl, set.holds_unknown⟩
  cases hsplit : splitOnce ':' entry with
  | none => exact .inr ⟨by simp [readAs, hsplit], hunknown (by simp only [readEntry, hsplit])⟩
  | some parts =>
    cases hkind : EntryKind.ofWire (.ofList (parts.1.map Char.toLower)) with
    | none => exact .inr ⟨by simp [readAs, hsplit, hkind], hunknown (by simp only [readEntry, hsplit, hkind])⟩
    | some kind =>
      have hread : set.readEntry entry = set.readPayload parts.2 kind := by simp only [readEntry, hsplit, hkind]
      cases kind with
      | createdSchema =>
        have has : readAs entry = (parseCreatedSchemaPayload parts.2).map .createdSchema := by
          simp [readAs, hsplit, hkind]
        cases hname : parseCreatedSchemaPayload parts.2 with
        | none => exact .inr ⟨by simp [has, hname], hunknown (by simp only [hread, readPayload, hname])⟩
        | some name => exact .inl ⟨_, by rw [has, hname]; rfl, by simp only [hread, readPayload, hname, addEntry]⟩
      | id kind =>
        have has : readAs entry = (parseU64 parts.2).map (.id kind) := by simp [readAs, hsplit, hkind]
        cases hn : parseU64 parts.2 with
        | none =>
          -- A delete from no table that reads still marks the set as untargeted.
          refine .inr ⟨by simp [has, hn], ?_⟩
          simp only [hread, readPayload, hn]
          exact ⟨rfl, fun e => (holds_unknown _ e).trans (set.holds_markUntargeted kind e)⟩
        | some n => exact .inl ⟨_, by rw [has, hn]; rfl, by simp only [hread, readPayload, hn, addEntry]⟩
      | pair kind =>
        have has : readAs entry =
            (parseCreatedTablePayload parts.2).map fun pair => .pair kind pair.1 pair.2 := by
          simp [readAs, hsplit, hkind]
        cases hpair : parseCreatedTablePayload parts.2 with
        | none => exact .inr ⟨by simp [has, hpair], hunknown (by simp only [hread, readPayload, hpair])⟩
        | some pair => exact .inl ⟨_, by rw [has, hpair]; rfl, by simp only [hread, readPayload, hpair, addEntry]⟩

/-- Reading entries one after another adds what they stand for, and marks the set if one stands for nothing. -/
theorem foldl_readEntry (entries : List (List Char)) (set : ChangeSet) :
    (∀ e, (entries.foldl readEntry set).Holds e ↔ set.Holds e ∨ ∃ entry ∈ entries, readAs entry = some e) ∧
      ((entries.foldl readEntry set).hasUnknown = true ↔
        set.hasUnknown = true ∨ ∃ entry ∈ entries, readAs entry = none) := by
  induction entries generalizing set with
  | nil => simp
  | cons entry entries ih =>
    obtain ⟨hholds, hknown⟩ := ih (set.readEntry entry)
    simp only [List.foldl_cons, hholds, hknown, List.exists_mem_cons_iff]
    rcases set.readEntry_reads entry with ⟨e', has, hread⟩ | ⟨has, hread, hkept⟩
    · have hside : (set.addEntry e').hasUnknown = set.hasUnknown := congrArg (·.2.2.2.2) (set.side_addEntry e')
      simp [has, hread, hside, holds_addEntry, or_assoc]
    · simp [has, hread, hkept]

/-- The text of a change set reads back as the set, but for the schema ids and file ids no entry carries and for the
    deletes, which name no file. Reading any text, cut at its commas outside quotes, gives exactly the elements its
    non-empty entries stand for, and is unknown exactly if one of them stands for none. -/
theorem changesMade_round_trip (operations : List Operation)
    (hids : ∀ op ∈ operations, ∀ id ∈ op.ids, id ≤ u64Max) :
    (parse (fromOperations operations).toChangesMade =
        { fromOperations operations with
          createdTableSchemaIds := ∅, createdViewSchemaIds := ∅, createdMacroSchemaIds := ∅
          deletedDataFileIds := ∅
          deletesUntargetedFiles := !(fromOperations operations).deletedFromTables.isEmpty } ∧
      (parse (fromOperations operations).toChangesMade).hasUnknown = false) ∧
    ∀ text : String, ∃ pieces, Pieces '"' ',' false pieces ∧ [','].intercalate pieces = text.toList ∧
      (∀ e, (parse text).Holds e ↔ ∃ entry ∈ pieces, entry ≠ [] ∧ readAs entry = some e) ∧
      ((parse text).hasUnknown = true ↔ ∃ entry ∈ pieces, entry ≠ [] ∧ readAs entry = none) := by
  obtain ⟨hknown, hcompacted⟩ := fromOperations_known operations
  rw [parse_toChangesMade (fits_fromOperations hids)]
  refine ⟨⟨?_, rfl⟩, fun text => ?_⟩
  · rw [written, ← hcompacted, ← hknown]
  · obtain ⟨hpieces, hjoin⟩ : Pieces '"' ',' false _ ∧ _ := splitOutside_pieces false text.toList
    obtain ⟨hholds, hunknown⟩ := foldl_readEntry (splitEntries text) {}
    have hempty : ∀ e, ¬ Holds {} e := by
      rintro (name | ⟨kind, n⟩ | ⟨kind, scope, name⟩)
      · simp [Holds]
      all_goals cases kind <;> simp [Holds, ids, pairs]
    refine ⟨_, hpieces, hjoin, fun e => ?_, ?_⟩
    · rw [parse, hholds, or_iff_right (hempty e)]
      simp [splitEntries, and_assoc]
    · rw [parse, hunknown]
      simp [splitEntries, and_assoc]

/-- A table whose names hold quotes, commas and colons. -/
theorem changesMade_round_trip_quoted :
    parse (fromOperations [.createTable 1 2 "a\",:b" "", .inlineDelete 2]).toChangesMade =
      { fromOperations [.createTable 1 2 "a\",:b" "", .inlineDelete 2] with
        createdTableSchemaIds := ∅, createdViewSchemaIds := ∅, createdMacroSchemaIds := ∅
        deletedDataFileIds := ∅
        deletesUntargetedFiles :=
          !(fromOperations [.createTable 1 2 "a\",:b" "", .inlineDelete 2]).deletedFromTables.isEmpty } :=
  (changesMade_round_trip [.createTable 1 2 "a\",:b" "", .inlineDelete 2] (by decide)).1.1

/-- The set a committer rebuilds from the record of a commit with set `set`. -/
def rebuilt (set : ChangeSet) : ChangeSet :=
  { set.written with
    deletedDataFileIds := set.deletedDataFileIds
    deletesUntargetedFiles := set.deletedDataFileIds.isEmpty && !set.deletedFromTables.isEmpty }

end ChangeSet

section Intervening

open ChangeSet

variable (base : CatalogSnapshot) (micros : Int) (tx : Transaction) (theirs : ChangeSet)

/-- The change set a committer reads back from a verb commit's snapshot record. -/
def Transaction.storedChanges : ChangeSet :=
  interveningChange (some (mintedSnapshot base recordedChanges micros tx))

theorem Transaction.storedChanges_eq (hids : ∀ op ∈ tx.ops, ∀ id ∈ op.ids, id ≤ u64Max) :
    tx.storedChanges base micros = (fromOperations tx.ops).rebuilt := by
  have hparse := parse_toChangesMade (fits_fromOperations hids)
  simp only [storedChanges, interveningChange, mintedSnapshot, recordedChanges, hparse,
    ExtTreeSet.isEmpty_toList]
  split
  · rename_i hempty
    have hnone : (fromOperations tx.ops).deletedDataFileIds = ∅ := ExtTreeSet.isEmpty_iff.mp hempty
    simp [rebuilt, written, hnone]
  · rename_i hfiles
    have hback : ExtTreeSet.ofList (fromOperations tx.ops).deletedDataFileIds.toList =
        (fromOperations tx.ops).deletedDataFileIds := by
      apply ExtTreeSet.ext_mem
      intro f
      simp [ExtTreeSet.mem_ofList]
    simp [rebuilt, hback, hfiles]

/-- The commit's record hides its inlined deletes from the other commit: it mixes them with delete files, and
    nothing else the two commits did makes them conflict. -/
structure MasksInlineDelete (operations : List Operation) (theirs : ChangeSet) : Prop where
  inlineDelete : ∃ t, .inlineDelete t ∈ operations
  deleteFile : ∃ t f, .registerDeleteFile t f ∈ operations
  /-- Both delete from some table. -/
  shared : ∃ t ∈ (fromOperations operations).deletedFromTables, t ∈ theirs.deletedFromTables
  /-- The other commit names its files, and none is one of ours. -/
  named : theirs.deletesUntargetedFiles = false
  apart : ∀ f ∈ (fromOperations operations).deletedDataFileIds, f ∉ theirs.deletedDataFileIds
  known : theirs.hasUnknown = false
  schemas : ¬ ((fromOperations operations).touchesSchemaList = true ∧ theirs.touchesSchemaList = true)
  kinds : ∀ t, kindsConflict ((fromOperations operations).kindsOf t) (theirs.kindsOf t) = false
  created : createdInDropped theirs (fromOperations operations) = false

variable {theirs}

theorem ChangeSet.kindsOf_rebuilt {set : ChangeSet} (h : set.compactedTables = ∅) (t : Nat) :
    set.rebuilt.kindsOf t = set.kindsOf t := by
  have hrebuilt : set.rebuilt.compactedTables = set.compactedTables := h.symm
  unfold kindsOf
  rw [hrebuilt]
  rfl

theorem ChangeSet.createdInDropped_rebuilt (set theirs : ChangeSet) :
    createdInDropped theirs set.rebuilt = createdInDropped theirs set := rfl

/-- The rebuilt set meets the other one on every table the original does, unless the record hides an inlined
    delete. -/
theorem ChangeSet.MeetOn.rebuilt {operations : List Operation} {t : Nat}
    (h : MeetOn (fromOperations operations) theirs t)
    (hmixed : (∃ u, .inlineDelete u ∈ operations) → (∃ u f, .registerDeleteFile u f ∈ operations) →
      theirs.deletesUntargetedFiles = true ∨
        ∃ f ∈ (fromOperations operations).deletedDataFileIds, f ∈ theirs.deletedDataFileIds) :
    MeetOn (fromOperations operations).rebuilt theirs t := by
  have hkinds := kindsOf_rebuilt (fromOperations_known operations).2 t
  rcases h with h | ⟨hours, htheirs, hdel⟩
  · exact .inl (by rwa [hkinds])
  refine .inr ⟨hours, htheirs, ?_⟩
  have hnonempty : (fromOperations operations).deletedFromTables ≠ ∅ := ExtTreeSet.ne_empty_of_mem hours
  rw [deleteDeleteConflicts_iff] at hdel ⊢
  by_cases hfiles : (fromOperations operations).deletedDataFileIds = ∅
  · -- Without file ids the parsed set stays at table grain.
    exact .inl (.inl (by simp [ChangeSet.rebuilt, hfiles, hnonempty]))
  rcases hdel with (hinline | huntargeted) | hshared
  · have hboth := hmixed ((deletesUntargetedFiles_fromOperations operations).mp hinline)
      ((deletedDataFileIds_fromOperations operations).mp hfiles)
    exact hboth.imp .inr id
  · exact .inl (.inr huntargeted)
  · exact .inr hshared

theorem MasksInlineDelete.not_conflicts {operations : List Operation}
    (h : MasksInlineDelete operations theirs) :
    conflicts (fromOperations operations).rebuilt theirs = false := by
  have hfiles := (deletedDataFileIds_fromOperations operations).mpr h.deleteFile
  have htargeted : (fromOperations operations).rebuilt.deletesUntargetedFiles = false := by
    simp [rebuilt, hfiles]
  have hmeet : ∀ t, ¬ MeetOn (fromOperations operations).rebuilt theirs t := by
    intro t ht
    rw [MeetOn, kindsOf_rebuilt (fromOperations_known operations).2 t, h.kinds t] at ht
    rcases ht with ht | ⟨-, -, hdel⟩
    · cases ht
    rcases (deleteDeleteConflicts_iff _ _).mp hdel with (ht | ht) | ⟨f, hours, htheirs⟩
    · rw [htargeted] at ht
      cases ht
    · rw [h.named] at ht
      cases ht
    · exact h.apart f hours htheirs
  rw [Bool.eq_false_iff, Ne, conflicts_iff]
  rintro (((hunknown | hunknown) | hschemas | ⟨t, ht⟩) | hcreated | hcreated)
  · cases hunknown
  · rw [h.known] at hunknown
    cases hunknown
  · exact h.schemas hschemas
  · exact hmeet t ht
  · -- The record keeps no schema of a created entry.
    simp [createdInDropped, createsTableIn, rebuilt, written] at hcreated
  · rw [createdInDropped_rebuilt, h.created] at hcreated
    cases hcreated

/-- A commit whose set conflicts with another one still conflicts through its record, either way round,
    exactly when the record does not hide its inlined deletes. -/
theorem storedChanges_conflicts_iff (theirs : ChangeSet) (hids : ∀ op ∈ tx.ops, ∀ id ∈ op.ids, id ≤ u64Max) :
    (ConflictApart (fromOperations tx.ops) theirs →
        conflicts (tx.storedChanges base micros) theirs = true ∧
          conflicts theirs (tx.storedChanges base micros) = true) ↔
      ¬ MasksInlineDelete tx.ops theirs := by
  rw [conflicts_comm theirs, and_self, tx.storedChanges_eq base micros hids]
  constructor
  · intro h hmask
    obtain ⟨t, hours, htheirs⟩ := hmask.shared
    have hinline := (deletesUntargetedFiles_fromOperations tx.ops).mpr hmask.inlineDelete
    have hdel := (deleteDeleteConflicts_iff (fromOperations tx.ops) theirs).mpr (.inl (.inl hinline))
    have hconflict := h (.inr (.inr ⟨t, .inr ⟨hours, htheirs, hdel⟩⟩))
    rw [hmask.not_conflicts] at hconflict
    cases hconflict
  · intro hmask h
    by_contra hnone
    rw [conflicts_iff] at hnone
    rw [createdInDropped_rebuilt] at hnone
    obtain ⟨hapart, hcreated⟩ := not_or.mp hnone
    obtain ⟨hunknown, hrest⟩ := not_or.mp hapart
    obtain ⟨hschemas, hmeet⟩ := not_or.mp hrest
    rcases h with (hours | htheirs) | hboth | ⟨t, ht⟩
    · rw [(fromOperations_known tx.ops).1] at hours
      cases hours
    · exact hunknown (.inr htheirs)
    · exact hschemas hboth
    · by_cases hmixed : (∃ u, .inlineDelete u ∈ tx.ops) → (∃ u f, .registerDeleteFile u f ∈ tx.ops) →
          theirs.deletesUntargetedFiles = true ∨
            ∃ f ∈ (fromOperations tx.ops).deletedDataFileIds, f ∈ theirs.deletedDataFileIds
      · exact hmeet ⟨t, ht.rebuilt hmixed⟩
      · push Not at hmixed
        obtain ⟨hinline, hfile, hnamed, hfiles⟩ := hmixed
        have hkinds : ∀ u, ¬ kindsConflict ((fromOperations tx.ops).kindsOf u) (theirs.kindsOf u) = true := by
          intro u hu
          rw [← kindsOf_rebuilt (fromOperations_known tx.ops).2 u] at hu
          exact hmeet ⟨u, .inl hu⟩
        have hdeleted : t ∈ (fromOperations tx.ops).deletedFromTables ∧ t ∈ theirs.deletedFromTables :=
          ht.elim (fun hk => absurd hk (hkinds t)) fun hd => ⟨hd.1, hd.2.1⟩
        exact hmask
          { inlineDelete := hinline
            deleteFile := hfile
            shared := ⟨t, hdeleted⟩
            named := by simpa using hnamed
            apart := hfiles
            known := by simpa using fun hk => hunknown (.inr hk)
            schemas := hschemas
            kinds := fun u => by simpa using hkinds u
            created := by simpa using fun hc => hcreated (.inr hc) }

end Intervening

/-- A commit that puts a delete file on file 10 of table 1 and deletes inlined rows of that table. -/
def mixedDeletes : Transaction :=
  { state := {}
    ops := [.registerDeleteFile 1 10, .inlineDelete 1]
    nextCatalogId := 2
    nextFileId := 12
    newSnapshotId := 1 }

/-- The set of a commit that puts a delete file on file 20 of table 1. -/
def otherDelete : ChangeSet := .fromOperations [.registerDeleteFile 1 20]

/-- The two commits conflict, and the first one's record does not conflict with the second. -/
theorem storedChanges_mixedDeletes :
    ChangeSet.ConflictApart (.fromOperations mixedDeletes.ops) otherDelete ∧
      ChangeSet.conflicts (mixedDeletes.storedChanges {} 0) otherDelete = false :=
  ⟨.inr (.inr ⟨1, .inr ⟨by decide +kernel, by decide +kernel, by decide +kernel⟩⟩), by decide +kernel⟩

/-- A commit that only deletes inlined rows of table 1. -/
def inlineDeletes : Transaction := { mixedDeletes with ops := [.inlineDelete 1] }

theorem storedChanges_inlineDeletes :
    ChangeSet.conflicts (inlineDeletes.storedChanges {} 0) otherDelete = true := by
  have hmask : ¬ MasksInlineDelete inlineDeletes.ops otherDelete := by
    intro h
    obtain ⟨t, f, hmem⟩ := h.deleteFile
    simp [inlineDeletes] at hmem
  have hiff := storedChanges_conflicts_iff {} 0 inlineDeletes otherDelete (by decide)
  exact (hiff.mpr hmask (.inr (.inr ⟨1, .inr ⟨by decide +kernel, by decide +kernel, by decide +kernel⟩⟩))).1

end Moraine
