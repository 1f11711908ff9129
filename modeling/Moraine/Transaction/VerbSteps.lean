-- SUMMARY: What the commands that verbs are made of check, and what they leave: loops as lists of staged records.
import Moraine.Base.Commands
import Moraine.Transaction.Calls

/-!
# The steps of the verbs

Verbs check their arguments against the working view, allocate ids, put records, and stage index entries one by
one. Each lemma here says of one such command when it returns, what it returns and what it leaves.
-/

namespace Moraine

open Std OrdMap Commands

namespace Transaction

variable {tx tx' : Transaction} {α β : Type}

/-! ## Steps -/

@[simp] theorem require_eq_ok {ok : Bool} {e : Error} {u : Unit} :
    require ok e tx = .ok u tx' ↔ ok = true ∧ tx' = tx := by
  cases ok <;> simp [require]

@[simp] theorem require_eq_error {ok : Bool} {e e' : Error} :
    require ok e tx = .error e' tx' ↔ ok = false ∧ e' = e ∧ tx' = tx := by
  cases ok <;> simp [require]

@[simp] theorem orError_eq_ok {value : Option α} {e : Error} {a : α} :
    orError value e tx = .ok a tx' ↔ value = some a ∧ tx' = tx := by
  cases value <;> simp [orError, eq_comm]

@[simp] theorem orError_eq_error {value : Option α} {e e' : Error} :
    orError value e tx = .error e' tx' ↔ value = none ∧ e' = e ∧ tx' = tx := by
  cases value <;> simp [orError]

@[simp] theorem mutate_eq_ok {f : CatalogSnapshot → CatalogSnapshot} {u : Unit} :
    mutate f tx = .ok u tx' ↔ tx' = { tx with state := f tx.state } := by
  simp [mutate]

@[simp] theorem putRecord_eq_ok {r : EntityRecord} {u : Unit} :
    putRecord r tx = .ok u tx' ↔ tx' = { tx with state := tx.state.putRecord r } := by
  simp [putRecord]

@[simp] theorem record_eq_ok {op : Operation} {u : Unit} :
    record op tx = .ok u tx' ↔ tx' = { tx with ops := tx.ops ++ [op] } := by
  simp [record]

@[simp] theorem allocCatalogId_eq_ok {id : Nat} :
    allocCatalogId tx = .ok id tx' ↔
      id = tx.nextCatalogId ∧ tx' = { tx with nextCatalogId := tx.nextCatalogId + 1 } := by
  simp only [allocCatalogId, modifyGet_eq_ok, Prod.mk.injEq]
  exact and_congr eq_comm eq_comm

@[simp] theorem allocFileId_eq_ok {id : Nat} :
    allocFileId tx = .ok id tx' ↔ id = tx.nextFileId ∧ tx' = { tx with nextFileId := tx.nextFileId + 1 } := by
  simp only [allocFileId, modifyGet_eq_ok, Prod.mk.injEq]
  exact and_congr eq_comm eq_comm

@[simp] theorem markAltered_eq_ok {t : Nat} {u : Unit} :
    markAltered t tx = .ok u tx' ↔ tx' = { tx with ops := tx.ops ++ [.alterTable t] } := by
  simp [markAltered]

@[simp] theorem allocateRowIds_eq_ok {t rowIdStart : Nat} {tstat : TableStatsValue} :
    allocateRowIds t tstat tx = .ok rowIdStart tx' ↔ rowIdStart = tstat.nextRowId ∧
      tx' = { tx with inheritedRowIds := tx.inheritedRowIds.insertIfNew t tstat.nextRowId } := by
  simp [allocateRowIds, and_comm, @eq_comm _ _ rowIdStart]

@[simp] theorem allocateChunkSeq_eq_ok {t schemaVersion seq : Nat} :
    allocateChunkSeq t schemaVersion tx = .ok seq tx' ↔ seq = tx.chunkSeqs.getD (t, schemaVersion) 0 ∧
      tx' = { tx with
        chunkSeqs := tx.chunkSeqs.insert (t, schemaVersion) (tx.chunkSeqs.getD (t, schemaVersion) 0 + 1) } := by
  simp only [allocateChunkSeq, modifyGet_eq_ok, Prod.mk.injEq]
  exact and_congr eq_comm eq_comm

@[simp] theorem stageInline_eq_ok {stage : InlineStage} {u : Unit} :
    stageInline stage tx = .ok u tx' ↔ tx' = { tx with inlineOps := tx.inlineOps ++ [stage] } := by
  simp [stageInline]

@[simp] theorem nonemptyName_eq_ok {what name : String} {u : Unit} :
    nonemptyName what name tx = .ok u tx' ↔ name ≠ "" ∧ tx' = tx := by
  simp [nonemptyName]

@[simp] theorem liveTable_eq_ok {t : Nat} {value : TableValue} :
    liveTable t tx = .ok value tx' ↔ tx.state.tables[t]? = some value ∧ tx' = tx := by
  simp [liveTable, and_comm]

@[simp] theorem liveColumn_eq_ok {t c : Nat} {value : ColumnValue} :
    liveColumn t c tx = .ok value tx' ↔ getNested tx.state.columns t c = some value ∧ tx' = tx := by
  simp [liveColumn, and_comm]

@[simp] theorem liveTableStats_eq_ok {t : Nat} {value : TableStatsValue} :
    liveTableStats t tx = .ok value tx' ↔ tx.state.tableStats[t]? = some value ∧ tx' = tx := by
  simp [liveTableStats, and_comm]

@[simp] theorem liveIndex_eq_ok {i : Nat} {found : Nat × IndexValue} :
    liveIndex i tx = .ok found tx' ↔ findIndex tx.state i = some found ∧ tx' = tx := by
  simp [liveIndex, and_comm]

/-- No table or view of the schema has the name. -/
def RelationFree (v : CatalogSnapshot) (schema : Nat) (name : String) : Prop :=
  scopedName v.tableNames schema name = none ∧ scopedName v.viewNames schema name = none

@[simp] theorem relationNameFree_eq_ok {schema : Nat} {name : String} {u : Unit} :
    relationNameFree schema name tx = .ok u tx' ↔ RelationFree tx.state schema name ∧ tx' = tx := by
  simp [relationNameFree, RelationFree, and_comm]

/-- No live column of the table beneath `parent` has the name. -/
def SiblingFree (v : CatalogSnapshot) (t : Nat) (parent : Option Nat) (name : String) : Prop :=
  ∀ c ∈ columnsOf v t, ¬ (c.parentColumn = parent ∧ c.columnName = name)

@[simp] theorem siblingNameFree_eq_ok {t : Nat} {parent : Option Nat} {name : String} {u : Unit} :
    siblingNameFree t parent name tx = .ok u tx' ↔ SiblingFree tx.state t parent name ∧ tx' = tx := by
  simp [siblingNameFree, SiblingFree, and_comm]

/-- No live index of the table has the name. -/
def IndexNameFree (v : CatalogSnapshot) (t : Nat) (name : String) : Prop :=
  ∀ other ∈ (v.indexes.getD t ∅).values, other.indexName ≠ name

@[simp] theorem indexNameFree_eq_ok {t : Nat} {name : String} {u : Unit} :
    indexNameFree t name tx = .ok u tx' ↔ IndexNameFree tx.state t name ∧ tx' = tx := by
  simp [indexNameFree, IndexNameFree, and_comm]

/-! ## Checks -/

theorem checks_require (ok : Bool) (e : Error) : Checks (require ok e) :=
  ⟨fun h => (require_eq_ok.mp h).2, fun h => (require_eq_error.mp h).2.2⟩

theorem checks_orError (value : Option α) (e : Error) : Checks (orError value e) :=
  ⟨fun h => (orError_eq_ok.mp h).2, fun h => (orError_eq_error.mp h).2.2⟩

theorem checks_nonemptyName (what name : String) : Checks (nonemptyName what name) := checks_require _ _

theorem checks_pathSafeName (what name : String) : Checks (pathSafeName what name) :=
  (checks_nonemptyName what name).bind fun _ => checks_require _ _

theorem checks_ensureInlinable (columnName columnType : String) : Checks (ensureInlinable columnName columnType) :=
  checks_require _ _

theorem checks_liveTable (t : Nat) : Checks (liveTable t) := .bind .get fun _ => checks_orError _ _

theorem checks_liveColumn (t c : Nat) : Checks (liveColumn t c) := .bind .get fun _ => checks_orError _ _

theorem checks_liveTableStats (t : Nat) : Checks (liveTableStats t) := .bind .get fun _ => checks_orError _ _

theorem checks_liveIndex (i : Nat) : Checks (liveIndex i) := .bind .get fun _ => checks_orError _ _

theorem checks_relationNameFree (schema : Nat) (name : String) : Checks (relationNameFree schema name) :=
  .bind .get fun _ => checks_require _ _

theorem checks_siblingNameFree (t : Nat) (parent : Option Nat) (name : String) :
    Checks (siblingNameFree t parent name) := .bind .get fun _ => checks_require _ _

theorem checks_indexNameFree (t : Nat) (name : String) : Checks (indexNameFree t name) :=
  .bind .get fun _ => checks_require _ _

mutual

theorem checks_validateColumnDefs : ∀ (defs : List ColumnDef) (seen : List String),
    Checks (validateColumnDefs defs seen)
  | [], _ => .pure ()
  | column :: defs, _ =>
    (checks_nonemptyName _ _).bind fun _ => (checks_ensureInlinable _ _).bind fun _ =>
      (checks_require _ _).bind fun _ =>
      (checks_validateChildren column).bind fun _ => checks_validateColumnDefs defs _

theorem checks_validateChildren : ∀ column : ColumnDef, Checks (validateChildren column)
  | .mk _ _ _ _ children => checks_validateColumnDefs children []

end

theorem checks_partitionColumnsLive (t : Nat) (seen : List Nat) (keys : List PartitionColumnDef) :
    Checks (partitionColumnsLive t seen keys) := by
  induction keys generalizing seen with
  | nil => exact .pure ()
  | cons key keys ih =>
    exact (checks_liveColumn _ _).bind fun _ => (checks_require _ _).bind fun _ => ih _

theorem checks_indexableColumns (t : Nat) (columns : List Nat) : Checks (indexableColumns t columns) := by
  induction columns with
  | nil => exact .pure ()
  | cons column columns ih =>
    exact (checks_liveColumn _ _).bind fun _ => (checks_require _ _).bind fun _ => ih

theorem checks_statsColumnsLive (t : Nat) (entries : List FileColumnStats) : Checks (statsColumnsLive t entries) := by
  induction entries with
  | nil => exact .pure ()
  | cons entry entries ih => exact (checks_liveColumn _ _).bind fun _ => ih

theorem checks_resolveFilePartition (t : Nat) (values : List String) : Checks (resolveFilePartition t values) := by
  refine .bind .get fun tx => ?_
  cases (tx.state.partitions.getD t ∅).values.head? with
  | none => exact (checks_require _ _).bind fun _ => .pure _
  | some spec => exact (checks_require _ _).bind fun _ => .pure _

theorem checks_liveScope (scope : OptionScope) : Checks (liveScope scope) := by
  cases scope with
  | global => exact .pure ()
  | schema s => exact .bind .get fun _ => checks_require _ _
  | table t => exact .bind .get fun _ => checks_require _ _

/-! ## Failures -/

/-- Nothing has changed but the counter of file ids. -/
def Idle (tx tx' : Transaction) : Prop := ∃ next, tx.nextFileId ≤ next ∧ tx' = { tx with nextFileId := next }

theorem Idle.refl (tx : Transaction) : Idle tx tx := ⟨tx.nextFileId, Nat.le_refl _, rfl⟩

theorem Idle.trans {tx₁ tx₂ tx₃ : Transaction} (h : Idle tx₁ tx₂) (h' : Idle tx₂ tx₃) : Idle tx₁ tx₃ := by
  obtain ⟨next, hle, rfl⟩ := h
  obtain ⟨next', hle', rfl⟩ := h'
  exact ⟨next', Nat.le_trans hle hle', rfl⟩

theorem total_mutate (f : CatalogSnapshot → CatalogSnapshot) : Total (mutate f) := .modify _

theorem total_putRecord (r : EntityRecord) : Total (putRecord r) := total_mutate _

theorem total_record (op : Operation) : Total (record op) := .modify _

theorem total_markAltered (t : Nat) : Total (markAltered t) := total_record _

theorem total_allocCatalogId : Total allocCatalogId := .modifyGet _

theorem total_allocFileId : Total allocFileId := .modifyGet _

theorem total_allocateRowIds (t : Nat) (tstat : TableStatsValue) : Total (allocateRowIds t tstat) :=
  .bind (.modify _) fun _ => .pure _

theorem total_allocateChunkSeq (t schemaVersion : Nat) : Total (allocateChunkSeq t schemaVersion) := .modifyGet _

theorem total_stageInline (stage : InlineStage) : Total (stageInline stage) := .modify _

mutual

theorem total_stageColumnTrees (t : Nat) : ∀ (defs : List ColumnDef) (parent : Option Nat) (id order : Nat),
    Total (stageColumnTrees t defs parent id order)
  | [], _, _, _ => .pure _
  | column :: defs, _, _, _ =>
    .bind (total_stageColumnTree t column _ _ _) fun _ => total_stageColumnTrees t defs _ _ _

theorem total_stageColumnTree (t : Nat) : ∀ (column : ColumnDef) (parent : Option Nat) (id order : Nat),
    Total (stageColumnTree t column parent id order)
  | .mk _ _ _ _ children, _, _, _ =>
    .bind .get fun _ => .bind (total_putRecord _) fun _ => total_stageColumnTrees t children _ _ _

end

theorem total_putFileColumnStats (t file : Nat) (entries : List FileColumnStats) :
    Total (putFileColumnStats t file entries) := by
  induction entries with
  | nil => exact .pure ()
  | cons entry entries ih => exact .bind (total_putRecord _) fun _ => ih

section NeError

variable {e : Error}

@[simp] theorem mutate_ne_error {f : CatalogSnapshot → CatalogSnapshot} : mutate f tx ≠ .error e tx' :=
  total_mutate _ _ _ _

@[simp] theorem putRecord_ne_error {r : EntityRecord} : putRecord r tx ≠ .error e tx' := total_putRecord _ _ _ _

@[simp] theorem record_ne_error {op : Operation} : record op tx ≠ .error e tx' := total_record _ _ _ _


@[simp] theorem allocFileId_ne_error : allocFileId tx ≠ .error e tx' := total_allocFileId _ _ _

@[simp] theorem allocateRowIds_ne_error {t : Nat} {tstat : TableStatsValue} :
    allocateRowIds t tstat tx ≠ .error e tx' := total_allocateRowIds _ _ _ _ _

@[simp] theorem allocateChunkSeq_ne_error {t schemaVersion : Nat} :
    allocateChunkSeq t schemaVersion tx ≠ .error e tx' := total_allocateChunkSeq _ _ _ _ _

@[simp] theorem stageInline_ne_error {stage : InlineStage} : stageInline stage tx ≠ .error e tx' :=
  total_stageInline _ _ _ _

end NeError

/-- Failures after checks that passed are those of what follows. -/
theorem fails_after {c : Verb α} {f : α → Verb β} (hc : Checks c) (hf : ∀ a, Fails Idle (f a)) :
    Fails Idle (c >>= f) := .checks_bind Idle.refl hc hf

/-- A check before a command that cannot fail. -/
theorem fails_check {c : Verb α} {f : α → Verb β} (hc : Checks c) (hf : ∀ a, Total (f a)) :
    Fails Idle (c >>= f) := fails_after hc fun a => .of_total (hf a)

/-- Allocating a file id moves the counter only. -/
theorem idle_allocFileId (tx : Transaction) (id : Nat) (tx' : Transaction) (h : allocFileId tx = .ok id tx') :
    Idle tx tx' := by
  obtain ⟨-, rfl⟩ := allocFileId_eq_ok.mp h
  exact ⟨_, Nat.le_succ _, rfl⟩

theorem live_of_partitionColumnsLive {t : Nat} {seen : List Nat} {keys : List PartitionColumnDef} {u : Unit}
    (h : partitionColumnsLive t seen keys tx = .ok u tx') :
    ∀ key ∈ keys, (getNested tx.state.columns t key.column).isSome := by
  induction keys generalizing seen with
  | nil => simp
  | cons key keys ih =>
    simp [partitionColumnsLive] at h
    obtain ⟨hkey, -, hrest⟩ := h
    exact List.forall_mem_cons.mpr ⟨Option.isSome_iff_exists.mpr hkey, ih hrest⟩

/-- The columns are live and of types that can be indexed. -/
def IndexableColumns (v : CatalogSnapshot) (t : Nat) (columns : List Nat) : Prop :=
  ∀ c ∈ columns, ∃ value, getNested v.columns t c = some value ∧
    ducklakeBaseType value.columnType ∉ ["HUGEINT", "UHUGEINT", "INT128", "UINT128"]

@[simp] theorem indexableColumns_eq_ok {t : Nat} {columns : List Nat} {u : Unit} :
    indexableColumns t columns tx = .ok u tx' ↔ IndexableColumns tx.state t columns ∧ tx' = tx := by
  induction columns with
  | nil => simp [indexableColumns, IndexableColumns]
  | cons column columns ih =>
    simp only [indexableColumns, ensureIndexable, bind_eq_ok, liveColumn_eq_ok, require_eq_ok, decide_eq_true_eq,
      IndexableColumns, List.forall_mem_cons]
    constructor
    · rintro ⟨value, _, ⟨hvalue, rfl⟩, _, _, ⟨htype, rfl⟩, hrest⟩
      exact ⟨⟨⟨value, hvalue, htype⟩, (ih.mp hrest).1⟩, (ih.mp hrest).2⟩
    · rintro ⟨⟨⟨value, hvalue, htype⟩, hrest⟩, rfl⟩
      exact ⟨value, _, ⟨hvalue, rfl⟩, (), _, ⟨htype, rfl⟩, ih.mpr ⟨hrest, rfl⟩⟩

/-- The columns that a file's statistics name are live. -/
def StatsColumnsLive (v : CatalogSnapshot) (t : Nat) (entries : List FileColumnStats) : Prop :=
  ∀ entry ∈ entries, (getNested v.columns t entry.columnId).isSome

@[simp] theorem statsColumnsLive_eq_ok {t : Nat} {entries : List FileColumnStats} {u : Unit} :
    statsColumnsLive t entries tx = .ok u tx' ↔ StatsColumnsLive tx.state t entries ∧ tx' = tx := by
  induction entries with
  | nil => simp [statsColumnsLive, StatsColumnsLive]
  | cons entry entries ih =>
    simp only [statsColumnsLive, bind_eq_ok, liveColumn_eq_ok, StatsColumnsLive, List.forall_mem_cons,
      Option.isSome_iff_exists]
    constructor
    · rintro ⟨value, _, ⟨hvalue, rfl⟩, hrest⟩
      obtain ⟨hall, rfl⟩ := ih.mp hrest
      exact ⟨⟨⟨value, hvalue⟩, by simpa [StatsColumnsLive, Option.isSome_iff_exists] using hall⟩, rfl⟩
    · rintro ⟨⟨⟨value, hvalue⟩, hall⟩, rfl⟩
      exact ⟨value, _, ⟨hvalue, rfl⟩, ih.mpr ⟨by simpa [StatsColumnsLive, Option.isSome_iff_exists] using hall, rfl⟩⟩

/-- The partition values fit the table's live spec, which is `partitionId`, or there is neither. -/
def PartitionFits (v : CatalogSnapshot) (t : Nat) (values : List String) (partitionId : Option Nat) : Prop :=
  match (v.partitions.getD t ∅).values.head? with
  | none => values = [] ∧ partitionId = none
  | some spec => values.length = spec.columns.length ∧ partitionId = some spec.partitionId

@[simp] theorem resolveFilePartition_eq_ok {t : Nat} {values : List String} {partitionId : Option Nat} :
    resolveFilePartition t values tx = .ok partitionId tx' ↔
      PartitionFits tx.state t values partitionId ∧ tx' = tx := by
  cases hspec : (tx.state.partitions.getD t ∅).values.head? with
  | none => simp [resolveFilePartition, PartitionFits, hspec, and_assoc, and_comm, @eq_comm _ none]
  | some spec => simp [resolveFilePartition, PartitionFits, hspec, and_assoc, and_comm, @eq_comm _ (some _) partitionId]

/-! ## Columns -/

mutual

/-- The names are distinct among siblings, in every tree, and none is among `seen`. -/
def DistinctNames : List ColumnDef → List String → Prop
  | [], _ => True
  | column :: defs, seen => column.name ∉ seen ∧ DistinctChildren column ∧ DistinctNames defs (column.name :: seen)

def DistinctChildren : ColumnDef → Prop
  | .mk _ _ _ _ children => DistinctNames children []

end

mutual

theorem distinct_of_validateColumnDefs : ∀ (defs : List ColumnDef) (seen : List String) {u : Unit}
    {tx tx' : Transaction}, validateColumnDefs defs seen tx = .ok u tx' → DistinctNames defs seen
  | [], _, _, _, _, _ => trivial
  | column :: defs, _, _, _, _, h => by
    simp [validateColumnDefs, ensureInlinable] at h
    obtain ⟨-, -, hseen, _, _, hchildren, hdefs⟩ := h
    exact ⟨hseen, distinct_of_validateChildren column hchildren, distinct_of_validateColumnDefs defs _ hdefs⟩

theorem distinct_of_validateChildren : ∀ (column : ColumnDef) {u : Unit} {tx tx' : Transaction},
    validateChildren column tx = .ok u tx' → DistinctChildren column
  | .mk _ _ _ _ children, _, _, _, h => distinct_of_validateColumnDefs children [] h

end

mutual

/-- The records the columns become, in the order they are staged: ids and positions count up. -/
def columnRecords (t n : Nat) : List ColumnDef → Option Nat → Nat → Nat → List ColumnValue
  | [], _, _, _ => []
  | column :: defs, parent, id, order =>
    treeRecords t n column parent id order ++
      columnRecords t n defs parent (id + nodeCount column) (order + nodeCount column)

def treeRecords (t n : Nat) : ColumnDef → Option Nat → Nat → Nat → List ColumnValue
  | .mk name columnType nullsAllowed defaultValue children, parent, id, order =>
    newColumn t id order n parent name columnType nullsAllowed defaultValue ::
      columnRecords t n children (some id) (id + 1) (order + 1)

end

/-- The view with a list of records put into it, in order. -/
def putAll (v : CatalogSnapshot) (rs : List EntityRecord) : CatalogSnapshot := rs.foldl CatalogSnapshot.putRecord v

def putColumns (v : CatalogSnapshot) (cs : List ColumnValue) : CatalogSnapshot := putAll v (cs.map .column)

theorem putColumns_append (v : CatalogSnapshot) (cs ds : List ColumnValue) :
    putColumns v (cs ++ ds) = putColumns (putColumns v cs) ds := by
  simp [putColumns, putAll]

mutual

theorem stageColumnTrees_eq (t : Nat) : ∀ (defs : List ColumnDef) (parent : Option Nat) (id order : Nat)
    (tx : Transaction), stageColumnTrees t defs parent id order tx =
      .ok (id + columnNodeCount defs, order + columnNodeCount defs)
        { tx with state := putColumns tx.state (columnRecords t tx.newSnapshotId defs parent id order) }
  | [], parent, id, order, tx => rfl
  | column :: defs, parent, id, order, tx => by
    have htree := stageColumnTree_eq t column parent id order tx
    have hrest := stageColumnTrees_eq t defs parent (id + nodeCount column) (order + nodeCount column)
      { tx with state := putColumns tx.state (treeRecords t tx.newSnapshotId column parent id order) }
    rw [stageColumnTrees, bind_eq_ok]
    refine ⟨_, _, htree, ?_⟩
    simp only [hrest, columnNodeCount, columnRecords, putColumns_append, Nat.add_assoc]

theorem stageColumnTree_eq (t : Nat) : ∀ (column : ColumnDef) (parent : Option Nat) (id order : Nat)
    (tx : Transaction), stageColumnTree t column parent id order tx =
      .ok (id + nodeCount column, order + nodeCount column)
        { tx with state := putColumns tx.state (treeRecords t tx.newSnapshotId column parent id order) }
  | .mk name columnType nullsAllowed defaultValue children, parent, id, order, tx => by
    have hchildren := stageColumnTrees_eq t children (some id) (id + 1) (order + 1)
      { tx with state := tx.state.putRecord (.column (newColumn t id order tx.newSnapshotId parent name columnType
          nullsAllowed defaultValue)) }
    simp only [stageColumnTree, bind_eq_ok, get_eq_ok, putRecord_eq_ok]
    refine ⟨tx, tx, ⟨rfl, rfl⟩, (), _, rfl, ?_⟩
    simp only [hchildren, nodeCount, treeRecords, putColumns, putAll, List.map_cons, List.foldl_cons, Nat.add_assoc,
      Nat.add_comm 1]
end


/-! ## Index entries -/

/-- The entry that is staged for a row, if its values fit the index and encode. -/
def encodedEntry (indexId : Nat) (shape : IndexShape) (delete : Bool) (entry : IndexEntry) : Option StagedIndexEntry :=
  if entry.values.length = shape.columnCount then
    match encodeOrderedValues entry.values (shape.orders.map ColumnOrder.direction)
        (shape.orders.map ColumnOrder.nulls) with
    | .error _ => none
    | .ok key => some { indexId, unique := shape.unique && !entry.values.any Option.isNone, key, rowId := entry.rowId
                        delete, building := shape.building }
  else none

/-- The command stages one entry, a matter of the working view, or refuses and leaves the transaction alone. -/
def StagesEntry (c : Verb Unit) (f : CatalogSnapshot → Option StagedIndexEntry) : Prop := ∀ tx : Transaction,
  (∃ x, f tx.state = some x ∧ c tx = .ok () { tx with indexEntries := tx.indexEntries ++ [x] }) ∨
    f tx.state = none ∧ ∃ e, c tx = .error e tx

/-- The function gives `bs` on the elements before the first that it refuses. -/
def Stopped (f : α → Option β) (as : List α) (bs : List β) : Prop :=
  ∃ before bad after, as = before ++ bad :: after ∧ before.mapM f = some bs ∧ f bad = none

theorem Stopped.refused {f : α → Option β} {as : List α} {bs : List β} (h : Stopped f as bs) :
    ∃ a ∈ as, f a = none := by
  obtain ⟨before, bad, after, rfl, -, hbad⟩ := h
  exact ⟨bad, by simp, hbad⟩

/-- What a function gives on a list, if it refuses no element. -/
theorem mapM_eq_some {f : α → Option β} {as : List α} {bs : List β} (h : as.mapM f = some bs) :
    (∀ a ∈ as, ∃ b ∈ bs, f a = some b) ∧ ∀ b ∈ bs, ∃ a ∈ as, f a = some b := by
  induction as generalizing bs with
  | nil =>
    cases h
    simp
  | cons a as ih =>
    simp only [List.mapM_cons, Option.bind_eq_bind, Option.bind_eq_some_iff, Option.pure_def, Option.some.injEq] at h
    obtain ⟨b, hb, bs', hbs', rfl⟩ := h
    obtain ⟨hfor, hback⟩ := ih hbs'
    simp only [List.mem_cons, forall_eq_or_imp, exists_eq_or_imp]
    exact ⟨⟨.inl hb, fun a ha => .inr (hfor a ha)⟩, .inl hb, fun b hb => .inr (hback b hb)⟩

/-- A loop of such commands accepts every element, or it has staged the entries of those before the first that is
    refused. -/
theorem StagesEntry.loop {step : α → Verb Unit} {loop : List α → Verb Unit}
    {f : CatalogSnapshot → α → Option StagedIndexEntry} (hnil : loop [] = pure ())
    (hcons : ∀ a as, loop (a :: as) = step a >>= fun _ => loop as) (hstep : ∀ a, StagesEntry (step a) fun v => f v a)
    (as : List α) (tx : Transaction) :
    (∃ es, as.mapM (f tx.state) = some es ∧
        loop as tx = .ok () { tx with indexEntries := tx.indexEntries ++ es }) ∨
      ∃ es e, Stopped (f tx.state) as es ∧
        loop as tx = .error e { tx with indexEntries := tx.indexEntries ++ es } := by
  induction as generalizing tx with
  | nil => exact .inl ⟨[], rfl, by simp [hnil]⟩
  | cons a as ih =>
    simp only [hcons, bind_eq_ok, bind_eq_error]
    rcases hstep a tx with ⟨x, hx, hrun⟩ | ⟨hnone, e, hrun⟩
    · rcases ih { tx with indexEntries := tx.indexEntries ++ [x] } with
        ⟨es, hes, hrest⟩ | ⟨es, e, ⟨before, bad, after, rfl, hes, hbad⟩, hrest⟩
      · exact .inl ⟨x :: es, by simp [hx, hes], (), _, hrun, by simp [hrest]⟩
      · exact .inr ⟨x :: es, e, ⟨a :: before, bad, after, rfl, by simp [hx, hes], hbad⟩,
          .inr ⟨(), _, hrun, by simp [hrest]⟩⟩
    · exact .inr ⟨[], e, ⟨[], a, as, rfl, rfl, hnone⟩, .inl (by simp [hrun])⟩

theorem stages_stageIndexEntry (indexId : Nat) (shape : IndexShape) (entry : IndexEntry) (delete : Bool) :
    StagesEntry (stageIndexEntry indexId shape entry delete) fun _ => encodedEntry indexId shape delete entry := by
  intro tx
  unfold encodedEntry
  by_cases hlen : entry.values.length = shape.columnCount
  · cases hkey : encodeOrderedValues entry.values (shape.orders.map ColumnOrder.direction)
        (shape.orders.map ColumnOrder.nulls) with
    | error e => exact .inr ⟨by simp, e, by simp [stageIndexEntry, hlen, hkey]⟩
    | ok key => exact .inl ⟨_, by simp only [hlen, if_true]; rfl, by simp [stageIndexEntry, hlen, hkey]⟩
  · exact .inr ⟨by simp [hlen], by simp [stageIndexEntry, hlen]⟩

/-- What staging an entry needs to know about a live index. -/
def shapeOf (value : IndexValue) : IndexShape :=
  ⟨value.unique, value.columnIds.length, columnOrders value, value.buildState.isSome⟩

/-- A command that first looks up a live index's shape. -/
theorem stages_liveIndexShape {t i : Nat} {c : IndexShape → Verb Unit}
    {f : IndexValue → CatalogSnapshot → Option StagedIndexEntry}
    (h : ∀ value, StagesEntry (c (shapeOf value)) (f value)) :
    StagesEntry (liveIndexShape t i >>= c) fun v => (getNested v.indexes t i).bind fun value => f value v := by
  intro tx
  cases hvalue : getNested tx.state.indexes t i with
  | none => exact .inr ⟨by simp [hvalue], by simp [liveIndexShape, hvalue]⟩
  | some value => simpa [liveIndexShape, hvalue, shapeOf] using h value tx

theorem stages_orError {o : Option α} {e : Error} {c : α → Verb Unit}
    {f : α → CatalogSnapshot → Option StagedIndexEntry}
    (h : ∀ a, StagesEntry (c a) (f a)) : StagesEntry (orError o e >>= c) fun v => o.bind fun a => f a v := by
  intro tx
  cases o with
  | none => exact .inr ⟨rfl, by simp⟩
  | some a => simpa using h a tx

/-- The entry staged for the row at an ordinal of a file or chunk. -/
def stagedFileEntry (t rowIdStart : Nat) (v : CatalogSnapshot) (entry : FileIndexEntry) : Option StagedIndexEntry :=
  (getNested v.indexes t entry.index).bind fun value =>
    (checkedAdd rowIdStart entry.ordinal).bind fun rowId =>
      encodedEntry entry.index (shapeOf value) false ⟨rowId, entry.values⟩

/-- The removal staged for a killed row. -/
def stagedRemoval (t : Nat) (v : CatalogSnapshot) (entry : FileIndexRemoval) : Option StagedIndexEntry :=
  (getNested v.indexes t entry.index).bind fun value =>
    encodedEntry entry.index (shapeOf value) true ⟨entry.rowId, entry.values⟩

section Loops

variable (tx)

/-- What a loop that stages entries does: it accepts them all, or stops at the first it refuses. -/
def StagesAll (loop : List α → Verb Unit) (f : α → Option StagedIndexEntry) (as : List α) : Prop :=
  (∃ es, as.mapM f = some es ∧ loop as tx = .ok () { tx with indexEntries := tx.indexEntries ++ es }) ∨
    ∃ es e, Stopped f as es ∧ loop as tx = .error e { tx with indexEntries := tx.indexEntries ++ es }

variable {tx} {loop : List α → Verb Unit} {f : α → Option StagedIndexEntry} {as : List α}

theorem StagesAll.ok (h : StagesAll tx loop f as) {u : Unit} (hrun : loop as tx = .ok u tx') :
    ∃ es, as.mapM f = some es ∧ tx' = { tx with indexEntries := tx.indexEntries ++ es } := by
  rcases h with ⟨es, hes, h⟩ | ⟨es, e, -, h⟩
  · rw [hrun] at h
    exact ⟨es, hes, (EStateM.Result.ok.inj h).2⟩
  · rw [hrun] at h
    cases h

theorem StagesAll.error (h : StagesAll tx loop f as) {e : Error} (hrun : loop as tx = .error e tx') :
    ∃ es, Stopped f as es ∧ tx' = { tx with indexEntries := tx.indexEntries ++ es } := by
  rcases h with ⟨es, -, h⟩ | ⟨es, e', hstopped, h⟩
  · rw [hrun] at h
    cases h
  · rw [hrun] at h
    exact ⟨es, hstopped, (EStateM.Result.error.inj h).2⟩

/-- The loop is the last thing that can fail. -/
theorem StagesAll.error_bind {γ : Type} {rest : Unit → Verb γ} (hloop : StagesAll tx loop f as) {e : Error}
    (h : (loop as >>= rest) tx = .error e tx') (hrest : Total (rest ())) :
    ∃ es, Stopped f as es ∧ tx' = { tx with indexEntries := tx.indexEntries ++ es } := by
  rcases bind_eq_error.mp h with h | ⟨_, _, -, h⟩
  · exact hloop.error h
  · exact absurd h (hrest _ _ _)

variable (tx)

theorem stageIndexEntries_run (indexId : Nat) (shape : IndexShape) (delete : Bool) (entries : List IndexEntry) :
    StagesAll tx (stageIndexEntries indexId shape delete) (encodedEntry indexId shape delete) entries :=
  StagesEntry.loop rfl (fun _ _ => rfl) (fun entry => stages_stageIndexEntry indexId shape entry delete) entries tx

/-- One round of the loop over a file's entries. -/
private def stageFileEntry (t rowIdStart : Nat) (entry : FileIndexEntry) : Verb Unit := do
  let shape ← liveIndexShape t entry.index
  let rowId ← orError (checkedAdd rowIdStart entry.ordinal) (.constraint
    s!"index entry ordinal {entry.ordinal} overflows the row-id range on table {t}")
  stageIndexEntry entry.index shape ⟨rowId, entry.values⟩ false

/-- One round of the loop over the removals of a delete. -/
private def stageRemoval (t : Nat) (entry : FileIndexRemoval) : Verb Unit := do
  let shape ← liveIndexShape t entry.index
  stageIndexEntry entry.index shape ⟨entry.rowId, entry.values⟩ true

theorem stageFileIndexEntries_run (t rowIdStart : Nat) (entries : List FileIndexEntry) :
    StagesAll tx (stageFileIndexEntries t rowIdStart) (stagedFileEntry t rowIdStart tx.state) entries := by
  have hcons : ∀ entry entries, stageFileIndexEntries t rowIdStart (entry :: entries) =
      stageFileEntry t rowIdStart entry >>= fun _ => stageFileIndexEntries t rowIdStart entries := by
    intro entry entries
    simp [stageFileIndexEntries, stageFileEntry]
  exact StagesEntry.loop rfl hcons
    (fun entry => stages_liveIndexShape fun value => stages_orError fun rowId => stages_stageIndexEntry _ _ _ _)
    entries tx

theorem stageDeleteFileIndexEntries_run (t : Nat) (entries : List FileIndexRemoval) :
    StagesAll tx (stageDeleteFileIndexEntries t) (stagedRemoval t tx.state) entries := by
  have hcons : ∀ entry entries, stageDeleteFileIndexEntries t (entry :: entries) =
      stageRemoval t entry >>= fun _ => stageDeleteFileIndexEntries t entries := by
    intro entry entries
    simp [stageDeleteFileIndexEntries, stageRemoval]
  exact StagesEntry.loop rfl hcons (fun entry => stages_liveIndexShape fun value => stages_stageIndexEntry _ _ _ _)
    entries tx

end Loops

/-! ## Files -/

/-- The per-column statistics records of a file. -/
def fileStatsRecords (t file : Nat) (entries : List FileColumnStats) : List EntityRecord :=
  entries.map fun entry => .fileColumnStats
    { dataFileId := file
      tableId := t
      columnId := entry.columnId
      columnSizeBytes := entry.columnSizeBytes
      valueCount := entry.valueCount
      nullCount := entry.nullCount
      minValue := entry.minValue
      maxValue := entry.maxValue
      containsNan := entry.containsNan
      extraStats := entry.extraStats
      variantStats := [] }

theorem putFileColumnStats_eq (t file : Nat) (entries : List FileColumnStats) (tx : Transaction) :
    putFileColumnStats t file entries tx =
      .ok () { tx with state := putAll tx.state (fileStatsRecords t file entries) } := by
  induction entries generalizing tx with
  | nil => rfl
  | cons entry entries ih =>
    simp only [putFileColumnStats, bind_eq_ok, putRecord_eq_ok]
    exact ⟨(), _, rfl, ih _⟩

/-- The statistics of a file change nothing else. -/
theorem putFileStats_eq (v : CatalogSnapshot) (t file : Nat) (entries : List FileColumnStats) :
    ∃ stats, putAll v (fileStatsRecords t file entries) = { v with fileColumnStats := stats } := by
  induction entries generalizing v with
  | nil => exact ⟨_, rfl⟩
  | cons entry entries ih => exact ih _

theorem stagedFileEntry_putFileStats (v : CatalogSnapshot) (t file rowIdStart : Nat) (entries : List FileColumnStats) :
    stagedFileEntry t rowIdStart (putAll v (fileStatsRecords t file entries)) = stagedFileEntry t rowIdStart v := by
  obtain ⟨stats, h⟩ := putFileStats_eq v t file entries
  rw [h]
  rfl

/-- The view without a data file and the delete files that target it. -/
def withoutDataFile (v : CatalogSnapshot) (t f : Nat) : CatalogSnapshot :=
  ((((v.deleteFiles.getD t ∅).values.filter (·.dataFileId == f)).map DeleteFileValue.deleteFileId).foldl
    (fun v id => v.deleteDeleteFile t id) v).deleteDataFile t f

theorem tableStats_deleteDeleteFiles (v : CatalogSnapshot) (t : Nat) (ids : List Nat) :
    (ids.foldl (fun v id => v.deleteDeleteFile t id) v).tableStats = v.tableStats := by
  induction ids generalizing v with
  | nil => rfl
  | cons id ids ih => exact ih _

theorem tableStats_withoutDataFile (v : CatalogSnapshot) (t f : Nat) :
    (withoutDataFile v t f).tableStats = v.tableStats := tableStats_deleteDeleteFiles _ _ _

theorem checkedAdd_eq_some {a b c : Nat} : checkedAdd a b = some c ↔ a + b ≤ u64Max ∧ c = a + b := by
  unfold checkedAdd
  split <;> simp [*, eq_comm]

/-- What registering a flushed file checks, in a commit at `n`; and the table's statistics and the partition that
    the file falls under. -/
structure FlushFits (v : CatalogSnapshot) (n t ceiling : Nat) (flush : FlushedDataFile) (tstat : TableStatsValue)
    (partitionId : Option Nat) : Prop where
  begun : flush.beginSnapshot < n
  ended : ∀ last, flush.partialMax = some last → flush.beginSnapshot ≤ last ∧ last < n
  fits : flush.rowIdStart + flush.file.recordCount ≤ u64Max
  below : flush.rowIdStart + flush.file.recordCount ≤ ceiling
  columns : StatsColumnsLive v t flush.file.columnStats
  partition : PartitionFits v t flush.file.partitionValues partitionId
  stats : v.tableStats[t]? = some tstat

/-- What a flushed file of a table leaves. -/
def flushedFile (tx : Transaction) (t : Nat) (flush : FlushedDataFile) (tstat : TableStatsValue)
    (partitionId : Option Nat) : Transaction :=
  { tx with
    state := putAll ((tx.state.putRecord (.tableStats { tstat with
        fileSizeBytes := saturatingAdd tstat.fileSizeBytes flush.file.fileSizeBytes })).putRecord
          (.file (dataFileRecord tx.nextFileId t flush.beginSnapshot flush.file flush.rowIdStart partitionId
            flush.partialMax)))
      (fileStatsRecords t tx.nextFileId flush.file.columnStats)
    nextFileId := tx.nextFileId + 1 }

theorem registerFlushedFile_ok_iff {t ceiling : Nat} {flush : FlushedDataFile} :
    (∃ id, registerFlushedFile t flush ceiling tx = .ok id tx') ↔ ∃ tstat partitionId,
      FlushFits tx.state tx.newSnapshotId t ceiling flush tstat partitionId ∧
        tx' = flushedFile tx t flush tstat partitionId := by
  constructor
  · rintro ⟨id, h⟩
    cases hmax : flush.partialMax with
    | none =>
      simp [registerFlushedFile, flushAllocated, hmax, putFileColumnStats_eq] at h
      obtain ⟨hbegun, stop, hstop, hle, hcolumns, partitionId, hpartition, tstat, hstats, rfl, -⟩ := h
      obtain ⟨hfits, rfl⟩ := checkedAdd_eq_some.mp hstop
      exact ⟨tstat, partitionId, ⟨hbegun, by simp [hmax], hfits, hle, hcolumns, hpartition, hstats⟩,
        by rw [flushedFile, hmax]⟩
    | some last =>
      simp [registerFlushedFile, flushAllocated, hmax, putFileColumnStats_eq] at h
      obtain ⟨hbegun, hended, stop, hstop, hle, hcolumns, partitionId, hpartition, tstat, hstats, rfl, -⟩ := h
      obtain ⟨hfits, rfl⟩ := checkedAdd_eq_some.mp hstop
      exact ⟨tstat, partitionId,
        ⟨hbegun, by simpa [hmax] using hended, hfits, hle, hcolumns, hpartition, hstats⟩, by rw [flushedFile, hmax]⟩
  · rintro ⟨tstat, partitionId, h, rfl⟩
    have hstop := checkedAdd_eq_some.mpr ⟨h.fits, rfl⟩
    cases hmax : flush.partialMax with
    | none =>
      refine ⟨tx.nextFileId, ?_⟩
      simp [registerFlushedFile, flushAllocated, hmax, putFileColumnStats_eq, flushedFile]
      exact ⟨h.begun, _, hstop, h.below, h.columns, partitionId, h.partition, tstat, h.stats, rfl⟩
    | some last =>
      refine ⟨tx.nextFileId, ?_⟩
      simp [registerFlushedFile, flushAllocated, hmax, putFileColumnStats_eq, flushedFile]
      exact ⟨h.begun, h.ended last hmax, _, hstop, h.below, h.columns, partitionId, h.partition, tstat, h.stats, rfl⟩

theorem fails_registerFlushedFile (t ceiling : Nat) (flush : FlushedDataFile) :
    Fails Idle (registerFlushedFile t flush ceiling) := by
  refine fails_after .get fun _ => fails_after (checks_require _ _) fun _ => ?_
  split
  case' h_1 => refine fails_after (checks_require _ _) fun _ => ?_
  all_goals
    exact fails_after (checks_orError _ _) fun _ => fails_after (checks_require _ _) fun _ =>
      fails_after (checks_statsColumnsLive _ _) fun _ => fails_after (checks_resolveFilePartition _ _) fun _ =>
        .step_bind Idle.trans total_allocFileId idle_allocFileId fun _ =>
          fails_check (checks_liveTableStats t) fun _ => .bind (total_putRecord _) fun _ =>
            .bind (total_putRecord _) fun _ => .bind (total_putFileColumnStats _ _ _) fun _ => .pure _

/-- The file fits the flush. -/
def Flushable (v : CatalogSnapshot) (n t ceiling : Nat) (flush : FlushedDataFile) : Prop :=
  ∃ tstat partitionId, FlushFits v n t ceiling flush tstat partitionId

/-- What registering flushed files in turn leaves. -/
inductive FlushedFiles (t ceiling : Nat) : List FlushedDataFile → Transaction → Transaction → Prop
  | nil {tx : Transaction} : FlushedFiles t ceiling [] tx tx
  | cons {flush : FlushedDataFile} {flushes : List FlushedDataFile} {tx tx' : Transaction} {tstat : TableStatsValue}
      {partitionId : Option Nat} (fits : FlushFits tx.state tx.newSnapshotId t ceiling flush tstat partitionId)
      (rest : FlushedFiles t ceiling flushes (flushedFile tx t flush tstat partitionId) tx') :
      FlushedFiles t ceiling (flush :: flushes) tx tx'

theorem registerFlushedFiles_ok {t ceiling : Nat} {flushes : List FlushedDataFile} {ids : List Nat}
    (h : registerFlushedFiles t ceiling flushes tx = .ok ids tx') : FlushedFiles t ceiling flushes tx tx' := by
  induction flushes generalizing tx ids with
  | nil =>
    simp [registerFlushedFiles] at h
    exact h.2 ▸ .nil
  | cons flush flushes ih =>
    simp only [registerFlushedFiles, bind_eq_ok, pure_eq_ok] at h
    obtain ⟨id, tx₁, hfile, ids', tx₂, hrest, -, rfl⟩ := h
    obtain ⟨tstat, partitionId, hfits, rfl⟩ := registerFlushedFile_ok_iff.mp ⟨id, hfile⟩
    exact .cons hfits (ih hrest)

/-- Whether a file fits is a matter of the live columns and the live spec, once the table has statistics. -/
theorem Flushable.congr {v w : CatalogSnapshot} {n t ceiling : Nat} {flush : FlushedDataFile}
    (h : Flushable v n t ceiling flush) (hcolumns : w.columns = v.columns) (hpartitions : w.partitions = v.partitions)
    (hstats : w.tableStats[t]?.isSome) : Flushable w n t ceiling flush := by
  obtain ⟨_, partitionId, h⟩ := h
  obtain ⟨tstat, hstats⟩ := Option.isSome_iff_exists.mp hstats
  refine ⟨tstat, partitionId, { h with columns := ?_, partition := ?_, stats := hstats }⟩
  · rw [StatsColumnsLive, hcolumns]
    exact h.columns
  · rw [PartitionFits, hpartitions]
    exact h.partition

/-- Whether a file fits is the same before and after a flushed file. -/
theorem flushable_flushedFile {t ceiling : Nat} {flush other : FlushedDataFile} {tstat : TableStatsValue}
    {partitionId : Option Nat} (h : FlushFits tx.state tx.newSnapshotId t ceiling flush tstat partitionId) :
    Flushable (flushedFile tx t flush tstat partitionId).state tx.newSnapshotId t ceiling other ↔
      Flushable tx.state tx.newSnapshotId t ceiling other := by
  obtain ⟨stats, heq⟩ := putFileStats_eq ((tx.state.putRecord (.tableStats { tstat with
    fileSizeBytes := saturatingAdd tstat.fileSizeBytes flush.file.fileSizeBytes })).putRecord
      (.file (dataFileRecord tx.nextFileId t flush.beginSnapshot flush.file flush.rowIdStart partitionId
        flush.partialMax))) t tx.nextFileId flush.file.columnStats
  rw [flushedFile, heq]
  refine ⟨fun hother => hother.congr rfl rfl (by rw [h.stats]; rfl), fun hother => hother.congr rfl rfl ?_⟩
  change ((tx.state.tableStats.insert tstat.tableId _)[t]?).isSome
  rw [ExtTreeMap.getElem?_insert]
  split
  · rfl
  · rw [h.stats]
    rfl

/-- Flushed files are refused at the first that does not fit; the files before it stay registered. -/
theorem registerFlushedFiles_error {t ceiling : Nat} {flushes : List FlushedDataFile} {e : Error}
    (h : registerFlushedFiles t ceiling flushes tx = .error e tx') :
    ∃ before bad after tx₁, flushes = before ++ bad :: after ∧ FlushedFiles t ceiling before tx tx₁ ∧
      ¬ Flushable tx.state tx.newSnapshotId t ceiling bad ∧ Idle tx₁ tx' := by
  induction flushes generalizing tx with
  | nil => simp [registerFlushedFiles] at h
  | cons flush flushes ih =>
    simp only [registerFlushedFiles, bind_eq_error, pure_ne_error, and_false, exists_false, or_false] at h
    rcases h with h | ⟨id, tx₁, hfile, h⟩
    · refine ⟨[], flush, flushes, tx, rfl, .nil, ?_, fails_registerFlushedFile _ _ _ _ _ _ h⟩
      rintro ⟨tstat, partitionId, hfits⟩
      obtain ⟨id, hok⟩ := registerFlushedFile_ok_iff.mpr ⟨tstat, partitionId, hfits, rfl⟩
      rw [hok] at h
      cases h
    · obtain ⟨tstat, partitionId, hfits, rfl⟩ := registerFlushedFile_ok_iff.mp ⟨id, hfile⟩
      obtain ⟨before, bad, after, tx₂, rfl, hbefore, hbad, hidle⟩ := ih h
      exact ⟨flush :: before, bad, after, tx₂, rfl, .cons hfits hbefore,
        fun hb => hbad ((flushable_flushedFile hfits).mpr hb), hidle⟩

/-! ## Definitions of indexes -/

/-- What creating an index checks of its definition. -/
structure IndexDefinable (v : CatalogSnapshot) (t : Nat) (index : IndexDef) (maintenance : IndexMaintenance)
    (orders : List ColumnOrder) : Prop where
  named : index.name ≠ ""
  live : v.tables[t]?.isSome
  nonempty : index.columns ≠ []
  columns : IndexableColumns v t index.columns
  free : IndexNameFree v t index.name
  upkeep : maintenance ≠ .deferred ∨ index.unique = false
  ordered : orders = [] ∨ orders.length = index.columns.length

/-- The record of a new index. -/
def newIndex (id t n : Nat) (index : IndexDef) (maintenance : IndexMaintenance) (buildState : Option String)
    (orders : List ColumnOrder) : IndexValue :=
  { indexId := id
    tableId := t
    beginSnapshot := n
    endSnapshot := none
    indexName := index.name
    columnIds := index.columns
    unique := index.unique
    columnDescending := if orders.all (·.direction == .ascending) then [] else orders.map (·.direction == .descending)
    columnNullsFirst := if orders.all (·.nulls == .last) then [] else orders.map (·.nulls == .first)
    buildState
    buildCursorFile := none
    buildCursorRowId := none
    buildCursorPosition := none
    buildDeletesScanned := none
    poisoned := none
    ducklakeIndexId := none
    deferredMaintenance := if maintenance == .deferred then some true else none }

/-- What a new definition leaves. -/
def definedIndex (tx : Transaction) (t : Nat) (index : IndexDef) (maintenance : IndexMaintenance)
    (buildState : Option String) (orders : List ColumnOrder) : Transaction :=
  { tx with
    state := tx.state.putRecord
      (.index (newIndex tx.nextCatalogId t tx.newSnapshotId index maintenance buildState orders))
    nextCatalogId := tx.nextCatalogId + 1 }

theorem insertIndexDefinition_eq_ok {t id : Nat} {index : IndexDef} {maintenance : IndexMaintenance}
    {buildState : Option String} {orders : List ColumnOrder} :
    insertIndexDefinition t index maintenance buildState orders tx = .ok id tx' ↔
      IndexDefinable tx.state t index maintenance orders ∧ id = tx.nextCatalogId ∧
        tx' = definedIndex tx t index maintenance buildState orders := by
  constructor
  · intro h
    simp [insertIndexDefinition] at h
    obtain ⟨hname, hlive, hnonempty, hcolumns, hfree, hupkeep, horders, rfl, rfl⟩ := h
    exact ⟨⟨hname, Option.isSome_iff_exists.mpr hlive, hnonempty, hcolumns, hfree, hupkeep, horders⟩, rfl,
      by simp [definedIndex, newIndex]⟩
  · rintro ⟨h, rfl, rfl⟩
    simp [insertIndexDefinition]
    exact ⟨h.named, Option.isSome_iff_exists.mp h.live, h.nonempty, h.columns, h.free, h.upkeep, h.ordered,
      by simp [definedIndex, newIndex]⟩

theorem fails_insertIndexDefinition (t : Nat) (index : IndexDef) (maintenance : IndexMaintenance)
    (buildState : Option String) (orders : List ColumnOrder) :
    Fails Idle (insertIndexDefinition t index maintenance buildState orders) :=
  fails_after (checks_nonemptyName _ _) fun _ => fails_after (checks_liveTable t) fun _ =>
    fails_after (checks_require _ _) fun _ => fails_after (checks_indexableColumns _ _) fun _ =>
      fails_after (checks_indexNameFree _ _) fun _ => fails_after (checks_require _ _) fun _ =>
        fails_check (checks_require _ _) fun _ => .bind total_allocCatalogId fun _ => .bind .get fun _ =>
          .bind (total_putRecord _) fun _ => .pure _

/-! ## Rows -/

/-- What registering a data file checks before it stages index entries. -/
structure FileFits (v : CatalogSnapshot) (t : Nat) (file : DataFile) (entries : List FileIndexEntry)
    (tstat : TableStatsValue) (partitionId : Option Nat) : Prop where
  live : v.tables[t]?.isSome
  columns : StatsColumnsLive v t file.columnStats
  supplied : liveIndexCount v t = 0 ∨ file.recordCount = 0 ∨ entries ≠ []
  inside : ∀ entry ∈ entries, entry.ordinal < file.recordCount
  partition : PartitionFits v t file.partitionValues partitionId
  stats : v.tableStats[t]? = some tstat

/-- What a registered data file leaves, its index entries apart. -/
def registeredFile (tx : Transaction) (t : Nat) (file : DataFile) (tstat : TableStatsValue)
    (partitionId : Option Nat) : Transaction :=
  { tx with
    state := putAll ((tx.state.putRecord (.tableStats { tstat with
        nextRowId := saturatingAdd tstat.nextRowId file.recordCount
        recordCount := saturatingAdd tstat.recordCount file.recordCount
        fileSizeBytes := saturatingAdd tstat.fileSizeBytes file.fileSizeBytes })).putRecord
          (.file (dataFileRecord tx.nextFileId t tx.newSnapshotId file tstat.nextRowId partitionId none)))
      (fileStatsRecords t tx.nextFileId file.columnStats)
    inheritedRowIds := tx.inheritedRowIds.insertIfNew t tstat.nextRowId
    nextFileId := tx.nextFileId + 1 }

/-- What registering a delete file checks before it stages removals. -/
structure DeleteFileFits (v : CatalogSnapshot) (t : Nat) (file : DeleteFile) (entries : List FileIndexRemoval)
    (target : DataFileValue) : Prop where
  live : v.tables[t]?.isSome
  targetLive : getNested v.dataFiles t file.dataFileId = some target
  alone : ∀ other ∈ (v.deleteFiles.getD t ∅).values, other.dataFileId ≠ file.dataFileId
  supplied : liveIndexCount v t = 0 ∨ file.deleteCount = 0 ∨ entries ≠ []
  killing : file.deleteCount ≠ 0 ∨ entries = []
  inside : ∀ start, target.rowIdStart = some start → start + target.recordCount ≤ u64Max ∧
    ∀ entry ∈ entries, start ≤ entry.rowId ∧ entry.rowId < start + target.recordCount

/-- The record of a new delete file. -/
def newDeleteFile (id t n : Nat) (file : DeleteFile) : DeleteFileValue :=
  { deleteFileId := id
    tableId := t
    beginSnapshot := n
    endSnapshot := none
    dataFileId := file.dataFileId
    path := file.path
    pathIsRelative := file.pathIsRelative
    format := file.format
    deleteCount := file.deleteCount
    fileSizeBytes := file.fileSizeBytes
    footerSize := file.footerSize
    encryptionKey := file.encryptionKey
    partialMax := none }

/-- What a registered delete file leaves, its removals apart. -/
def registeredDeleteFile (tx : Transaction) (t : Nat) (file : DeleteFile) : Transaction :=
  { tx with
    state := tx.state.putRecord (.deleteFile (newDeleteFile tx.nextFileId t tx.newSnapshotId file))
    nextFileId := tx.nextFileId + 1 }

/-- What inlining a chunk checks before it stages index entries. -/
structure ChunkFits (v : CatalogSnapshot) (t : Nat) (chunk : InlineChunk) (entries : List FileIndexEntry)
    (tstat : TableStatsValue) : Prop where
  live : v.tables[t]?.isSome
  rows : chunk.rowCount ≠ 0
  supplied : liveIndexCount v t = 0 ∨ entries ≠ []
  inside : ∀ entry ∈ entries, entry.ordinal < chunk.rowCount
  stats : v.tableStats[t]? = some tstat

/-- What an inlined chunk leaves, its index entries apart. -/
def insertedChunk (tx : Transaction) (t : Nat) (chunk : InlineChunk) (tstat : TableStatsValue) : Transaction :=
  { tx with
    state := tx.state.putRecord (.tableStats { tstat with
      nextRowId := saturatingAdd tstat.nextRowId chunk.rowCount
      recordCount := saturatingAdd tstat.recordCount chunk.rowCount })
    inlineOps := tx.inlineOps ++ [.schema t chunk.schemaVersion chunk.arrowSchema,
      .insert t chunk.schemaVersion tx.newSnapshotId (tx.chunkSeqs.getD (t, chunk.schemaVersion) 0) tstat.nextRowId
        chunk.rowCount chunk.arrowBody]
    chunkSeqs := tx.chunkSeqs.insert (t, chunk.schemaVersion) (tx.chunkSeqs.getD (t, chunk.schemaVersion) 0 + 1)
    inheritedRowIds := tx.inheritedRowIds.insertIfNew t tstat.nextRowId }

/-- What tombstoning an inlined row checks before it stages removals. -/
structure RemovalFits (v : CatalogSnapshot) (t rowId : Nat) (entries : List FileIndexRemoval) : Prop where
  live : v.tables[t]?.isSome
  supplied : liveIndexCount v t = 0 ∨ entries ≠ []
  names : ∀ entry ∈ entries, entry.rowId = rowId

/-! ## Tags -/

/-- The operation a change of tags records. -/
def tagOperation : TagTarget → Operation
  | .schema schema => .alterSchema schema
  | .table t => .alterTable t
  | .view view => .alterView view

/-- The tag target is live. -/
def TargetLive (v : CatalogSnapshot) : TagTarget → Prop
  | .schema schema => v.schemas[schema]?.isSome
  | .table t => v.tables[t]?.isSome
  | .view view => v.views[view]?.isSome

/-- A view that differs in one tag container, which stands under its own id if the one before did. -/
def Retagged (v : CatalogSnapshot) (object : Nat) (w : CatalogSnapshot) : Prop :=
  ∃ tags : ExtTreeMap Nat TagValue, w = { v with tags := tags } ∧ (∀ o : Nat, o ≠ object → tags[o]? = v.tags[o]?) ∧
    ((∀ c, v.tags[object]? = some c → c.objectId = object) →
      ∀ c : TagValue, tags[object]? = some c → c.objectId = object)

theorem Retagged.refl (v : CatalogSnapshot) (object : Nat) : Retagged v object v := ⟨v.tags, rfl, fun _ _ => rfl, id⟩

theorem Retagged.insert {v w : CatalogSnapshot} {object : Nat} (h : Retagged v object w) (container : TagValue)
    (hown : (∀ c, w.tags[object]? = some c → c.objectId = object) → container.objectId = object) :
    Retagged v object { w with tags := w.tags.insert object container } := by
  obtain ⟨tags, rfl, htags, hkeyed⟩ := h
  refine ⟨_, rfl, fun o ho => ?_, fun hv c hc => ?_⟩
  · rw [ExtTreeMap.getElem?_insert, if_neg (by simpa using Ne.symm ho)]
    exact htags o ho
  · rw [ExtTreeMap.getElem?_insert_self] at hc
    exact Option.some.inj hc ▸ hown (hkeyed hv)

theorem markTagged_eq_ok {target : TagTarget} {u : Unit} :
    markTagged target tx = .ok u tx' ↔
      TargetLive tx.state target ∧ tx' = { tx with ops := tx.ops ++ [tagOperation target] } := by
  cases target with
  | schema | view => simp [markTagged, TargetLive, tagOperation]
  | table => simp [markTagged, TargetLive, tagOperation, ← Option.isSome_iff_exists]

/-- The object has a live tag of the key. -/
def Tagged (v : CatalogSnapshot) (object : Nat) (key : String) : Prop :=
  ∃ container, v.tags[object]? = some container ∧
    ∃ entry ∈ container.entries, entry.key = key ∧ entry.endSnapshot = none

theorem endEntry_eq_none_iff {key : String} {n : Nat} {entries : List TagEntry} :
    endEntry key n entries = none ↔ ∀ entry ∈ entries, ¬ (entry.key = key ∧ entry.endSnapshot = none) := by
  induction entries with
  | nil => simp [endEntry]
  | cons entry entries ih =>
    by_cases hentry : entry.key = key ∧ entry.endSnapshot = none
    · simp [endEntry, hentry]
    · have hpassed : (entry.key == key && entry.endSnapshot.isNone) = false := by
        simpa [← Option.ne_none_iff_isSome] using hentry
      rw [endEntry, hpassed, if_neg Bool.false_ne_true, Option.map_eq_none_iff, ih, List.forall_mem_cons]
      exact ⟨fun h => ⟨hentry, h⟩, fun h => h.2⟩

/-- Ending an entry never fails. It changes the object's container only, and nothing when there is no entry. -/
theorem endLiveTag_run (object : Nat) (key : String) (tx : Transaction) :
    ¬ Tagged tx.state object key ∧ endLiveTag object key tx = .ok false tx ∨
      Tagged tx.state object key ∧
        ∃ v, Retagged tx.state object v ∧ endLiveTag object key tx = .ok true { tx with state := v } := by
  cases hcontainer : tx.state.tags[object]? with
  | none => exact .inl ⟨by simp [Tagged, hcontainer], by simp [endLiveTag, hcontainer]⟩
  | some container =>
    cases hentries : endEntry key tx.newSnapshotId container.entries with
    | none =>
      refine .inl ⟨?_, by simp [endLiveTag, hcontainer, hentries]⟩
      simpa [Tagged, hcontainer] using endEntry_eq_none_iff.mp hentries
    | some entries =>
      refine .inr ⟨?_, _, (Retagged.refl _ _).insert { container with entries } fun hown =>
        hown container hcontainer, by simp [endLiveTag, hcontainer, hentries]⟩
      by_contra hnone
      have := endEntry_eq_none_iff (n := tx.newSnapshotId).mpr fun entry hentry htag =>
        hnone ⟨container, hcontainer, entry, hentry, htag⟩
      simp [hentries] at this

theorem total_endLiveTag (object : Nat) (key : String) : Total (endLiveTag object key) := by
  intro tx e tx' h
  rcases endLiveTag_run object key tx with ⟨-, hrun⟩ | ⟨-, v, -, hrun⟩
  · rw [hrun] at h
    cases h
  · rw [hrun] at h
    cases h

theorem fails_markTagged (target : TagTarget) : Fails Idle (markTagged target) := by
  cases target with
  | schema schema => exact fails_after .get fun _ => fails_check (checks_require _ _) fun _ => total_record _
  | table t => exact fails_check (checks_liveTable _) fun _ => total_record _
  | view view => exact fails_after .get fun _ => fails_check (checks_require _ _) fun _ => total_record _

end Transaction

end Moraine
