-- SUMMARY: What a failed call leaves behind, and that a call which changes something records an operation for it.
import Moraine.Transaction.Integrity

/-!
# Failed calls and recorded operations

A closure may handle a verb's error and go on, so a call that fails should leave the transaction as it was, and the
operations a closure records should name all it has changed: conflicts are found by them alone. Most verbs check
their arguments before they change anything. Those that stage index entries or files in a loop check each one when
they come to it, after the records are put; they keep what was staged when a later one is refused. `FailsPartway`
says which calls do so.

Every call records the object whose parts it changes. Options are apart: they are committed without an operation.
-/

namespace Moraine

open OrdMap CatalogSnapshot Transaction Commands

/-! ## Objects -/

/-- The object an operation names. -/
def Operation.object : Operation → CurrentKey
  | .createSchema s _ | .dropSchema s | .alterSchema s => .entity (.schema s)
  | .createTable _ t _ _ | .alterTable t | .alterTableSorting t | .advanceIndexBuild t | .finishIndexMaintenance t
  | .dropTable t | .registerDataFile t | .registerDeleteFile t _ | .expireDataFile t | .expireDeleteFile t
  | .updateStats t | .inlineInsert t | .inlineDelete t | .flushInlinedData t => .entity (.table t)
  | .createView _ v _ _ | .alterView v | .dropView v => .entity (.view v)
  | .createMacro _ m _ _ _ | .dropMacro m _ => .entity (.macroDef m)

/-- The record belongs to the object: it is the object's own, a part of a table, or a tag or an option of the object.
    Global options belong to none. -/
def CurrentKey.PartOf (k object : CurrentKey) : Prop :=
  match k with
  | .entity (.column t _) | .entity (.partition t _) | .entity (.file t _) | .entity (.deleteFile t _)
  | .entity (.fileColumnStats t _ _) | .entity (.tableStats t) | .entity (.tableColumnStats t _)
  | .entity (.sort t _) | .entity (.mapping t _) | .entity (.index t _) => object = .entity (.table t)
  | .entity (.tag o) => object.catalogId = some o
  | .entity (.option kind id) =>
    kind = 1 ∧ object = .entity (.schema id) ∨ kind = 2 ∧ object = .entity (.table id)
  | k => object = k

def InlineStage.tableId : InlineStage → Nat
  | .schema t .. | .insert t .. | .tombstone t .. | .flush t .. => t

def Call.setsOption : Call → Bool
  | .setOption .. | .unsetOption .. => true
  | _ => false

/-- The records, index entries and inlined rows that differ are of objects that newly recorded operations name. -/
def Recorded (tx tx' : Transaction) : Prop :=
  ∃ ops entries stages, tx'.ops = tx.ops ++ ops ∧ tx'.indexEntries = tx.indexEntries ++ entries ∧
    tx'.inlineOps = tx.inlineOps ++ stages ∧
    (∀ k, tx'.state.get k ≠ tx.state.get k → ∃ op ∈ ops, k.PartOf op.object) ∧
    (∀ e ∈ entries, ∃ t, (tx'.state.get (.entity (.index t e.indexId))).isSome ∧
      ∃ op ∈ ops, op.object = .entity (.table t)) ∧
    ∀ stage ∈ stages, ∃ op ∈ ops, op.object = .entity (.table stage.tableId)

/-! ## Changes of one object -/

/-- The views differ in records of the object only. -/
def Confined (object : CurrentKey) (v w : CatalogSnapshot) : Prop := ∀ k, w.get k ≠ v.get k → k.PartOf object

section Confined

variable {object : CurrentKey} {u v w : CatalogSnapshot} {r : EntityRecord} {t : Nat}

theorem Confined.refl (object : CurrentKey) (v : CatalogSnapshot) : Confined object v v := fun _ hne => absurd rfl hne

theorem Confined.trans (h : Confined object u v) (h' : Confined object v w) : Confined object u w := by
  intro k hne
  by_cases hk : v.get k = u.get k
  · exact h' k (hk ▸ hne)
  · exact h k hk

theorem confined_putRecord (v : CatalogSnapshot) (hr : r.key.PartOf object) : Confined object v (v.putRecord r) := by
  intro k hne
  rw [get_putRecord] at hne
  split at hne
  · next hk => exact hk ▸ hr
  · exact absurd rfl hne

theorem Confined.putRecord (h : Confined object v w) (hr : r.key.PartOf object) : Confined object v (w.putRecord r) :=
  h.trans (confined_putRecord w hr)

theorem Confined.putAll (rs : List EntityRecord) (h : Confined object v w) (hrs : ∀ r ∈ rs, r.key.PartOf object) :
    Confined object v (putAll w rs) := by
  induction rs generalizing w with
  | nil => exact h
  | cons r rs ih =>
    exact ih (h.putRecord (hrs r List.mem_cons_self)) fun r' hr' => hrs r' (List.mem_cons_of_mem _ hr')

theorem confined_of_ite {D : CurrentKey → Prop} [DecidablePred D]
    (h : ∀ k, w.get k = if D k then none else v.get k) (hD : ∀ k, D k → k.PartOf object) : Confined object v w := by
  intro k hne
  rw [h] at hne
  split at hne
  · next hk => exact hD k hk
  · exact absurd rfl hne

/-- One record goes. -/
theorem confined_of_ne {k₀ : CurrentKey} (h : ∀ k, w.get k = if k = k₀ then none else v.get k)
    (hk₀ : k₀.PartOf object) : Confined object v w :=
  confined_of_ite h fun _ hk => hk ▸ hk₀

theorem confined_foldl {remove : CatalogSnapshot → Nat → CatalogSnapshot} (h : ∀ v id, Confined object v (remove v id))
    (v : CatalogSnapshot) (ids : List Nat) : Confined object v (ids.foldl remove v) := by
  induction ids generalizing v with
  | nil => exact .refl object v
  | cons id ids ih => exact (h v id).trans (ih _)

theorem confined_withoutPartition (v : CatalogSnapshot) (t : Nat) :
    Confined (.entity (.table t)) v (Call.withoutPartition v t) := by
  unfold Call.withoutPartition
  split
  · exact confined_of_ne (get_deletePartition v _ _) rfl
  · exact .refl _ v

theorem confined_withoutSort (v : CatalogSnapshot) (t : Nat) :
    Confined (.entity (.table t)) v (Call.withoutSort v t) := by
  unfold Call.withoutSort
  split
  · exact confined_of_ne (get_deleteSort v _ _) rfl
  · exact .refl _ v

theorem confined_withoutDataFile (v : CatalogSnapshot) (t f : Nat) :
    Confined (.entity (.table t)) v (withoutDataFile v t f) := by
  unfold withoutDataFile
  exact (confined_foldl (fun v id => confined_of_ne (get_deleteDeleteFile v t id) rfl) v _).trans
    (confined_of_ne (get_deleteDataFile _ t f) rfl)

theorem confined_deleteColumns (v : CatalogSnapshot) (t : Nat) (doomed : List Nat) :
    Confined (.entity (.table t)) v (doomed.foldl (fun v id => v.deleteColumn t id) v) := by
  refine confined_foldl (fun v c => confined_of_ite (get_deleteColumn v t c) fun k hk => ?_) v doomed
  rcases hk with rfl | rfl <;> rfl

theorem confined_deleteTable (v : CatalogSnapshot) (t : Nat) :
    Confined (.entity (.table t)) v (v.deleteTable t) := by
  refine confined_of_ite (get_deleteTable v t) fun k hk => ?_
  unfold CurrentKey.dropsWith at hk
  split at hk
  all_goals first
    | cases hk
    | obtain rfl := beq_iff_eq.mp hk
      first | rfl | exact .inr ⟨rfl, rfl⟩

theorem confined_retagged {o : Nat} (hobject : object.catalogId = some o) (h : Retagged v o w) :
    Confined object v w := by
  obtain ⟨tags, rfl, htags, -⟩ := h
  intro k hne
  rcases k with ⟨⟨⟩⟩ | _
  case entity.tag o' =>
    by_cases ho : o' = o
    · exact ho ▸ hobject
    · exact absurd (by simp only [CatalogSnapshot.get, htags o' ho]) hne
  all_goals exact absurd rfl hne

theorem partOf_columns {t n id order : Nat} {parent : Option Nat} {defs : List ColumnDef}
    (hr : r ∈ (columnRecords t n defs parent id order).map EntityRecord.column) :
    r.key.PartOf (.entity (.table t)) := by
  obtain ⟨c, hc, rfl⟩ := List.mem_map.mp hr
  rw [← (inTree_of_mem_columnRecords t n defs parent id order hc).table]
  rfl

theorem partOf_tree {t n id order : Nat} {parent : Option Nat} {column : ColumnDef}
    (hr : r ∈ (treeRecords t n column parent id order).map EntityRecord.column) :
    r.key.PartOf (.entity (.table t)) := by
  obtain ⟨c, hc, rfl⟩ := List.mem_map.mp hr
  rw [← (inTree_of_mem_treeRecords t n column parent id order hc).table]
  rfl

theorem partOf_fileRecords {t id : Nat} {tstat : TableStatsValue} {file : DataFileValue} {stats : List FileColumnStats}
    (hr : r ∈ fileRecords t id tstat file stats) (htstat : tstat.tableId = t) (hfile : file.tableId = t) :
    r.key.PartOf (.entity (.table t)) := by
  simp only [fileRecords, fileStatsRecords, List.mem_cons, List.mem_map] at hr
  rcases hr with rfl | rfl | ⟨entry, -, rfl⟩
  · exact htstat ▸ rfl
  · exact hfile ▸ rfl
  · rfl

theorem CatalogSnapshot.Sound.tableStats_eq (hv : v.Sound) {tstat : TableStatsValue}
    (h : v.tableStats[t]? = some tstat) :
    tstat.tableId = t := by
  have hkey := (hv _ _ (get_tableStats h)).1
  simpa [EntityRecord.key] using hkey

end Confined

/-! ## Recorded changes -/

section Recorded

variable {tx tx' : Transaction} {call : Call}

theorem recorded_with (op : Operation) {entries : List StagedIndexEntry} {stages : List InlineStage}
    (hops : tx'.ops = tx.ops ++ [op]) (hstate : Confined op.object tx.state tx'.state)
    (hentries : tx'.indexEntries = tx.indexEntries ++ entries) (hinline : tx'.inlineOps = tx.inlineOps ++ stages)
    (hindexed : ∀ e ∈ entries, ∃ t, (tx'.state.get (.entity (.index t e.indexId))).isSome ∧
      op.object = .entity (.table t))
    (hstaged : ∀ stage ∈ stages, op.object = .entity (.table stage.tableId)) : Recorded tx tx' := by
  refine ⟨[op], entries, stages, hops, hentries, hinline, fun k hne => ?_, fun e he => ?_, fun stage hstage => ?_⟩
  · exact ⟨op, List.mem_singleton_self op, hstate k hne⟩
  · obtain ⟨t, hlive, ht⟩ := hindexed e he
    exact ⟨t, hlive, op, List.mem_singleton_self op, ht⟩
  · exact ⟨op, List.mem_singleton_self op, hstaged stage hstage⟩

theorem isSome_get_putRecord {v : CatalogSnapshot} {r : EntityRecord} {k : CurrentKey} (h : (v.get k).isSome) :
    ((v.putRecord r).get k).isSome := by
  rw [get_putRecord]
  split
  · rfl
  · exact h

theorem isSome_get_putRecord_self {r : EntityRecord} (v : CatalogSnapshot) : ((v.putRecord r).get r.key).isSome := by
  rw [get_putRecord, if_pos rfl]
  rfl

/-- A change of records only. -/
theorem recorded_state (op : Operation) (hops : tx'.ops = tx.ops ++ [op])
    (hstate : Confined op.object tx.state tx'.state)
    (hentries : tx'.indexEntries = tx.indexEntries) (hinline : tx'.inlineOps = tx.inlineOps) : Recorded tx tx' :=
  recorded_with op hops hstate (hentries.trans (List.append_nil _).symm) (hinline.trans (List.append_nil _).symm)
    (List.forall_mem_nil _) (List.forall_mem_nil _)

theorem indexId_of_encodedEntry {i : Nat} {shape : IndexShape} {delete : Bool} {entry : IndexEntry}
    {e : StagedIndexEntry}
    (h : encodedEntry i shape delete entry = some e) : e.indexId = i := by
  unfold encodedEntry at h
  split at h
  · split at h
    · cases h
    · exact Option.some.inj h ▸ rfl
  · cases h

/-- The staged entries of a row are for live indexes of its table. -/
theorem index_of_stagedFileEntry {v : CatalogSnapshot} {t rowIdStart : Nat} {entry : FileIndexEntry}
    {e : StagedIndexEntry}
    (h : stagedFileEntry t rowIdStart v entry = some e) : (v.get (.entity (.index t e.indexId))).isSome := by
  obtain ⟨value, hlive, h⟩ := Option.bind_eq_some_iff.mp h
  obtain ⟨rowId, -, h⟩ := Option.bind_eq_some_iff.mp h
  rw [indexId_of_encodedEntry h, get_index hlive]
  rfl

theorem index_of_stagedRemoval {v : CatalogSnapshot} {t : Nat} {entry : FileIndexRemoval} {e : StagedIndexEntry}
    (h : stagedRemoval t v entry = some e) : (v.get (.entity (.index t e.indexId))).isSome := by
  obtain ⟨value, hlive, h⟩ := Option.bind_eq_some_iff.mp h
  rw [indexId_of_encodedEntry h, get_index hlive]
  rfl

theorem confined_flushed {t ceiling : Nat} {flushes : List FlushedDataFile} (h : FlushedFiles t ceiling flushes tx tx')
    (hv : tx.state.Sound) : Confined (.entity (.table t)) tx.state tx'.state ∧ tx'.ops = tx.ops ∧
      tx'.indexEntries = tx.indexEntries ∧ tx'.inlineOps = tx.inlineOps := by
  induction h with
  | nil => exact ⟨.refl _ _, rfl, rfl, rfl⟩
  | @cons flush flushes tx tx' tstat partitionId fits rest ih =>
    obtain ⟨hrest, hops, hentries, hinline⟩ := ih (sound_flushedFile hv _ _ _)
    refine ⟨.trans ?_ hrest, hops, hentries, hinline⟩
    refine Confined.putAll (fileRecords t tx.nextFileId _ _ flush.file.columnStats) (.refl _ _) fun r hr => ?_
    have htstat := hv.tableStats_eq fits.stats
    exact partOf_fileRecords hr htstat rfl

theorem recorded_of_effect (heffect : Call.Effect tx call tx') (hv : tx.state.Sound)
    (hoption : call.setsOption = false) :
    Recorded tx tx' := by
  cases heffect with
  | createSchema id => exact recorded_state _ rfl (confined_putRecord (r := .schema _) _ (id ▸ rfl)) rfl rfl
  | @dropSchema schema =>
    refine recorded_state (.dropSchema schema) rfl (confined_of_ite (get_deleteSchema _ _) fun k hk => ?_) rfl rfl
    rcases hk with rfl | rfl
    · rfl
    · exact .inl ⟨rfl, rfl⟩
  | @createTable schema name uuid columns schemaRec value live free distinct id =>
    refine recorded_state _ rfl (.putRecord (.putAll _ (confined_putRecord (r := .table value) _ (id ▸ rfl)) ?_) rfl)
      rfl rfl
    exact fun r hr => partOf_columns hr
  | renameTable live | setTableSchema live =>
    have hkey := (hv _ _ (get_table live)).1
    exact recorded_state (.alterTable _) rfl (confined_putRecord (r := .table _) _ (hkey ▸ rfl)) rfl rfl
  | dropTable => exact recorded_state _ rfl (confined_deleteTable _ _) rfl rfl
  | addColumn live =>
    have hkey := (hv _ _ (get_table live)).1
    exact recorded_state (.alterTable _) rfl
      (.putRecord (.putAll _ (.refl _ _) fun r hr => partOf_tree hr) (r := .table _) (hkey ▸ rfl)) rfl rfl
  | renameColumn live | alterColumn live =>
    have hkey := (hv _ _ (get_column live)).1
    exact recorded_state (.alterTable _) rfl (confined_putRecord (r := .column _) _ (hkey ▸ rfl)) rfl rfl
  | dropColumn => exact recorded_state (.alterTable _) rfl (confined_deleteColumns _ _ _) rfl rfl
  | setPartitioning _ _ _ table =>
    exact recorded_state (.alterTable _) rfl
      ((confined_withoutPartition _ _).putRecord (r := .partition _) (table ▸ rfl)) rfl rfl
  | clearPartitioning => exact recorded_state (.alterTable _) rfl (confined_withoutPartition _ _) rfl rfl
  | setSorting _ _ table =>
    exact recorded_state (.alterTableSorting _) rfl
      ((confined_withoutSort _ _).putRecord (r := .sort _) (table ▸ rfl)) rfl rfl
  | clearSorting => exact recorded_state (.alterTableSorting _) rfl (confined_withoutSort _ _) rfl rfl
  | @createIndex t _ _ _ _ staged | @createIndexOrderedWithMaintenance t _ _ _ _ _ _ staged =>
    refine recorded_with (.alterTable t) rfl (confined_putRecord (r := .index _) _ rfl) rfl
      (List.append_nil _).symm (fun e he => ?_) (List.forall_mem_nil _)
    obtain ⟨entry, -, hentry⟩ := (mapM_eq_some staged).2 e he
    refine ⟨t, ?_, rfl⟩
    rw [indexId_of_encodedEntry hentry]
    exact isSome_get_putRecord_self (r := .index _) _
  | createIndexStagedOrderedWithMaintenance =>
    exact recorded_state (.alterTable _) rfl (confined_putRecord (r := .index _) _ rfl) rfl rfl
  | dropIndex => exact recorded_state (.alterTable _) rfl (confined_of_ne (get_deleteIndex _ _ _) rfl) rfl rfl
  | @buildIndexSourceStep i t batch isFinal source value es found _ staged =>
    have hlive := get_index (findIndex_some found)
    obtain ⟨hid, htable, -⟩ := advanceBuild_identity value batch isFinal source tx.newSnapshotId
    have hkey : EntityRecord.key (.index (advanceBuild value batch isFinal source tx.newSnapshotId)) =
        .entity (.index t i) := by
      rw [EntityRecord.key, hid, htable]
      exact (hv _ _ hlive).1
    have hobject : (Call.buildOperation t value isFinal).object = .entity (.table t) := by
      unfold Call.buildOperation
      split
      · split <;> rfl
      · rfl
    refine recorded_with (Call.buildOperation t value isFinal) rfl
      (hobject ▸ confined_putRecord _ (hkey ▸ rfl)) rfl (List.append_nil _).symm (fun e he => ?_)
      (List.forall_mem_nil _)
    obtain ⟨entry, -, hentry⟩ := (mapM_eq_some staged).2 e he
    refine ⟨t, ?_, hobject⟩
    rw [indexId_of_encodedEntry hentry, ← hkey]
    exact isSome_get_putRecord_self (r := .index _) _
  | @registerDataFile t file entries tstat partitionId es fits staged =>
    have hstate := registeredFile_state tx t file tstat partitionId
    have htstat := hv.tableStats_eq fits.stats
    refine recorded_with (.registerDataFile t) rfl
      (hstate ▸ Confined.putAll _ (.refl _ _) fun r hr => partOf_fileRecords hr htstat rfl) rfl
      (List.append_nil _).symm (fun e he => ?_) (List.forall_mem_nil _)
    obtain ⟨entry, -, hentry⟩ := (mapM_eq_some staged).2 e he
    exact ⟨t, hstate ▸ isSome_putAll (index_of_stagedFileEntry hentry), rfl⟩
  | expireDataFile live stats =>
    exact recorded_state (.expireDataFile _) rfl
      ((confined_withoutDataFile _ _ _).putRecord (r := .tableStats _) (hv.tableStats_eq stats ▸ rfl)) rfl rfl
  | @registerDeleteFile t file entries target es fits staged =>
    refine recorded_with (.registerDeleteFile t _) rfl (confined_putRecord (r := .deleteFile _) _ rfl) rfl
      (List.append_nil _).symm (fun e he => ?_) (List.forall_mem_nil _)
    obtain ⟨entry, -, hentry⟩ := (mapM_eq_some staged).2 e he
    exact ⟨t, isSome_get_putRecord (r := .deleteFile _) (index_of_stagedRemoval hentry), rfl⟩
  | expireDeleteFile =>
    exact recorded_state (.expireDeleteFile _) rfl (confined_of_ne (get_deleteDeleteFile _ _ _) rfl) rfl rfl
  | updateTableStats _ stats =>
    exact recorded_state (.updateStats _) rfl
      (confined_putRecord (r := .tableStats _) _ (hv.tableStats_eq stats ▸ rfl)) rfl rfl
  | updateColumnStats _ table =>
    exact recorded_state (.updateStats _) rfl (confined_putRecord (r := .tableColumnStats _) _ (table ▸ rfl)) rfl rfl
  | createView _ _ id => exact recorded_state _ rfl (confined_putRecord (r := .view _) _ (id ▸ rfl)) rfl rfl
  | alterView live =>
    have hkey := (hv _ _ (get_view live)).1
    exact recorded_state (.alterView _) rfl (confined_putRecord (r := .view _) _ (hkey ▸ rfl)) rfl rfl
  | dropView => exact recorded_state (.dropView _) rfl (confined_of_ne (get_deleteView _ _) rfl) rfl rfl
  | createMacro _ _ _ id => exact recorded_state _ rfl (confined_putRecord (r := .macroDef _) _ (id ▸ rfl)) rfl rfl
  | dropMacro => exact recorded_state (.dropMacro _ _) rfl (confined_of_ne (get_deleteMacro _ _) rfl) rfl rfl
  | setOption | unsetOption => cases hoption
  | @setTag target _ _ _ _ retagged | @removeTag target _ _ _ retagged =>
    refine recorded_state (tagOperation target) rfl (confined_retagged ?_ retagged) rfl rfl
    cases target <;> rfl
  | @inlineInsert t chunk entries tstat es fits staged =>
    refine recorded_with (.inlineInsert t) rfl
      (confined_putRecord (r := .tableStats _) _ (hv.tableStats_eq fits.stats ▸ rfl)) rfl rfl (fun e he => ?_) ?_
    · obtain ⟨entry, -, hentry⟩ := (mapM_eq_some staged).2 e he
      exact ⟨t, isSome_get_putRecord (r := .tableStats _) (index_of_stagedFileEntry hentry), rfl⟩
    · simp [InlineStage.tableId, Operation.object]
  | @inlineDelete t rowId entries es fits staged =>
    refine recorded_with (.inlineDelete t) rfl (.refl _ _) rfl rfl (fun e he => ?_) ?_
    · obtain ⟨entry, -, hentry⟩ := (mapM_eq_some staged).2 e he
      exact ⟨t, index_of_stagedRemoval hentry, rfl⟩
    · simp [InlineStage.tableId, Operation.object]
  | @flushInlinedData t schemaVersion _ _ _ _ _ files =>
    obtain ⟨hstate, hops, hentries, hinline⟩ := confined_flushed files hv
    refine recorded_with (.flushInlinedData t) (congrArg (· ++ _) hops) hstate
      (hentries.trans (List.append_nil _).symm) (congrArg (· ++ _) hinline) (List.forall_mem_nil _) ?_
    simp [InlineStage.tableId, Operation.object]

end Recorded

/-! ## Options -/

/-- The scope is global, or its object is live. -/
def ScopeLive (v : CatalogSnapshot) : OptionScope → Prop
  | .global => True
  | .schema s => v.schemas[s]?.isSome
  | .table t => v.tables[t]?.isSome

/-- The option is fixed when the catalog is created. -/
def Reserved (scope : OptionScope) (key : String) : Prop := scope = .global ∧ key = "encrypted"

def storedOption (v : CatalogSnapshot) (scope : OptionScope) (key : String) : Option String :=
  v.options[scope.keyComponents]?.bind fun old => old.options[key]?

/-- The call changes what is stored under an option. -/
def Call.ChangesOption (v : CatalogSnapshot) : Call → Prop
  | .setOption scope key text =>
    key ≠ "" ∧ ScopeLive v scope ∧ ¬ Reserved scope key ∧ storedOption v scope key ≠ some text
  | .unsetOption scope key => ScopeLive v scope ∧ ¬ Reserved scope key ∧ storedOption v scope key ≠ none
  | _ => False

section Options

variable {tx tx' : Transaction} {scope : OptionScope} {key text : String} {u : Unit}

theorem liveScope_eq_ok : liveScope scope tx = .ok u tx' ↔ ScopeLive tx.state scope ∧ tx' = tx := by
  cases scope with
  | global => simp [liveScope, ScopeLive]
  | schema s | table t => simp [liveScope, ScopeLive, and_comm]

theorem reservedOption_eq_ok : reservedOption scope key tx = .ok u tx' ↔ ¬ Reserved scope key ∧ tx' = tx := by
  rw [reservedOption, require_eq_ok]
  simp [Reserved, imp_iff_not_or]

/-- Without an operation no record may differ. -/
theorem recorded_iff_of_quiet (tx tx' : Transaction) (hops : tx'.ops = tx.ops)
    (hentries : tx'.indexEntries = tx.indexEntries)
    (hinline : tx'.inlineOps = tx.inlineOps) : Recorded tx tx' ↔ tx'.state.get = tx.state.get := by
  constructor
  · rintro ⟨ops, _, _, hops', -, -, hrecords, -⟩
    obtain rfl : ops = [] := by simpa [hops] using hops'
    funext k
    by_contra hne
    obtain ⟨op, hop, -⟩ := hrecords k hne
    cases hop
  · intro hget
    refine ⟨[], [], [], by simp [hops], by simp [hentries], by simp [hinline], fun k hne => ?_, by simp, by simp⟩
    exact absurd (congrFun hget k) hne

theorem get_options_eq_iff {v : CatalogSnapshot} {options : Std.ExtTreeMap (Nat × Nat) OptionScopeValue} :
    CatalogSnapshot.get { v with options := options } = v.get ↔
      ∀ components : Nat × Nat, options[components]? = v.options[components]? := by
  constructor
  · intro h components
    have hcomponents := congrFun h (.entity (.option components.1 components.2))
    refine Option.map_injective (fun a b hab => ?_) hcomponents
    cases hab
    rfl
  · intro h
    funext k
    rcases k with (_ | _ | _ | _ | _ | _ | _ | _ | _ | _ | _ | ⟨kind, id⟩ | _ | _ | _ | _) | _
    case entity.option => simp only [CatalogSnapshot.get, h]
    all_goals rfl

/-- The options without one, and without its scope when none is left. -/
def withoutOption (v : CatalogSnapshot) (scope : OptionScope) (key : String) :
    Std.ExtTreeMap (Nat × Nat) OptionScopeValue :=
  match v.options[scope.keyComponents]? with
  | none => v.options
  | some old =>
    if key ∈ old.options then
      if (old.options.erase key).isEmpty then v.options.erase scope.keyComponents
      else v.options.insert scope.keyComponents ⟨old.options.erase key⟩
    else v.options

/-- A call that passes its checks and changes options only. -/
theorem recorded_options_iff (call : Call) (checks : Prop) (options : Std.ExtTreeMap (Nat × Nat) OptionScopeValue)
    (hrun : ∀ tx', call.run tx = .ok () tx' ↔
      checks ∧ tx' = { tx with state := { tx.state with options := options } }) :
    (∀ tx', call.run tx = .ok () tx' → Recorded tx tx') ↔
      (checks → ∀ components : Nat × Nat, options[components]? = tx.state.options[components]?) := by
  have hrecorded : Recorded tx { tx with state := { tx.state with options := options } } ↔
      ∀ components : Nat × Nat, options[components]? = tx.state.options[components]? :=
    Iff.trans (recorded_iff_of_quiet tx { tx with state := { tx.state with options := options } } rfl rfl rfl)
      get_options_eq_iff
  simp only [hrun, ← hrecorded]
  exact ⟨fun h hchecks => h _ ⟨hchecks, rfl⟩, fun h tx' htx' => htx'.2 ▸ h htx'.1⟩

theorem recorded_setOption_iff : (∀ tx', (Call.setOption scope key text).run tx = .ok () tx' → Recorded tx tx') ↔
    ¬ (Call.setOption scope key text).ChangesOption tx.state := by
  rw [recorded_options_iff _ (key ≠ "" ∧ ScopeLive tx.state scope ∧ ¬ Reserved scope key)
    (tx.state.options.insert scope.keyComponents
      ⟨((tx.state.options[scope.keyComponents]?).getD ⟨∅⟩).options.insert key text⟩)
    fun tx' => by simp [Call.run, setOption, liveScope_eq_ok, reservedOption_eq_ok, and_assoc, setOptionRecord]]
  have hsame : (∀ components : Nat × Nat, (tx.state.options.insert scope.keyComponents
      ⟨((tx.state.options[scope.keyComponents]?).getD ⟨∅⟩).options.insert key text⟩)[components]? =
        tx.state.options[components]?) ↔ storedOption tx.state scope key = some text := by
    constructor
    · intro h
      rw [storedOption, ← h, Std.ExtTreeMap.getElem?_insert_self]
      exact Std.ExtTreeMap.getElem?_insert_self
    · intro h components
      obtain ⟨old, hold, htext⟩ := Option.bind_eq_some_iff.mp h
      rw [hold, Option.getD_some, insert_of_getElem? htext, insert_of_getElem? hold]
  rw [hsame, Call.ChangesOption]
  tauto

theorem unsetOption_eq_ok : unsetOption scope key tx = .ok u tx' ↔
    (ScopeLive tx.state scope ∧ ¬ Reserved scope key) ∧
      tx' = { tx with state := { tx.state with options := withoutOption tx.state scope key } } := by
  simp only [unsetOption, bind_eq_ok, liveScope_eq_ok, reservedOption_eq_ok, get_eq_ok, withoutOption]
  cases hold : tx.state.options[scope.keyComponents]? with
  | none => simp [hold, and_assoc]
  | some old =>
    by_cases hkey : key ∈ old.options
    · by_cases hempty : (old.options.erase key).isEmpty = true
      · simp only [if_pos hkey, if_pos hempty]
        simp [hold, hkey, hempty, and_assoc, removeOptionRecord]
      · simp only [if_pos hkey, if_neg hempty]
        simp [hold, hkey, hempty, and_assoc, setOptionRecord]
    · simp [hold, hkey, and_assoc]

theorem withoutOption_same_iff {v : CatalogSnapshot} :
    (∀ components : Nat × Nat, (withoutOption v scope key)[components]? = v.options[components]?) ↔
      storedOption v scope key = none := by
  unfold withoutOption storedOption
  cases hold : v.options[scope.keyComponents]? with
  | none => simp
  | some old =>
    by_cases hkey : key ∈ old.options
    · have hsome : old.options[key]? ≠ none := (getElem?_ne_none_iff _ _).mpr hkey
      simp only [if_pos hkey, Option.bind_some, hsome, iff_false, not_forall]
      refine ⟨scope.keyComponents, ?_⟩
      split
      · simp [hold]
      · rw [Std.ExtTreeMap.getElem?_insert_self, hold]
        intro heq
        have := congrArg (fun value : Option OptionScopeValue => value.bind fun old => old.options[key]?) heq
        simp at this
        exact this hkey
    · simp [hkey]

theorem recorded_unsetOption_iff : (∀ tx', (Call.unsetOption scope key).run tx = .ok () tx' → Recorded tx tx') ↔
    ¬ (Call.unsetOption scope key).ChangesOption tx.state := by
  rw [recorded_options_iff (.unsetOption scope key) _ _ fun tx' => unsetOption_eq_ok, withoutOption_same_iff,
    Call.ChangesOption]
  tauto

end Options

/-! ## Failures partway -/

/-- The call passes the checks it makes first, and refuses an argument that it comes to later. -/
def Call.FailsPartway (tx : Transaction) : Call → Prop
  | .createIndex t index backfill => IndexDefinable tx.state t index .synchronous [] ∧
    ∃ entry ∈ backfill, encodedEntry tx.nextCatalogId ⟨index.unique, index.columns.length, [], false⟩ false entry = none
  | .createIndexOrderedWithMaintenance t index orders maintenance backfill =>
    IndexDefinable tx.state t index maintenance orders ∧ ∃ entry ∈ backfill,
      encodedEntry tx.nextCatalogId ⟨index.unique, index.columns.length, orders, false⟩ false entry = none
  | .buildIndexSourceStep i batch _ _ => ∃ t value first rest, findIndex tx.state i = some (t, value) ∧
    (value.buildState = some "building" ∨ value.buildState = some "maintaining") ∧ batch = first :: rest ∧
    (encodedEntry i { shapeOf value with building := true } false first).isSome ∧
    ∃ entry ∈ rest, encodedEntry i { shapeOf value with building := true } false entry = none
  | .registerDataFile t file entries => ∃ tstat partitionId, FileFits tx.state t file entries tstat partitionId ∧
    ∃ entry ∈ entries, stagedFileEntry t tstat.nextRowId tx.state entry = none
  | .expireDataFile t f => (getNested tx.state.dataFiles t f).isSome ∧ tx.state.tableStats[t]? = none
  | .registerDeleteFile t file entries => ∃ target, DeleteFileFits tx.state t file entries target ∧
    ∃ entry ∈ entries, stagedRemoval t tx.state entry = none
  | .removeTag target key => TargetLive tx.state target ∧ ¬ Tagged tx.state target.objectId key
  | .inlineInsert t chunk entries => ∃ tstat, ChunkFits tx.state t chunk entries tstat ∧
    ∃ entry ∈ entries, stagedFileEntry t tstat.nextRowId tx.state entry = none
  | .inlineDelete t rowId entries => RemovalFits tx.state t rowId entries ∧
    ∃ entry ∈ entries, stagedRemoval t tx.state entry = none
  | .flushInlinedData t _ flushed => tx.state.tables[t]?.isSome ∧ ∃ tstat first rest,
    tx.state.tableStats[t]? = some tstat ∧ flushed = first :: rest ∧
    Flushable tx.state tx.newSnapshotId t (tx.inheritedRowIds.getD t tstat.nextRowId) first ∧
    ∃ bad ∈ rest, ¬ Flushable tx.state tx.newSnapshotId t (tx.inheritedRowIds.getD t tstat.nextRowId) bad
  | _ => False

/-- The working state, what is staged and the recorded operations are the same. -/
structure Unchanged (tx tx' : Transaction) : Prop where
  state : tx'.state = tx.state
  indexEntries : tx'.indexEntries = tx.indexEntries
  inlineOps : tx'.inlineOps = tx.inlineOps
  ops : tx'.ops = tx.ops

/-! ## New ids -/

/-- The counters are above all ids in use. -/
structure Fresh (a : Reading) : Prop where
  catalogId : ∀ k id, k.catalogId = some id → (a.records k).isSome → id < a.nextCatalogId
  fileId : ∀ k id, k.fileId = some id → (a.records k).isSome → id < a.nextFileId

section Fresh

variable {tx : Transaction}

theorem Fresh.catalogId_new (h : Fresh tx.reading) (k : CurrentKey) (hk : k.catalogId = some tx.nextCatalogId) :
    tx.state.get k = none := by
  by_contra hne
  exact Nat.lt_irrefl _ (h.catalogId k _ hk (Option.isSome_iff_ne_none.mpr hne))

theorem Fresh.fileId_new (h : Fresh tx.reading) (k : CurrentKey) (hk : k.fileId = some tx.nextFileId) :
    tx.state.get k = none := by
  by_contra hne
  exact Nat.lt_irrefl _ (h.fileId k _ hk (Option.isSome_iff_ne_none.mpr hne))

theorem blind_fresh : Blind Fresh := by
  intro a b hpasses h
  obtain ⟨poisoned, hrecords⟩ := hpasses.records
  have hlive : ∀ k, k.catalogId ≠ none ∨ k.fileId ≠ none → (b.records k).isSome → (a.records k).isSome := by
    intro k hk hsome
    cases hsettled : k.settled with
    | true => simpa [hrecords k hsettled] using hsome
    | false =>
      unfold CurrentKey.settled at hsettled
      split at hsettled
      · simp [CurrentKey.catalogId, CurrentKey.fileId] at hk
      · simp [CurrentKey.catalogId, CurrentKey.fileId] at hk
      · exact hpasses.fileStats _ _ _ hsome
      · cases hsettled
  constructor
  · intro k id hk hsome
    rw [hpasses.catalogIds]
    exact h.catalogId k id hk (hlive k (.inl (by simp [hk])) hsome)
  · intro k id hk hsome
    rw [hpasses.fileIds]
    exact h.fileId k id hk (hlive k (.inr (by simp [hk])) hsome)

theorem fresh_after (hv : tx.state.Sound) (h : Fresh tx.reading) (call : Call) : Fresh (call.after tx).reading := by
  have hevolves := evolves_after call hv
  constructor
  · intro k id hk hsome
    obtain ⟨r, hr⟩ := Option.isSome_iff_exists.mp hsome
    rcases hevolves.records k r hr with hold | ⟨hkey, hwritten⟩
    · exact (h.catalogId k id hk (Option.isSome_iff_exists.mpr ⟨r, hold⟩)).trans_le hevolves.catalogIds
    · rcases hwritten.catalogId id (hkey ▸ hk) with hold | hnew
      · exact (h.catalogId k id hk (hkey ▸ hold)).trans_le hevolves.catalogIds
      · exact hnew.2
  · intro k id hk hsome
    obtain ⟨r, hr⟩ := Option.isSome_iff_exists.mp hsome
    rcases hevolves.records k r hr with hold | ⟨hkey, hwritten⟩
    · exact (h.fileId k id hk (Option.isSome_iff_exists.mpr ⟨r, hold⟩)).trans_le hevolves.fileIds
    · rcases hwritten.fileId id (hkey ▸ hk) with hold | hnew
      · exact (h.fileId k id hk (hkey ▸ hold)).trans_le hevolves.fileIds
      · exact hnew.2

theorem fresh_start (micros : Int) (uuid : String) (encrypted : Bool) (dataPath : Option String) :
    Fresh (Session.start micros uuid encrypted dataPath).tx.reading := by
  have hcounters := Session.start_counters micros uuid encrypted dataPath
  constructor
  · intro k id hk hsome
    obtain ⟨r, hr⟩ := Option.isSome_iff_exists.mp hsome
    rcases Session.start_records_cases micros uuid encrypted dataPath hr with ⟨rfl, -⟩ | ⟨rfl, -⟩
    · cases hk
      exact Nat.lt_of_lt_of_eq Nat.one_pos hcounters.1.symm
    · cases hk
  · intro k id hk hsome
    obtain ⟨r, hr⟩ := Option.isSome_iff_exists.mp hsome
    rcases Session.start_records_cases micros uuid encrypted dataPath hr with ⟨rfl, -⟩ | ⟨rfl, -⟩ <;> cases hk

end Fresh

/-- In every run the counters are above all ids in use, in the closure, the batch and the landed store, and what a call
    brings to life has an id that they had not yet handed out. -/
theorem ids_handed_out_once (changes : List Operation → String × List Nat) (micros : Int) (uuid : String)
    (encrypted : Bool) (dataPath : Option String) (events : List SessionEvent) :
    Runs.Always (Session.step changes) (fun s => s.Holds Fresh ∧ ∀ (call : Call) (k : CurrentKey),
      ((call.after s.tx).state.get k).isSome → s.tx.state.get k = none →
        (∀ id, k.catalogId = some id → s.tx.nextCatalogId ≤ id) ∧ ∀ id, k.fileId = some id → s.tx.nextFileId ≤ id)
      (Session.start micros uuid encrypted dataPath) events := by
  refine (Session.always_holds blind_fresh (fun tx call hv h => fresh_after hv h call) micros uuid encrypted dataPath
    (fresh_start micros uuid encrypted dataPath) events).mono fun {s} ⟨hinv, hfresh⟩ =>
      ⟨hfresh, fun call k hlive hnew => ?_⟩
  have hv := hinv.grown.sound
  obtain ⟨r, hr⟩ := Option.isSome_iff_exists.mp hlive
  rcases (evolves_after call hv).records _ r hr with hold | ⟨rfl, hwritten⟩
  · exact absurd hold (by simp [hnew])
  · exact ⟨fun id hid => (hwritten.catalogId id hid).elim (fun h => absurd h (by simp [hnew])) And.left,
      fun id hid => (hwritten.fileId id hid).elim (fun h => absurd h (by simp [hnew])) And.left⟩

section Failures

variable {tx tx' : Transaction} {call : Call} {e : Error} {α β : Type}

theorem Unchanged.of_idle (h : Idle tx tx') : Unchanged tx tx' := by
  obtain ⟨next, -, rfl⟩ := h
  exact ⟨rfl, rfl, rfl, rfl⟩

theorem not_refused {f : α → Option β} {as : List α} {bs : List β} (h : as.mapM f = some bs) :
    ¬ ∃ a ∈ as, f a = none := by
  rintro ⟨a, ha, hrefused⟩
  obtain ⟨b, -, hb⟩ := (mapM_eq_some h).1 a ha
  rw [hrefused] at hb
  cases hb

theorem flushable_of_flushedFiles {t ceiling : Nat} {flushes : List FlushedDataFile}
    (h : FlushedFiles t ceiling flushes tx tx') :
    ∀ flush ∈ flushes, Flushable tx.state tx.newSnapshotId t ceiling flush := by
  induction h with
  | nil => exact List.forall_mem_nil _
  | cons fits rest ih =>
    refine List.forall_mem_cons.mpr ⟨⟨_, _, fits⟩, fun flush hflush => ?_⟩
    exact (flushable_flushedFile fits).mp (ih flush hflush)

/-- A call that returns has refused nothing. -/
theorem not_failsPartway_of_ok (h : call.run tx = .ok () tx') : ¬ call.FailsPartway tx := by
  cases Call.effect_of_run call h with
  | createIndex _ staged | createIndexOrderedWithMaintenance _ staged => exact fun hfails => not_refused staged hfails.2
  | buildIndexSourceStep found _ staged =>
    rintro ⟨t, value, first, rest, hfound, -, rfl, -, entry, hentry, hrefused⟩
    rw [found] at hfound
    cases hfound
    exact not_refused staged ⟨entry, List.mem_cons_of_mem _ hentry, hrefused⟩
  | registerDataFile fits staged =>
    rintro ⟨tstat, partitionId, hfits, hrefused⟩
    obtain rfl := Option.some.inj (fits.stats.symm.trans hfits.stats)
    exact not_refused staged hrefused
  | expireDataFile _ stats =>
    rintro ⟨-, hnone⟩
    rw [stats] at hnone
    cases hnone
  | registerDeleteFile _ staged =>
    rintro ⟨target, -, hrefused⟩
    exact not_refused staged hrefused
  | inlineInsert fits staged =>
    rintro ⟨tstat, hfits, hrefused⟩
    obtain rfl := Option.some.inj (fits.stats.symm.trans hfits.stats)
    exact not_refused staged hrefused
  | inlineDelete _ staged => exact fun hfails => not_refused staged hfails.2
  | @removeTag target key =>
    rintro ⟨hlive, habsent⟩
    simp only [Call.run, Transaction.removeTag, bind_eq_ok, markTagged_eq_ok, require_eq_ok] at h
    obtain ⟨_, _, ⟨-, rfl⟩, ended, tx₁, hended, rfl, -⟩ := h
    rcases endLiveTag_run target.objectId key { tx with ops := tx.ops ++ [tagOperation target] } with
      ⟨-, hrun⟩ | ⟨htagged, -⟩
    · rw [hrun] at hended
      cases hended
    · exact habsent htagged
  | flushInlinedData live stats files =>
    rintro ⟨-, tstat, first, rest, hstats, rfl, -, bad, hbad, hrefused⟩
    obtain rfl := Option.some.inj (stats.symm.trans hstats)
    exact hrefused (flushable_of_flushedFiles files bad (List.mem_cons_of_mem _ hbad))
  | _ => exact id

/-- What a call that fails partway has refused. -/
theorem failsPartway_of_stopped (h : Call.Partial tx call tx') : call.FailsPartway tx := by
  cases h with
  | createIndex defined stopped | createIndexOrderedWithMaintenance defined stopped => exact ⟨defined, stopped.refused⟩
  | buildIndexSourceStep found building stopped some =>
    obtain ⟨before, bad, after, rfl, hbefore, hbad⟩ := stopped
    cases before with
    | nil =>
      cases hbefore
      exact absurd rfl some
    | cons first before =>
      refine ⟨_, _, first, before ++ bad :: after, found, building, rfl, ?_, bad, by simp, hbad⟩
      obtain ⟨e, -, he⟩ := (mapM_eq_some hbefore).1 first List.mem_cons_self
      rw [he]
      rfl
  | registerDataFile fits stopped => exact ⟨_, _, fits, stopped.refused⟩
  | expireDataFile live stats => exact ⟨live, stats⟩
  | registerDeleteFile fits stopped => exact ⟨_, fits, stopped.refused⟩
  | removeTag live absent => exact ⟨live, absent⟩
  | inlineInsert fits stopped => exact ⟨_, fits, stopped.refused⟩
  | inlineDelete fits stopped => exact ⟨fits, stopped.refused⟩
  | @flushInlinedData t schemaVersion before after bad tstat tx₁ tx' live stats some files refused idle =>
    cases before with
    | nil => exact absurd rfl some
    | cons first before =>
      refine ⟨live, tstat, first, before ++ bad :: after, stats, rfl, ?_, bad, by simp, refused⟩
      exact flushable_of_flushedFiles files first List.mem_cons_self

open Call in
/-- A call that fails partway has put records or staged rows and entries before it comes to what it refuses. -/
theorem partial_of_failsPartway (hfails : call.FailsPartway tx) (h : call.run tx = .error e tx') :
    Call.Partial tx call tx' := by
  cases call with
  | createIndex => exact partial_createIndex hfails.1 h
  | createIndexOrderedWithMaintenance => exact partial_createIndexOrderedWithMaintenance hfails.1 h
  | buildIndexSourceStep =>
    obtain ⟨t, value, first, rest, hfound, hbuilding, rfl, hfirst, -⟩ := hfails
    obtain ⟨es, hstopped, rfl⟩ := stopped_buildIndexSourceStep hfound hbuilding h
    refine .buildIndexSourceStep hfound hbuilding hstopped ?_
    rintro rfl
    -- No entry is staged only if the first one is refused.
    obtain ⟨before, bad, after, hbatch, hbefore, hbad⟩ := hstopped
    cases before with
    | nil =>
      obtain ⟨rfl, -⟩ := List.cons.inj hbatch
      rw [hbad] at hfirst
      cases hfirst
    | cons a before =>
      obtain ⟨e, he, -⟩ := (mapM_eq_some hbefore).1 a List.mem_cons_self
      cases he
  | registerDataFile =>
    obtain ⟨tstat, partitionId, hfits, -⟩ := hfails
    exact partial_registerDataFile hfits h
  | expireDataFile => exact partial_expireDataFile hfails.1 hfails.2 h
  | registerDeleteFile =>
    obtain ⟨target, hfits, -⟩ := hfails
    exact partial_registerDeleteFile hfits h
  | removeTag => exact partial_removeTag hfails.1 h
  | inlineInsert =>
    obtain ⟨tstat, hfits, -⟩ := hfails
    exact partial_inlineInsert hfits h
  | inlineDelete => exact partial_inlineDelete hfails.1 h
  | flushInlinedData =>
    obtain ⟨hlive, tstat, first, rest, hstats, rfl, hfirst, -⟩ := hfails
    obtain ⟨before, bad, after, tx₁, hflushed, hfiles, hbad, hidle⟩ := stopped_flushInlinedData hlive hstats h
    rw [hflushed]
    refine .flushInlinedData hlive hstats ?_ hfiles hbad hidle
    rintro rfl
    obtain ⟨rfl, -⟩ := List.cons.inj hflushed
    exact hbad hfirst
  | _ => exact hfails.elim

theorem not_unchanged_of_new {k : CurrentKey} (hnone : tx.state.get k = none) (hnew : (tx'.state.get k).isSome) :
    ¬ Unchanged tx tx' := by
  intro hsame
  rw [hsame.state, hnone] at hnew
  cases hnew

theorem isSome_registeredFile (tx : Transaction) (t : Nat) (file : DataFile) (tstat : TableStatsValue)
    (partitionId : Option Nat) :
    ((registeredFile tx t file tstat partitionId).state.get (.entity (.file t tx.nextFileId))).isSome :=
  isSome_putAll (isSome_get_putRecord_self (r := .file _) _)

theorem isSome_flushedFile (tx : Transaction) (t : Nat) (flush : FlushedDataFile) (tstat : TableStatsValue)
    (partitionId : Option Nat) :
    ((flushedFile tx t flush tstat partitionId).state.get (.entity (.file t tx.nextFileId))).isSome :=
  isSome_putAll (isSome_get_putRecord_self (r := .file _) _)

/-- A failure partway shows, where ids are new. -/
theorem not_unchanged_of_stopped (hfresh : Fresh tx.reading) (h : Call.Partial tx call tx') : ¬ Unchanged tx tx' := by
  cases h with
  | @createIndex t | @createIndexOrderedWithMaintenance t =>
    refine not_unchanged_of_new (hfresh.catalogId_new (.entity (.index t tx.nextCatalogId)) rfl) ?_
    exact isSome_get_putRecord_self (r := .index _) _
  | buildIndexSourceStep _ _ _ some => exact fun hsame => some (by simpa using hsame.indexEntries)
  | @registerDataFile t =>
    refine not_unchanged_of_new (hfresh.fileId_new (.entity (.file t tx.nextFileId)) rfl) ?_
    exact isSome_registeredFile tx t _ _ _
  | @expireDataFile t f live =>
    intro hsame
    have hgone : tx.state.get (.entity (.file t f)) = none := by
      rw [← hsame.state, withoutDataFile, get_deleteDataFile, if_pos rfl]
    obtain ⟨file, hfile⟩ := Option.isSome_iff_exists.mp live
    rw [get_file hfile] at hgone
    cases hgone
  | @registerDeleteFile t =>
    refine not_unchanged_of_new (hfresh.fileId_new (.entity (.deleteFile t tx.nextFileId)) rfl) ?_
    exact isSome_get_putRecord_self (r := .deleteFile _) _
  | removeTag => exact fun hsame => by simpa using hsame.ops
  | inlineInsert => exact fun hsame => by simpa [insertedChunk] using hsame.inlineOps
  | inlineDelete => exact fun hsame => by simpa using hsame.inlineOps
  | @flushInlinedData t _ _ _ _ _ _ _ live stats some files refused idle =>
    obtain ⟨next, -, rfl⟩ := idle
    cases files with
    | nil => exact absurd rfl some
    | cons fits rest =>
      obtain ⟨-, -, -, rs, hstate, -⟩ := flushed_puts rest
      refine not_unchanged_of_new (hfresh.fileId_new (.entity (.file t tx.nextFileId)) rfl) ?_
      exact hstate ▸ isSome_putAll (isSome_flushedFile tx t _ _ _)

/-- A failing call leaves all unchanged exactly if it does not fail partway. -/
theorem unchanged_iff (hfresh : Fresh tx.reading) :
    (∀ e tx', call.run tx = .error e tx' → Unchanged tx tx') ↔ ¬ call.FailsPartway tx := by
  constructor
  · intro hsame hfails
    cases hrun : call.run tx with
    | ok u tx' => exact not_failsPartway_of_ok hrun hfails
    | error e tx' => exact not_unchanged_of_stopped hfresh (partial_of_failsPartway hfails hrun) (hsame e tx' hrun)
  · intro hfails e tx' hrun
    rcases Call.idle_or_stopped call hrun with hidle | hstop
    · exact .of_idle hidle
    · exact absurd (failsPartway_of_stopped hstop) hfails

/-- A call that returns has recorded its changes exactly if it changes no option. -/
theorem recorded_iff (hv : tx.state.Sound) :
    (∀ tx', call.run tx = .ok () tx' → Recorded tx tx') ↔ ¬ call.ChangesOption tx.state := by
  cases hoption : call.setsOption with
  | false =>
    refine iff_of_true (fun tx' hrun => recorded_of_effect (Call.effect_of_run call hrun) hv hoption) ?_
    cases call
    case setOption | unsetOption => cases hoption
    all_goals exact id
  | true =>
    cases call
    case setOption => exact recorded_setOption_iff
    case unsetOption => exact recorded_unsetOption_iff
    all_goals cases hoption

end Failures

/-! ## Every reachable transaction -/

/-- In every run, a call leaves no trace when it fails and records what it changes when it returns, exactly if it does
    not fail partway and changes no option. -/
theorem verbs_atomic_and_recorded_iff (changes : List Operation → String × List Nat) (micros : Int) (uuid : String)
    (encrypted : Bool) (dataPath : Option String) (events : List SessionEvent) :
    Runs.Always (Session.step changes)
      (fun s => ∀ call : Call,
        ((∀ e tx', call.run s.tx = .error e tx' → Unchanged s.tx tx') ∧
          (∀ tx', call.run s.tx = .ok () tx' → Recorded s.tx tx')) ↔
        ¬ call.FailsPartway s.tx ∧ ¬ call.ChangesOption s.tx.state)
      (Session.start micros uuid encrypted dataPath) events := by
  refine (Session.always_holds blind_fresh (fun tx call hv h => fresh_after hv h call) micros uuid encrypted dataPath
    (fresh_start micros uuid encrypted dataPath) events).mono ?_
  rintro s ⟨hinv, hfresh⟩ call
  exact and_congr (unchanged_iff hfresh.tx) (recorded_iff hinv.grown.sound)

section Refused

/-- A new catalog in which a table of one column has been created. -/
private def oneColumn : Transaction :=
  (Call.createTable 0 "t" [.mk "a" "BIGINT" true none []] "").after (Session.start 0 "" false none).tx

private theorem oneColumn_indexable : IndexDefinable oneColumn.state 1 ⟨"i", [1], false⟩ .synchronous [] where
  named := by decide
  live := by decide +kernel
  nonempty := by decide
  columns := by
    have hcolumn : (getNested oneColumn.state.columns 1 1).map (ducklakeBaseType ·.columnType) = some "BIGINT" := by
      decide +kernel
    obtain ⟨value, hvalue, htype⟩ := Option.map_eq_some_iff.mp hcolumn
    refine List.forall_mem_singleton.mpr ⟨value, hvalue, ?_⟩
    rw [htype]
    decide
  free := by
    have hindexes : (oneColumn.state.indexes.getD 1 ∅).values.length = 0 := by decide +kernel
    intro other hother
    rw [List.length_eq_zero_iff.mp hindexes] at hother
    cases hother
  upkeep := .inr rfl
  ordered := .inl rfl

/-- A table of one column, and an index on it whose backfill holds an entry without a value: creating the index fails
    and leaves it behind. -/
theorem refused_backfill_leaves_its_index :
    ¬ Runs.Always (Session.step fun _ => ("", []))
      (fun s => ∀ call : Call,
        (∀ e tx', call.run s.tx = .error e tx' → Unchanged s.tx tx') ∧
          (∀ tx', call.run s.tx = .ok () tx' → Recorded s.tx tx'))
      (Session.start 0 "" false none) [.call (.createTable 0 "t" [.mk "a" "BIGINT" true none []] "")] := by
  intro h
  have hsame := (h.2 _ rfl (.createIndex 1 ⟨"i", [1], false⟩ [⟨0, []⟩])).1
  have hstart := (Session.inv_start 0 "" false none).grown.sound
  have hfresh : Fresh oneColumn.reading := fresh_after hstart (fresh_start 0 "" false none) _
  exact (unchanged_iff hfresh).mp hsame ⟨oneColumn_indexable, ⟨0, []⟩, List.mem_singleton_self _, rfl⟩

end Refused

end Moraine
