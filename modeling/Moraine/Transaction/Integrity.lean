-- SUMMARY: Referential integrity along every run of verbs, and what drops do to partition specs.
import Moraine.Base.References
import Moraine.Transaction.ColumnTrees
import Moraine.Transaction.Sessions

/-!
# Referential integrity

Tables, views and macros are in a schema; columns, files, specs, indexes and statistics belong to a table; nested
fields, partition specs and indexes name columns of their table; a delete file names a data file. A view has
integrity if none of these references dangles, no table has two specs of a kind, no data file two delete files, every
table its statistics, and the main schema is live.

Every verb keeps integrity, but what a partition spec names is not the verbs' business: dropping a column looks for
indexes that name it and leaves specs to the caller's planner. Statistics of files are apart: they are kept for
historical reads when their table is dropped.
-/

namespace Moraine

open OrdMap CatalogSnapshot Transaction References

/-! ## Integrity -/

/-- The keys that the record under a key refers to. Whether a partition spec refers to the columns it names is left
    open: dropping a column does not look at specs. -/
def EntityRecord.refs (specs : Bool) : CurrentKey → EntityRecord → List CurrentKey
  | .entity (.table _), .table value => [.entity (.schema value.schemaId)]
  | .entity (.view _), .view value => [.entity (.schema value.schemaId)]
  | .entity (.macroDef _), .macroDef value => [.entity (.schema value.schemaId)]
  | .entity (.column t _), .column value =>
    .entity (.table t) :: (value.parentColumn.map fun p => .entity (.column t p)).toList
  | .entity (.partition t _), .partition value =>
    .entity (.table t) :: (if specs then value.columns else []).map fun key => .entity (.column t key.columnId)
  | .entity (.index t _), .index value => .entity (.table t) :: value.columnIds.map fun c => .entity (.column t c)
  | .entity (.deleteFile t _), .deleteFile value => [.entity (.table t), .entity (.file t value.dataFileId)]
  | .entity (.file t _), _ | .entity (.sort t _), _ | .entity (.tableStats t), _
  | .entity (.tableColumnStats t _), _ => [.entity (.table t)]
  | _, _ => []

/-- What only one live record can be. -/
inductive Slot where
  | partitionSpec (t : Nat)
  | sortSpec (t : Nat)
  | deletes (t file : Nat)

/-- What the record under a key is the only one of. -/
def EntityRecord.slot : CurrentKey → EntityRecord → Option Slot
  | .entity (.partition t _), _ => some (.partitionSpec t)
  | .entity (.sort t _), _ => some (.sortSpec t)
  | .entity (.deleteFile t _), .deleteFile value => some (.deletes t value.dataFileId)
  | _, _ => none

/-- No reference dangles, no slot is taken twice, every table has statistics, and the main schema is live. -/
structure Integrity (specs : Bool) (f : CurrentKey → Option EntityRecord) : Prop where
  closed : Closed (EntityRecord.refs specs) f
  single : Single EntityRecord.slot f
  stats : ∀ t, (f (.entity (.table t))).isSome → (f (.entity (.tableStats t))).isSome
  main : (f (.entity (.schema 0))).isSome

/-- Statistics of files belong to live tables. -/
def FileStatsOwned (f : CurrentKey → Option EntityRecord) : Prop :=
  ∀ t file c, (f (.entity (.fileColumnStats t file c))).isSome → (f (.entity (.table t))).isSome

variable {specs : Bool}

/-! ## What integrity looks at -/

/-- The kinds of records that are referred to. -/
def CurrentKey.referred : CurrentKey → Bool
  | .entity (.schema ..) | .entity (.table ..) | .entity (.column ..) | .entity (.file ..) => true
  | _ => false

/-- The kinds of records that refer or are referred to. -/
def CurrentKey.bears : CurrentKey → Bool
  | .entity (.option ..) | .entity (.mapping ..) | .entity (.fileColumnStats ..) | .entity (.tag ..)
  | .gcFile .. => false
  | _ => true

section Bears

variable {k : CurrentKey} {r : EntityRecord}

theorem refs_of_not_bears (h : k.bears = false) : r.refs specs k = [] := by
  rcases k with ⟨⟨⟩⟩ | _
  all_goals first | rfl | cases h

theorem slot_of_not_bears (h : k.bears = false) : r.slot k = none := by
  rcases k with ⟨⟨⟩⟩ | _
  all_goals first | rfl | cases h

theorem referred_of_mem_refs {k' : CurrentKey} (h : k' ∈ r.refs specs k) : k'.referred := by
  unfold EntityRecord.refs at h
  split at h <;> simp only [List.mem_cons, List.not_mem_nil, or_false, List.mem_map, Option.mem_toList,
    Option.map_eq_some_iff] at h
  all_goals
    first
    | obtain rfl := h; rfl
    | obtain rfl | rfl := h <;> rfl
    | obtain rfl | ⟨_, _, rfl⟩ := h <;> rfl

theorem bears_of_mem_refs {k' : CurrentKey} (h : k' ∈ r.refs specs k) : k'.bears := by
  have hreferred := referred_of_mem_refs h
  unfold CurrentKey.referred at hreferred
  split at hreferred
  · rfl
  · rfl
  · rfl
  · rfl
  · cases hreferred

theorem refs_poisonRecord (poisoned : List Nat) : (poisonRecord poisoned k r).refs specs k = r.refs specs k := by
  unfold poisonRecord
  split
  · simp only [EntityRecord.refs]
    split <;> rfl
  · rfl

theorem slot_poisonRecord (poisoned : List Nat) : (poisonRecord poisoned k r).slot k = r.slot k := by
  unfold poisonRecord
  split
  · rfl
  · rfl

end Bears

section Rules

variable {v w : CatalogSnapshot} {f g : CurrentKey → Option EntityRecord}

/-- Poison and the kinds of records that bear no references do not matter. -/
theorem Integrity.passes (h : Integrity specs f)
    (hg : ∃ poisoned, ∀ k : CurrentKey, k.bears → g k = (f k).map (poisonRecord poisoned k)) : Integrity specs g := by
  obtain ⟨poisoned, hg⟩ := hg
  have hsome : ∀ {k : CurrentKey}, k.bears → ((g k).isSome ↔ (f k).isSome) := fun hk => by
    rw [hg _ hk, Option.isSome_map]
  -- A record of the second that refers or takes a slot is one of the first, but for poison.
  have hcome : ∀ {k : CurrentKey} {r : EntityRecord}, k.bears → g k = some r →
      ∃ r', f k = some r' ∧ r.refs specs k = r'.refs specs k ∧ r.slot k = r'.slot k := by
    intro k r hk hr
    rw [hg k hk] at hr
    obtain ⟨r', hr', rfl⟩ := Option.map_eq_some_iff.mp hr
    exact ⟨r', hr', refs_poisonRecord poisoned, slot_poisonRecord poisoned⟩
  refine ⟨fun k r hr k' hk' => ?_, fun k k' r r' s hr hr' hs hs' => ?_, fun t ht => ?_, (hsome rfl).mpr h.main⟩
  · cases hk : k.bears with
    | false => rw [refs_of_not_bears hk] at hk'; cases hk'
    | true =>
      obtain ⟨r₀, hr₀, hrefs, -⟩ := hcome hk hr
      exact (hsome (bears_of_mem_refs hk')).mpr (h.closed k r₀ hr₀ k' (hrefs ▸ hk'))
  · cases hk : k.bears with
    | false => rw [slot_of_not_bears hk] at hs; cases hs
    | true =>
      cases hk' : k'.bears with
      | false => rw [slot_of_not_bears hk'] at hs'; cases hs'
      | true =>
        obtain ⟨r₀, hr₀, -, hslot⟩ := hcome hk hr
        obtain ⟨r₁, hr₁, -, hslot'⟩ := hcome hk' hr'
        exact h.single k k' r₀ r₁ s hr₀ hr₁ (hslot ▸ hs) (hslot' ▸ hs')
  · exact (hsome rfl).mpr (h.stats t ((hsome rfl).mp ht))

theorem Integrity.of_eq (h : Integrity specs f) (hg : ∀ k : CurrentKey, k.bears → g k = f k) : Integrity specs g :=
  h.passes ⟨[], fun k hk => by rw [hg k hk, funext (poisonRecord_nil k), Option.map_id']⟩

theorem put_putRecord (v : CatalogSnapshot) (r : EntityRecord) : Put v.get (v.putRecord r).get r.key r :=
  put_of_ite (v.get_putRecord r)

/-- A put record keeps integrity if what it refers to is live, its slot is free and, for a table, there are
    statistics. -/
theorem Integrity.put (h : Integrity specs v.get) {r : EntityRecord}
    (hrefs : ∀ k ∈ r.refs specs r.key, k = r.key ∨ (v.get k).isSome)
    (hslot : ∀ k r' s, v.get k = some r' → r.slot r.key = some s → r'.slot k = some s → k = r.key)
    (hstats : ∀ t, r.key = .entity (.table t) → (v.get (.entity (.tableStats t))).isSome) :
    Integrity specs (v.putRecord r).get := by
  have hput := put_putRecord v r
  refine ⟨h.closed.put hput hrefs, h.single.put hput hslot, fun t ht => ?_, hput.isSome (.inr h.main)⟩
  refine hput.isSome (.inr ?_)
  by_cases hk : CurrentKey.entity (.table t) = r.key
  · exact hstats t hk.symm
  · rw [hput.2 _ hk] at ht
    exact h.stats t ht

/-- A record that takes no slot. -/
theorem Integrity.putPlain (h : Integrity specs v.get) {r : EntityRecord} (hslot : r.slot r.key = none)
    (hrefs : ∀ k ∈ r.refs specs r.key, (v.get k).isSome)
    (hstats : ∀ t, r.key = .entity (.table t) → (v.get (.entity (.table t))).isSome) :
    Integrity specs (v.putRecord r).get := by
  refine h.put (fun k hk => .inr (hrefs k hk)) (fun k r' s _ hs => ?_) fun t ht => h.stats t (hstats t ht)
  rw [hslot] at hs
  cases hs

/-- Another version of a live record keeps integrity if what else it refers to is live. -/
theorem Integrity.replace {k : CurrentKey} {r r' : EntityRecord} (h : Integrity specs v.get) (hold : v.get k = some r)
    (hkey : r'.key = k) (hrefs : ∀ k' ∈ r'.refs specs k, k' ∈ r.refs specs k ∨ (v.get k').isSome)
    (hslot : r'.slot k = r.slot k) : Integrity specs (v.putRecord r').get := by
  subst hkey
  refine h.put (fun k' hk' => .inr ?_) (fun k' r₁ s hr₁ hs hs' => ?_) fun t ht => h.stats t ?_
  · exact (hrefs k' hk').elim (h.closed _ r hold k') id
  · exact h.single k' _ r₁ r s hr₁ hold hs' (hslot ▸ hs)
  · rw [← ht, hold]
    rfl

/-- Removing records keeps integrity if the rest does not refer to them, and statistics go with their table only. -/
theorem Integrity.drop {D : CurrentKey → Prop} (h : Integrity specs v.get) (hdrop : Drop v.get w.get D)
    (hrest : ∀ k r, ¬ D k → v.get k = some r → ∀ k' ∈ r.refs specs k, ¬ D k')
    (hstats : ∀ t, D (.entity (.tableStats t)) → D (.entity (.table t))) (hmain : ¬ D (.entity (.schema 0))) :
    Integrity specs w.get := by
  refine ⟨(h.closed.drop_iff hdrop).mpr hrest, h.single.drop hdrop, fun t ht => ?_,
    (hdrop.isSome_iff _).mpr ⟨hmain, h.main⟩⟩
  obtain ⟨hkept, hlive⟩ := (hdrop.isSome_iff _).mp ht
  exact (hdrop.isSome_iff _).mpr ⟨fun hD => hkept (hstats t hD), h.stats t hlive⟩

end Rules

/-! ## Who refers to what -/

section Referrers

variable {k : CurrentKey} {r : EntityRecord} {s t c f : Nat}

theorem refers_schema (h : .entity (.schema s) ∈ r.refs specs k) :
    (∃ value, r = .table value ∧ value.schemaId = s) ∨ (∃ value, r = .view value ∧ value.schemaId = s) ∨
      ∃ value, r = .macroDef value ∧ value.schemaId = s := by
  unfold EntityRecord.refs at h
  split at h <;> simp [eq_comm] at h ⊢ <;> exact h

/-- What refers to a column is of its table: a field, a partition spec or an index. -/
theorem refers_column (h : .entity (.column t c) ∈ r.refs specs k) :
    (∃ d value, k = .entity (.column t d) ∧ r = .column value ∧ value.parentColumn = some c) ∨
      (specs ∧ ∃ p value, k = .entity (.partition t p) ∧ r = .partition value ∧
        ∃ key ∈ value.columns, key.columnId = c) ∨
        ∃ i value, k = .entity (.index t i) ∧ r = .index value ∧ c ∈ value.columnIds := by
  unfold EntityRecord.refs at h
  split at h <;> simp at h ⊢
  · exact ⟨h.2, h.1⟩
  · obtain ⟨key, ⟨hspecs, hkey⟩, rfl, rfl⟩ := h
    exact ⟨hspecs, rfl, key, hkey, rfl⟩
  · exact ⟨h.2, h.1⟩

theorem refers_file (h : .entity (.file t f) ∈ r.refs specs k) :
    ∃ d value, k = .entity (.deleteFile t d) ∧ r = .deleteFile value ∧ value.dataFileId = f := by
  unfold EntityRecord.refs at h
  split at h <;> simp at h ⊢
  exact ⟨h.1.symm, h.2.symm⟩

theorem slot_partitionSpec (h : r.slot k = some (.partitionSpec t)) : ∃ p, k = .entity (.partition t p) := by
  unfold EntityRecord.slot at h
  split at h <;> simp at h
  exact ⟨_, by rw [h]⟩

theorem slot_sortSpec (h : r.slot k = some (.sortSpec t)) : ∃ s, k = .entity (.sort t s) := by
  unfold EntityRecord.slot at h
  split at h <;> simp at h
  exact ⟨_, by rw [h]⟩

theorem slot_deletes (h : r.slot k = some (.deletes t f)) :
    ∃ d value, k = .entity (.deleteFile t d) ∧ r = .deleteFile value ∧ value.dataFileId = f := by
  unfold EntityRecord.slot at h
  split at h <;> simp at h
  exact ⟨_, _, by rw [h.1], rfl, h.2⟩

/-- What refers to something that is dropped with a table is dropped with it too. -/
theorem dropsWith_of_refers {k' : CurrentKey} (h : k' ∈ r.refs specs k) (hD : k'.dropsWith t) : k.dropsWith t := by
  unfold EntityRecord.refs at h
  split at h <;> simp only [List.mem_cons, List.not_mem_nil, or_false, List.mem_map, Option.mem_toList,
    Option.map_eq_some_iff] at h
  all_goals
    first
    | obtain rfl := h; exact hD
    | obtain rfl | rfl := h <;> exact hD
    | obtain rfl | ⟨_, _, rfl⟩ := h <;> exact hD
    | obtain rfl := h; cases hD

end Referrers

/-! ## What verbs put and remove -/

section Verbs

variable {v w : CatalogSnapshot} {t : Nat}

theorem isSome_get_table : (v.get (.entity (.table t))).isSome ↔ v.tables[t]?.isSome := by
  simp [CatalogSnapshot.get]

theorem isSome_get_column {c : Nat} : (v.get (.entity (.column t c))).isSome ↔ (getNested v.columns t c).isSome := by
  simp [CatalogSnapshot.get]

mutual

/-- New columns are put after their parents: what putting a column beneath a live one keeps, putting all of them
    keeps. -/
theorem putColumns_keeps {P : CatalogSnapshot → Prop} (t n : Nat)
    (hput : ∀ v c, P v → c.tableId = t → (∀ p, c.parentColumn = some p → (v.get (.entity (.column t p))).isSome) →
      P (v.putRecord (.column c))) : ∀ (defs : List ColumnDef) (parent : Option Nat) (id order : Nat)
    {v : CatalogSnapshot}, P v → (∀ p, parent = some p → (v.get (.entity (.column t p))).isSome) →
    P (putColumns v (columnRecords t n defs parent id order))
  | [], _, _, _, _, h, _ => h
  | column :: defs, parent, id, order, v, h, hparent => by
    rw [columnRecords, putColumns_append]
    exact putColumns_keeps t n hput defs parent _ _ (putTree_keeps t n hput column parent id order h hparent)
      fun p hp => isSome_putAll (hparent p hp)

theorem putTree_keeps {P : CatalogSnapshot → Prop} (t n : Nat)
    (hput : ∀ v c, P v → c.tableId = t → (∀ p, c.parentColumn = some p → (v.get (.entity (.column t p))).isSome) →
      P (v.putRecord (.column c))) : ∀ (column : ColumnDef) (parent : Option Nat) (id order : Nat)
    {v : CatalogSnapshot}, P v → (∀ p, parent = some p → (v.get (.entity (.column t p))).isSome) →
    P (putColumns v (treeRecords t n column parent id order))
  | .mk name columnType nullsAllowed defaultValue children, parent, id, order, v, h, hparent => by
    refine putColumns_keeps t n hput children (some id) _ _ (hput v _ h rfl hparent) fun p hp => ?_
    obtain rfl := Option.some.inj hp
    exact (put_putRecord v (.column (newColumn t id order n parent name columnType nullsAllowed defaultValue))).isSome
      (.inl rfl)

end

/-- A live table whose references do not dangle. -/
private structure WithTable (specs : Bool) (t : Nat) (v : CatalogSnapshot) : Prop where
  closed : Closed (EntityRecord.refs specs) v.get
  single : Single EntityRecord.slot v.get
  table : (v.get (.entity (.table t))).isSome

private theorem WithTable.putColumn {c : ColumnValue} (h : WithTable specs t v) (htable : c.tableId = t)
    (hparent : ∀ p, c.parentColumn = some p → (v.get (.entity (.column t p))).isSome) :
    WithTable specs t (v.putRecord (.column c)) := by
  have hput := put_putRecord v (.column c)
  refine ⟨h.closed.put hput fun k hk => .inr ?_, h.single.put hput fun k r s _ hs => ?_, hput.isSome (.inr h.table)⟩
  · simp only [EntityRecord.key, EntityRecord.refs, List.mem_cons, Option.mem_toList, Option.map_eq_some_iff,
      htable] at hk
    rcases hk with rfl | ⟨p, hp, rfl⟩
    · exact h.table
    · exact hparent p hp
  · cases hs

/-- Nothing is in a schema that is not occupied. -/
theorem not_refers_of_occupied (hv : v.Sound) {schema : Nat} (hempty : occupied v schema = none) {k : CurrentKey}
    {r : EntityRecord} (hr : v.get k = some r) : .entity (.schema schema) ∉ r.refs specs k := by
  intro hrefs
  unfold occupied at hempty
  split at hempty
  · cases hempty
  split at hempty
  · cases hempty
  split at hempty
  · cases hempty
  next htables hviews hmacros =>
  simp only [List.any_eq_true, mem_values, beq_iff_eq, not_exists, not_and] at htables hviews hmacros
  obtain rfl := (hv k r hr).1
  rcases refers_schema hrefs with ⟨value, rfl, hin⟩ | ⟨value, rfl, hin⟩ | ⟨value, rfl, hin⟩
  · exact htables value ⟨_, by simpa [CatalogSnapshot.get, EntityRecord.key] using hr⟩ hin
  · exact hviews value ⟨_, by simpa [CatalogSnapshot.get, EntityRecord.key] using hr⟩ hin
  · exact hmacros value ⟨_, by simpa [CatalogSnapshot.get, EntityRecord.key] using hr⟩ hin

theorem integrity_dropSchema (hv : v.Sound) (h : Integrity specs v.get) {schema : Nat} (hmain : schema ≠ 0)
    (hempty : occupied v schema = none) : Integrity specs (v.deleteSchema schema).get := by
  refine h.drop (drop_of_ite (v.get_deleteSchema schema)) (fun k r _ hr k' hk' hD => ?_) (fun t ht => ?_) ?_
  · rcases hD with rfl | rfl
    · exact not_refers_of_occupied hv hempty hr hk'
    · cases referred_of_mem_refs hk'
  · rcases ht with ht | ht <;> cases ht
  · rintro (hD | hD)
    · simp only [CurrentKey.entity.injEq, EntityKey.schema.injEq] at hD
      exact hmain hD.symm
    · cases hD

/-- Everything that refers to a table is dropped with it. -/
theorem integrity_dropTable (h : Integrity specs v.get) (t : Nat) : Integrity specs (v.deleteTable t).get :=
  h.drop (drop_of_ite (v.get_deleteTable t)) (fun _ _ hk _ _ hk' hD => hk (dropsWith_of_refers hk' hD)) (fun _ ht => ht)
    Bool.false_ne_true

theorem get_deleteDeleteFiles (v : CatalogSnapshot) (t : Nat) (ids : List Nat) (k : CurrentKey) :
    (ids.foldl (fun v id => v.deleteDeleteFile t id) v).get k =
      if ∃ id ∈ ids, k = .entity (.deleteFile t id) then none else v.get k := by
  induction ids generalizing v with
  | nil => simp
  | cons id ids ih =>
    rw [List.foldl_cons, ih, get_deleteDeleteFile]
    by_cases hid : k = .entity (.deleteFile t id)
    · simp [hid]
    · simp [hid]

/-- What goes with a data file. -/
def GoesWithFile (v : CatalogSnapshot) (t f : Nat) (k : CurrentKey) : Prop :=
  k = .entity (.file t f) ∨
    ∃ d value, k = .entity (.deleteFile t d) ∧ getNested v.deleteFiles t d = some value ∧ value.dataFileId = f

theorem drop_withoutDataFile (hv : v.Sound) (t f : Nat) :
    Drop v.get (withoutDataFile v t f).get (GoesWithFile v t f) := by
  classical
  refine drop_of_ite fun k => ?_
  rw [withoutDataFile, get_deleteDataFile, get_deleteDeleteFiles, ← ite_or]
  refine if_congr (or_congr_right ?_) rfl rfl
  simp only [List.mem_map, List.mem_filter, mem_getD_values, beq_iff_eq]
  constructor
  · rintro ⟨_, ⟨value, ⟨⟨d, hd⟩, hf⟩, rfl⟩, rfl⟩
    have hkey := (hv (.entity (.deleteFile t d)) (.deleteFile value) (by simp [CatalogSnapshot.get, hd])).1
    simp only [EntityRecord.key, CurrentKey.entity.injEq, EntityKey.deleteFile.injEq] at hkey
    exact ⟨d, value, by rw [hkey.2], hd, hf⟩
  · rintro ⟨d, value, rfl, hd, hf⟩
    have hkey := (hv (.entity (.deleteFile t d)) (.deleteFile value) (by simp [CatalogSnapshot.get, hd])).1
    simp only [EntityRecord.key, CurrentKey.entity.injEq, EntityKey.deleteFile.injEq] at hkey
    exact ⟨_, ⟨value, ⟨⟨d, hd⟩, hf⟩, rfl⟩, by rw [hkey.2]⟩

/-- The data file goes with the delete files that target it. -/
theorem integrity_withoutDataFile (hv : v.Sound) (h : Integrity specs v.get) (t f : Nat) :
    Integrity specs (withoutDataFile v t f).get := by
  refine h.drop (drop_withoutDataFile hv t f) (fun k r hk hr k' hk' hD => hk ?_) ?_ ?_
  · rcases hD with rfl | ⟨d, value, rfl, -, -⟩
    · obtain ⟨d, value, rfl, rfl, hf⟩ := refers_file hk'
      exact .inr ⟨d, value, rfl, by simpa [CatalogSnapshot.get] using hr, hf⟩
    · cases referred_of_mem_refs hk'
  · rintro t' (hD | ⟨_, _, hD, -⟩) <;> cases hD
  · rintro (hD | ⟨_, _, hD, -⟩) <;> cases hD

/-- Removing a record of a kind that nothing refers to. -/
theorem Integrity.dropUnreferred {k₀ : CurrentKey} (h : Integrity specs v.get)
    (hw : ∀ k, w.get k = if k = k₀ then none else v.get k) (hk₀ : k₀.referred = false)
    (hstats : ∀ t, k₀ ≠ .entity (.tableStats t)) : Integrity specs w.get := by
  refine h.drop (drop_of_ite hw) (fun k r _ _ k' hk' heq => ?_) (fun t ht => absurd ht.symm (hstats t)) fun hmain => ?_
  · have hreferred := referred_of_mem_refs hk'
    rw [heq, hk₀] at hreferred
    cases hreferred
  · rw [← hmain] at hk₀
    cases hk₀

/-- Removing the record that takes a slot frees the slot. -/
theorem Integrity.frees {k k₀ : CurrentKey} {r r₀ : EntityRecord} {slot : Slot} (h : Integrity specs v.get)
    (hw : ∀ k, w.get k = if k = k₀ then none else v.get k) (hr₀ : v.get k₀ = some r₀) (hslot : r₀.slot k₀ = some slot)
    (hr : w.get k = some r) : r.slot k ≠ some slot := by
  obtain ⟨hk, hold⟩ := (drop_of_ite hw).mem hr
  exact fun hsame => hk (h.single k k₀ r r₀ slot hold hr₀ hsame hslot)

theorem integrity_withoutPartition (h : Integrity specs v.get) (t : Nat) :
    Integrity specs (Call.withoutPartition v t).get ∧
      ∀ p, (Call.withoutPartition v t).get (.entity (.partition t p)) = none := by
  unfold Call.withoutPartition
  cases hp : livePartitionId v t with
  | none =>
    refine ⟨h, fun p => ?_⟩
    simp only [CatalogSnapshot.get, minKey?_getD_eq_none_iff.mp hp p, Option.map_none]
  | some p =>
    refine ⟨h.dropUnreferred (v.get_deletePartition t p) rfl (fun _ heq => by cases heq), fun q => ?_⟩
    obtain ⟨r, hr⟩ := Option.isSome_iff_exists.mp (isSome_of_minKey?_getD hp)
    have hold : v.get (.entity (.partition t p)) = some (.partition r) := by simp [CatalogSnapshot.get, hr]
    exact Option.eq_none_iff_forall_ne_some.mpr fun _ hq => h.frees (v.get_deletePartition t p) hold rfl hq rfl

theorem integrity_withoutSort (h : Integrity specs v.get) (t : Nat) :
    Integrity specs (Call.withoutSort v t).get ∧ ∀ s, (Call.withoutSort v t).get (.entity (.sort t s)) = none := by
  unfold Call.withoutSort
  cases hs : liveSortId v t with
  | none =>
    refine ⟨h, fun s => ?_⟩
    simp only [CatalogSnapshot.get, minKey?_getD_eq_none_iff.mp hs s, Option.map_none]
  | some s =>
    refine ⟨h.dropUnreferred (v.get_deleteSort t s) rfl (fun _ heq => by cases heq), fun q => ?_⟩
    obtain ⟨r, hr⟩ := Option.isSome_iff_exists.mp (isSome_of_minKey?_getD hs)
    have hold : v.get (.entity (.sort t s)) = some (.sort r) := by simp [CatalogSnapshot.get, hr]
    exact Option.eq_none_iff_forall_ne_some.mpr fun _ hq => h.frees (v.get_deleteSort t s) hold rfl hq rfl

end Verbs

/-! ## What calls do to integrity -/

section Calls

variable {tx tx' : Transaction} {v : CatalogSnapshot} {t : Nat}

theorem tables_withoutPartition (v : CatalogSnapshot) (t : Nat) : (Call.withoutPartition v t).tables = v.tables := by
  unfold Call.withoutPartition
  split <;> rfl

theorem columns_withoutPartition (v : CatalogSnapshot) (t : Nat) : (Call.withoutPartition v t).columns = v.columns := by
  unfold Call.withoutPartition
  split <;> rfl

theorem tables_withoutSort (v : CatalogSnapshot) (t : Nat) : (Call.withoutSort v t).tables = v.tables := by
  unfold Call.withoutSort
  split <;> rfl

/-- A table's statistics say what table they belong to. -/
theorem tableId_of_tableStats (hv : v.Sound) {tstat : TableStatsValue} (h : v.tableStats[t]? = some tstat) :
    tstat.tableId = t := by
  have hkey := (hv (.entity (.tableStats t)) (.tableStats tstat) (by simp [CatalogSnapshot.get, h])).1
  simpa [EntityRecord.key] using hkey

/-- New statistics of a table that has some. -/
theorem integrity_putTableStats (hv : v.Sound) (h : Integrity specs v.get) {tstat tstat' : TableStatsValue}
    (hstats : v.tableStats[t]? = some tstat) (htable : tstat'.tableId = tstat.tableId) :
    Integrity specs (v.putRecord (.tableStats tstat')).get := by
  refine h.replace (k := .entity (.tableStats t)) (r := .tableStats tstat) (by simp [CatalogSnapshot.get, hstats]) ?_
    (fun k' hk' => .inl hk') rfl
  rw [EntityRecord.key, htable, tableId_of_tableStats hv hstats]

/-- A new file of a live table, with its statistics. -/
theorem integrity_putFile (hv : v.Sound) (h : Integrity specs v.get) {tstat tstat' : TableStatsValue}
    {file : DataFileValue}
    {stats : List FileColumnStats} {id : Nat} (hstats : v.tableStats[t]? = some tstat)
    (htable : tstat'.tableId = tstat.tableId) (hfile : file.tableId = t) :
    Integrity specs
      (putAll ((v.putRecord (.tableStats tstat')).putRecord (.file file)) (fileStatsRecords t id stats)).get := by
  obtain ⟨fileColumnStats, heq⟩ :=
    putFileStats_eq ((v.putRecord (.tableStats tstat')).putRecord (.file file)) t id stats
  have hput := integrity_putTableStats hv h hstats htable
  have hlive : (v.get (.entity (.table t))).isSome :=
    h.closed (.entity (.tableStats t)) (.tableStats tstat) (by simp [CatalogSnapshot.get, hstats]) _ List.mem_cons_self
  have hfiles : Integrity specs ((v.putRecord (.tableStats tstat')).putRecord (.file file)).get := by
    refine hput.putPlain rfl (fun k hk => ?_) (fun _ heq => by cases heq)
    obtain rfl := List.mem_singleton.mp hk
    rw [hfile]
    exact (put_putRecord v _).isSome (.inr hlive)
  rw [heq]
  refine hfiles.of_eq fun k hk => ?_
  rcases k with ⟨⟨⟩⟩ | _
  all_goals first | rfl | cases hk

theorem sound_putAll {rs : List EntityRecord} (hv : v.Sound) (hrs : ∀ r ∈ rs, isLive none r) : (putAll v rs).Sound := by
  induction rs generalizing v with
  | nil => exact hv
  | cons r rs ih => exact ih (hv.putRecord (hrs r List.mem_cons_self)) fun r' hr' => hrs r' (List.mem_cons_of_mem _ hr')

theorem sound_flushedFile (hv : tx.state.Sound) (flush : FlushedDataFile) (tstat : TableStatsValue)
    (partitionId : Option Nat) : (flushedFile tx t flush tstat partitionId).state.Sound := by
  refine sound_putAll ((hv.putRecord rfl).putRecord rfl) fun r hr => ?_
  obtain ⟨entry, -, rfl⟩ := List.mem_map.mp hr
  rfl

theorem integrity_flushed {ceiling : Nat} {flushes : List FlushedDataFile}
    (hfiles : FlushedFiles t ceiling flushes tx tx')
    (hv : tx.state.Sound) (h : Integrity specs tx.state.get) : Integrity specs tx'.state.get := by
  induction hfiles with
  | nil => exact h
  | cons fits rest ih =>
    exact ih (sound_flushedFile hv _ _ _) (integrity_putFile hv h fits.stats rfl rfl)

/-- A record of a kind that integrity does not look at. -/
theorem Integrity.retagged {object : Nat} {w : CatalogSnapshot} (h : Integrity specs v.get) (hw : Retagged v object w) :
    Integrity specs w.get := by
  obtain ⟨tags, rfl, -⟩ := hw
  refine h.of_eq fun k hk => ?_
  rcases k with ⟨⟨⟩⟩ | _
  all_goals first | rfl | cases hk

theorem Integrity.reoptioned {options : Std.ExtTreeMap (Nat × Nat) OptionScopeValue} (h : Integrity specs v.get) :
    Integrity specs (CatalogSnapshot.get { v with options := options }) := by
  refine h.of_eq fun k hk => ?_
  rcases k with ⟨⟨⟩⟩ | _
  all_goals first | rfl | cases hk

theorem integrity_defineIndex (h : Integrity specs v.get) {value : IndexValue} (htable : value.tableId = t)
    (hlive : v.tables[t]?.isSome) (hcolumns : ∀ c ∈ value.columnIds, (getNested v.columns t c).isSome) :
    Integrity specs (v.putRecord (.index value)).get := by
  refine h.putPlain rfl (fun k hk => ?_) (fun _ heq => by cases heq)
  simp only [EntityRecord.key, EntityRecord.refs, List.mem_cons, List.mem_map, htable] at hk
  rcases hk with rfl | ⟨c, hc, rfl⟩
  · exact isSome_get_table.mpr hlive
  · exact isSome_get_column.mpr (hcolumns c hc)

theorem integrity_createTable (h : Integrity specs v.get) {value : TableValue} {stats : TableStatsValue}
    {columns : List ColumnDef} {n : Nat} (hschema : v.schemas[value.schemaId]?.isSome)
    (hstats : stats.tableId = value.tableId) :
    Integrity specs ((putColumns (v.putRecord (.table value))
      (columnRecords value.tableId n columns none 1 1)).putRecord (.tableStats stats)).get := by
  have hput := put_putRecord v (.table value)
  have hslot : ∀ k r s, v.get k = some r → EntityRecord.slot (.entity (.table value.tableId)) (.table value) = some s →
      r.slot k = some s → k = .entity (.table value.tableId) := by
    intro k r s _ hs
    cases hs
  have htable : ((v.putRecord (.table value)).get (.entity (.table value.tableId))).isSome := hput.isSome (.inl rfl)
  have hrefs : ∀ k ∈ EntityRecord.refs specs (.entity (.table value.tableId)) (.table value),
      k = .entity (.table value.tableId) ∨ (v.get k).isSome := by
    intro k hk
    obtain rfl := List.mem_singleton.mp hk
    exact .inr (by simpa [CatalogSnapshot.get] using hschema)
  obtain ⟨hclosed, hsingle, -⟩ : WithTable specs value.tableId _ := putColumns_keeps value.tableId n
    (fun v c h => h.putColumn) columns none 1 1 ⟨h.closed.put hput hrefs, h.single.put hput hslot, htable⟩ (by simp)
  have hlast := put_putRecord (putColumns (v.putRecord (.table value)) (columnRecords value.tableId n columns none 1 1))
    (.tableStats stats)
  refine ⟨hclosed.put hlast fun k hk => .inr ?_, hsingle.put hlast fun k r s _ hs => ?_, fun t ht => ?_, ?_⟩
  · obtain rfl := List.mem_singleton.mp hk
    rw [hstats]
    exact isSome_putAll htable
  · cases hs
  · -- The statistics of the new table are put last; no other table is new.
    by_cases heq : t = value.tableId
    · exact hlast.isSome (.inl (by rw [heq, ← hstats]; rfl))
    · refine hlast.isSome (.inr (isSome_putAll (hput.isSome (.inr (h.stats t ?_)))))
      rw [hlast.2 _ (fun hk => by cases hk), putColumns, putAll, get_foldl_putRecord_of_not_mem, hput.2] at ht
      · exact ht
      · exact fun hk => heq (by simpa [EntityRecord.key] using hk)
      · rw [List.map_map]
        intro hmem
        obtain ⟨c, -, hc⟩ := List.mem_map.mp hmem
        cases hc
  · exact hlast.isSome (.inr (isSome_putAll (hput.isSome (.inr h.main))))

theorem isSome_of_indexable {columns : List Nat} (h : IndexableColumns v t columns) :
    ∀ c ∈ columns, (getNested v.columns t c).isSome := by
  intro c hc
  obtain ⟨value, hvalue, -⟩ := h c hc
  rw [hvalue]
  rfl

theorem integrity_addColumn (hv : v.Sound) (h : Integrity specs v.get) {value value' : TableValue} {column : ColumnDef}
    {n nextId nextOrder : Nat} (hlive : v.tables[t]? = some value) (hid : value'.tableId = value.tableId)
    (hschema : value'.schemaId = value.schemaId) :
    Integrity specs ((putColumns v (treeRecords t n column none nextId nextOrder)).putRecord (.table value')).get := by
  have hold := get_table hlive
  obtain ⟨hclosed, hsingle, -⟩ : WithTable specs t _ := putTree_keeps t n (fun v c h => h.putColumn) column none nextId
    nextOrder ⟨h.closed, h.single, by rw [hold]; rfl⟩ nofun
  have htables : ∀ k : CurrentKey, (∀ t c, k ≠ .entity (.column t c)) →
      (putColumns v (treeRecords t n column none nextId nextOrder)).get k = v.get k := by
    intro k hk
    rw [putColumns, putAll, get_foldl_putRecord_of_not_mem]
    rw [List.map_map]
    intro hmem
    obtain ⟨c, -, hc⟩ := List.mem_map.mp hmem
    exact hk _ _ hc.symm
  have hput : Integrity specs (putColumns v (treeRecords t n column none nextId nextOrder)).get := by
    refine ⟨hclosed, hsingle, fun t' ht' => isSome_putAll (h.stats t' ?_), isSome_putAll h.main⟩
    rwa [htables _ (fun _ _ heq => by cases heq)] at ht'
  refine hput.replace (k := .entity (.table t)) (r := .table value) ?_ ?_ (fun k hk => .inl ?_) rfl
  · rw [htables _ (fun _ _ heq => by cases heq), hold]
  · exact (congrArg (fun id => CurrentKey.entity (.table id)) hid).trans (hv _ _ hold).1
  · rwa [EntityRecord.refs, hschema] at hk

theorem integrity_setPartitioning (h : Integrity specs v.get) {spec : PartitionValue}
    {columns : List PartitionColumnDef}
    (hlive : v.tables[t]?.isSome) (hcolumns : ∀ key ∈ columns, (getNested v.columns t key.column).isSome)
    (htable : spec.tableId = t)
    (hnamed : spec.columns.map PartitionColumn.columnId = columns.map PartitionColumnDef.column) :
    Integrity specs ((Call.withoutPartition v t).putRecord (.partition spec)).get := by
  obtain ⟨hwithout, hfree⟩ := integrity_withoutPartition h t
  refine hwithout.put (fun k hk => .inr ?_) (fun k r s hr hs hs' => ?_) (fun _ heq => by cases heq)
  · simp only [EntityRecord.key, EntityRecord.refs, List.mem_cons, List.mem_map, htable] at hk
    rcases hk with rfl | ⟨key, hkey, rfl⟩
    · rw [isSome_get_table, tables_withoutPartition]
      exact hlive
    · have hcolumn : key ∈ spec.columns := by
        split at hkey
        · exact hkey
        · cases hkey
      have hmem : key.columnId ∈ columns.map PartitionColumnDef.column := hnamed ▸ List.mem_map_of_mem hcolumn
      obtain ⟨key', hkey', hid⟩ := List.mem_map.mp hmem
      rw [isSome_get_column, columns_withoutPartition, ← hid]
      exact hcolumns key' hkey'
  · simp only [EntityRecord.key, EntityRecord.slot, htable, Option.some.injEq] at hs
    subst hs
    obtain ⟨p, rfl⟩ := slot_partitionSpec hs'
    rw [hfree p] at hr
    cases hr

theorem integrity_setSorting (h : Integrity specs v.get) {spec : SortValue} (hlive : v.tables[t]?.isSome)
    (htable : spec.tableId = t) : Integrity specs ((Call.withoutSort v t).putRecord (.sort spec)).get := by
  obtain ⟨hwithout, hfree⟩ := integrity_withoutSort h t
  refine hwithout.put (fun k hk => .inr ?_) (fun k r s hr hs hs' => ?_) (fun _ heq => by cases heq)
  · obtain rfl := List.mem_singleton.mp hk
    rw [htable, isSome_get_table, tables_withoutSort]
    exact hlive
  · simp only [EntityRecord.key, EntityRecord.slot, htable, Option.some.injEq] at hs
    subst hs
    obtain ⟨p, rfl⟩ := slot_sortSpec hs'
    rw [hfree p] at hr
    cases hr

theorem integrity_advanceBuild (hv : v.Sound) (h : Integrity specs v.get) {i n : Nat} {value : IndexValue}
    {batch : List IndexEntry} {isFinal : Bool} {source : Option (Nat × Nat)}
    (hfound : findIndex v i = some (t, value)) :
    Integrity specs (v.putRecord (.index (advanceBuild value batch isFinal source n))).get := by
  have hold := get_index (findIndex_some hfound)
  obtain ⟨hid, htable, -, hcolumns, -⟩ := advanceBuild_identity value batch isFinal source n
  refine h.replace hold ?_ (fun k hk => .inl ?_) rfl
  · rw [EntityRecord.key, hid, htable]
    exact (hv _ _ hold).1
  · rwa [EntityRecord.refs, hcolumns] at hk

theorem CatalogSnapshot.Sound.withoutDataFile (hv : v.Sound) (t f : Nat) : (withoutDataFile v t f).Sound :=
  hv.mono fun _ _ hr => ((drop_withoutDataFile hv t f).mem hr).2

theorem getElem?_tableStats_withoutDataFile (v : CatalogSnapshot) (t f : Nat) :
    (withoutDataFile v t f).tableStats[t]? = v.tableStats[t]? := by rw [tableStats_withoutDataFile]

theorem integrity_putDeleteFile (h : Integrity specs v.get) {file : DeleteFile} {entries : List FileIndexRemoval}
    {target : DataFileValue} {id n : Nat} (hfits : DeleteFileFits v t file entries target) :
    Integrity specs (v.putRecord (.deleteFile (newDeleteFile id t n file))).get := by
  refine h.put (fun k hk => .inr ?_) (fun k r s hr hs hs' => ?_) (fun _ heq => by cases heq)
  · simp only [EntityRecord.key, EntityRecord.refs, newDeleteFile, List.mem_cons, List.not_mem_nil, or_false] at hk
    rcases hk with rfl | rfl
    · exact isSome_get_table.mpr hfits.live
    · rw [get_file hfits.targetLive]
      rfl
  · simp only [EntityRecord.key, EntityRecord.slot, newDeleteFile, Option.some.injEq] at hs
    subst hs
    obtain ⟨d, value, rfl, rfl, hfile⟩ := slot_deletes hs'
    refine absurd hfile (hfits.alone value (mem_getD_values.mpr ⟨d, ?_⟩))
    simpa [CatalogSnapshot.get] using hr

/-- What every call but dropping a column does to integrity: nothing. -/
theorem integrity_effect {call : Call} (hv : tx.state.Sound) (h : Integrity specs tx.state.get)
    (heffect : Call.Effect tx call tx') (hcall : ∀ t c, call ≠ .dropColumn t c) : Integrity specs tx'.state.get := by
  cases heffect with
  | createSchema => exact h.putPlain rfl nofun (fun _ heq => by cases heq)
  | dropSchema hmain _ hempty => exact integrity_dropSchema hv h hmain hempty
  | createTable live free distinct id inSchema =>
    rw [← id]
    exact integrity_createTable h (by rw [inSchema, live]; rfl) rfl
  | renameTable live =>
    have hold := get_table live
    exact h.replace hold (hv _ _ hold).1 (fun k hk => .inl hk) rfl
  | setTableSchema live schemaLive =>
    have hold := get_table live
    refine h.replace hold (hv _ _ hold).1 (fun k hk => .inr ?_) rfl
    obtain rfl := List.mem_singleton.mp hk
    simpa [CatalogSnapshot.get] using schemaLive
  | dropTable => exact integrity_dropTable h _
  | addColumn live => exact integrity_addColumn hv h live rfl rfl
  | renameColumn live | alterColumn live =>
    have hold := get_column live
    exact h.replace hold (hv _ _ hold).1 (fun k hk => .inl hk) rfl
  | dropColumn => exact absurd rfl (hcall _ _)
  | setPartitioning live columnsLive id table named => exact integrity_setPartitioning h live columnsLive table named
  | clearPartitioning => exact (integrity_withoutPartition h _).1
  | setSorting live id table => exact integrity_setSorting h live table
  | clearSorting => exact (integrity_withoutSort h _).1
  | createIndex defined | createIndexOrderedWithMaintenance defined
  | createIndexStagedOrderedWithMaintenance defined =>
    exact integrity_defineIndex h rfl defined.live (isSome_of_indexable defined.columns)
  | dropIndex found => exact h.dropUnreferred (get_deleteIndex _ _ _) rfl (fun _ heq => by cases heq)
  | buildIndexSourceStep found => exact integrity_advanceBuild hv h found
  | registerDataFile fits => exact integrity_putFile hv h fits.stats rfl rfl
  | expireDataFile live stats =>
    exact integrity_putTableStats (hv.withoutDataFile _ _) (integrity_withoutDataFile hv h _ _)
      ((getElem?_tableStats_withoutDataFile _ _ _).trans stats) rfl
  | registerDeleteFile fits => exact integrity_putDeleteFile h fits
  | expireDeleteFile => exact h.dropUnreferred (get_deleteDeleteFile _ _ _) rfl (fun _ heq => by cases heq)
  | updateTableStats _ stats => exact integrity_putTableStats hv h stats rfl
  | updateColumnStats live table column =>
    refine h.putPlain rfl (fun k hk => ?_) (fun _ heq => by cases heq)
    obtain ⟨value, hvalue⟩ := Option.isSome_iff_exists.mp live
    obtain rfl := List.mem_singleton.mp hk
    rw [table]
    exact h.closed _ _ (get_column hvalue) _ List.mem_cons_self
  | createView live free id inSchema =>
    refine h.putPlain rfl (fun k hk => ?_) (fun _ heq => by cases heq)
    obtain rfl := List.mem_singleton.mp hk
    rw [inSchema, get_schema live]
    rfl
  | alterView live =>
    have hold := get_view live
    exact h.replace hold (hv _ _ hold).1 (fun k hk => .inl hk) rfl
  | dropView => exact h.dropUnreferred (get_deleteView _ _) rfl (fun _ heq => by cases heq)
  | createMacro live typed free id inSchema =>
    refine h.putPlain rfl (fun k hk => ?_) (fun _ heq => by cases heq)
    obtain rfl := List.mem_singleton.mp hk
    rw [inSchema, get_schema live]
    rfl
  | dropMacro => exact h.dropUnreferred (get_deleteMacro _ _) rfl (fun _ heq => by cases heq)
  | setOption | unsetOption => exact h.reoptioned
  | setTag _ retagged | removeTag _ retagged => exact h.retagged retagged
  | inlineInsert fits => exact integrity_putTableStats hv h fits.stats rfl
  | inlineDelete => exact h
  | flushInlinedData _ _ files =>
    have hflushed := integrity_flushed files hv h
    exact hflushed

theorem integrity_stopped {call : Call} (hv : tx.state.Sound) (h : Integrity specs tx.state.get)
    (hstop : Call.Partial tx call tx') : Integrity specs tx'.state.get := by
  cases hstop with
  | createIndex defined | createIndexOrderedWithMaintenance defined =>
    exact integrity_defineIndex h rfl defined.live (isSome_of_indexable defined.columns)
  | buildIndexSourceStep | removeTag | inlineDelete => exact h
  | registerDataFile fits => exact integrity_putFile hv h fits.stats rfl rfl
  | expireDataFile => exact integrity_withoutDataFile hv h _ _
  | registerDeleteFile fits => exact integrity_putDeleteFile h fits
  | inlineInsert fits => exact integrity_putTableStats hv h fits.stats rfl
  | flushInlinedData _ _ _ files _ idle =>
    obtain ⟨_, _, rfl⟩ := idle
    have hflushed := integrity_flushed files hv h
    exact hflushed

theorem get_deleteColumns (v : CatalogSnapshot) (t : Nat) (ids : List Nat) (k : CurrentKey) :
    (ids.foldl (fun v id => v.deleteColumn t id) v).get k =
      if ∃ id ∈ ids, k = .entity (.column t id) ∨ k = .entity (.tableColumnStats t id) then none else v.get k := by
  induction ids generalizing v with
  | nil => simp
  | cons id ids ih =>
    rw [List.foldl_cons, ih, get_deleteColumn]
    by_cases hid : k = .entity (.column t id) ∨ k = .entity (.tableColumnStats t id)
    · simp [hid]
    · simp [hid]

/-- Dropping a column with the fields beneath it keeps integrity, what specs name counted in, exactly if no partition
    spec of the table names one of them. -/
theorem integrity_dropColumns_iff (h : Integrity specs v.get) {c : Nat} {doomed : List Nat}
    (hdoomed : ∀ d, d ∈ doomed ↔ BeneathColumn v t c d) (hfree : ∀ d ∈ doomed, columnIsIndexed v t d = false) :
    Integrity specs (doomed.foldl (fun v id => v.deleteColumn t id) v).get ↔
      (specs → ∀ p spec, getNested v.partitions t p = some spec → ∀ key ∈ spec.columns,
        ¬ BeneathColumn v t c key.columnId) := by
  have hdrop := drop_of_ite (get_deleteColumns v t doomed)
  have hreferred : ∀ k : CurrentKey, k.referred →
      ((∃ id ∈ doomed, k = .entity (.column t id) ∨ k = .entity (.tableColumnStats t id)) ↔
        ∃ id ∈ doomed, k = .entity (.column t id)) := by
    intro k hk
    refine exists_congr fun id => and_congr_right fun _ => or_iff_left fun heq => ?_
    rw [heq] at hk
    cases hk
  constructor
  · intro hintegrity hcount p spec hspec key hkey hbeneath
    refine (h.closed.drop_iff hdrop).mp hintegrity.closed (.entity (.partition t p)) (.partition spec) ?_ ?_
      (.entity (.column t key.columnId)) (List.mem_cons_of_mem _ (List.mem_map_of_mem (by rwa [if_pos hcount]))) ?_
    · rintro ⟨id, -, heq | heq⟩ <;> cases heq
    · simp only [CatalogSnapshot.get, hspec, Option.map_some]
    · exact ⟨_, (hdoomed _).mpr hbeneath, .inl rfl⟩
  · intro hspecs
    refine h.drop hdrop (fun k r hk hr k' hk' hD => ?_) (fun t' ht' => ?_) ?_
    · obtain ⟨d, hd, rfl⟩ := (hreferred k' (referred_of_mem_refs hk')).mp hD
      rcases refers_column hk' with ⟨d', value, rfl, rfl, hparent⟩ | ⟨hcount, p, value, rfl, rfl, key, hkey, rfl⟩ |
        ⟨i, value, rfl, rfl, hmem⟩
      · -- A field beneath a dropped column is dropped with it.
        have hlive : getNested v.columns t d' = some value := by simpa [CatalogSnapshot.get] using hr
        exact hk ⟨d', (hdoomed d').mpr (((hdoomed d).mp hd).tail ⟨value, hlive, hparent⟩), .inl rfl⟩
      · exact hspecs hcount p value (by simpa [CatalogSnapshot.get] using hr) key hkey ((hdoomed _).mp hd)
      · -- Indexed columns are not dropped.
        have hindexed := hfree d hd
        simp only [columnIsIndexed, List.any_eq_false] at hindexed
        refine hindexed value (mem_getD_values.mpr ⟨i, by simpa [CatalogSnapshot.get] using hr⟩) ?_
        simpa using hmem
    · obtain ⟨id, -, heq | heq⟩ := ht' <;> cases heq
    · rintro ⟨id, -, heq | heq⟩ <;> cases heq

end Calls

/-! ## Single calls -/

/-- Dropping the column is accepted: it is live, no index names it or a field beneath it, and it is not the last
    top-level column. -/
structure Droppable (v : CatalogSnapshot) (t c : Nat) : Prop where
  live : ∃ value, getNested v.columns t c = some value ∧
    (value.parentColumn = none → 1 < ((columnsOf v t).filter (·.parentColumn.isNone)).length)
  free : ∀ d, BeneathColumn v t c d → columnIsIndexed v t d = false

/-- No partition spec of the table names the column or a field beneath it. -/
def Unpartitioned (v : CatalogSnapshot) (t c : Nat) : Prop :=
  ∀ p spec, getNested v.partitions t p = some spec → ∀ key ∈ spec.columns, ¬ BeneathColumn v t c key.columnId

section Single

variable {tx tx' : Transaction} {t c : Nat}

theorem droppable_of_run (hv : tx.state.Sound) (h : (Call.dropColumn t c).run tx = .ok () tx') :
    Droppable tx.state t c := by
  simp [Call.run, Transaction.dropColumn] at h
  obtain ⟨value, hlive, doomed, hdoomed, h⟩ := h
  cases hindexed : doomed.find? (columnIsIndexed tx.state t) with
  | some d => simp [hindexed] at h
  | none =>
    simp [hindexed] at h
    obtain ⟨hlast, -⟩ := h
    refine ⟨⟨value, hlive, fun hnone => by simpa [hnone] using hlast⟩, fun d hd => ?_⟩
    have hfree := List.find?_eq_none.mp hindexed d ((hv.mem_columnSubtree hdoomed).mpr hd)
    simpa using hfree

theorem run_of_droppable (hv : tx.state.Sound) (hbelow : ParentsBelow tx.state.get) (h : Droppable tx.state t c) :
    ∃ tx', (Call.dropColumn t c).run tx = .ok () tx' := by
  obtain ⟨⟨value, hlive, hlast⟩, hfree⟩ := h
  obtain ⟨doomed, hdoomed⟩ := Option.isSome_iff_exists.mp (hv.columnSubtree_isSome hbelow (by rw [hlive]; rfl))
  have hindexed : doomed.find? (columnIsIndexed tx.state t) = none := by
    refine List.find?_eq_none.mpr fun d hd => ?_
    rw [hfree d ((hv.mem_columnSubtree hdoomed).mp hd)]
    exact Bool.false_ne_true
  simp [Call.run, Transaction.dropColumn, hlive, hdoomed, hindexed]
  cases hparent : value.parentColumn with
  | none => simpa [hparent] using hlast
  | some p => simp

/-- What a call does to integrity: it keeps it, unless specs count and it drops a column that the table's partition
    spec names. -/
theorem integrity_after_iff (hv : tx.state.Sound) (hbelow : ParentsBelow tx.state.get)
    (h : Integrity specs tx.state.get)
    (call : Call) : Integrity specs (call.after tx).state.get ↔
      (specs → ∀ t c, call = .dropColumn t c → Droppable tx.state t c → Unpartitioned tx.state t c) := by
  by_cases hcall : ∃ t c, call = .dropColumn t c
  · obtain ⟨t, c, rfl⟩ := hcall
    unfold Call.after
    cases hrun : (Call.dropColumn t c).run tx with
    | ok u tx' =>
      have hdroppable := droppable_of_run hv hrun
      cases Call.effect_of_run _ hrun with
      | dropColumn live subtree free =>
        rw [integrity_dropColumns_iff h (fun d => hv.mem_columnSubtree subtree) free]
        refine ⟨fun hspec hcount t' c' heq _ => ?_, fun hall hcount => hall hcount t c rfl hdroppable⟩
        cases heq
        exact hspec hcount
    | error e tx' =>
      have hidle : Idle tx tx' := (Call.idle_or_stopped _ hrun).resolve_right fun hstop => by cases hstop
      obtain ⟨next, -, rfl⟩ := hidle
      refine iff_of_true h fun _ t' c' heq hdroppable => ?_
      cases heq
      obtain ⟨tx', hok⟩ := run_of_droppable hv hbelow hdroppable
      rw [hok] at hrun
      cases hrun
  · push Not at hcall
    refine iff_of_true ?_ fun _ t c heq => absurd heq (hcall t c)
    refine Call.after_of (p := fun tx' => Integrity specs tx'.state.get)
      (fun heffect => integrity_effect hv h heffect hcall) ?_
      (integrity_stopped hv h)
    rintro _ ⟨next, -, rfl⟩
    exact h

theorem parentsBelow_after (hv : tx.state.Sound) (h : ParentsBelow tx.state.get) (call : Call) :
    ParentsBelow (call.after tx).state.get := by
  intro t c value p hvalue hp
  have hkey := (sound_after hv call _ _ hvalue).1
  simp only [EntityRecord.key, CurrentKey.entity.injEq, EntityKey.column.injEq] at hkey
  rcases (evolves_after call hv).records _ _ hvalue with hold | ⟨-, hwritten⟩
  · exact h t c value p hold hp
  · rcases hwritten.parent value p rfl hp with hlt | ⟨value', hold, hp'⟩
    · exact hkey.2 ▸ hlt
    · rw [EntityRecord.key, hkey.1, hkey.2] at hold
      exact h t c value' p hold hp'

theorem fileStatsOwned_deleteTable_iff {v : CatalogSnapshot} (h : FileStatsOwned v.get) :
    FileStatsOwned (v.deleteTable t).get ↔ ∀ f c, getNested v.fileColumnStats t (f, c) = none := by
  have hstats : ∀ t' f c, (v.deleteTable t).get (.entity (.fileColumnStats t' f c)) =
      (getNested v.fileColumnStats t' (f, c)).map .fileColumnStats := by
    intro t' f c
    rw [get_deleteTable, if_neg (by simp [CurrentKey.dropsWith])]
    rfl
  constructor
  · intro howned f c
    by_contra hne
    have hlive := howned t f c (by rw [hstats, Option.isSome_map]; exact Option.isSome_iff_ne_none.mpr hne)
    rw [get_deleteTable, if_pos (by simp [CurrentKey.dropsWith])] at hlive
    cases hlive
  · intro hnone t' f c hsome
    have hne : t' ≠ t := by
      rintro rfl
      rw [hstats, hnone] at hsome
      cases hsome
    rw [get_deleteTable, if_neg (by simpa [CurrentKey.dropsWith] using hne)]
    exact h t' f c ((hstats t' f c).symm ▸ hsome)

/-- Dropping a live table leaves the statistics of its files, and no other call breaks their ownership. -/
theorem fileStatsOwned_after_iff (hv : tx.state.Sound) (h : FileStatsOwned tx.state.get) (call : Call) :
    FileStatsOwned (call.after tx).state.get ↔ ∀ t, call = .dropTable t → tx.state.tables[t]?.isSome →
      ∀ f c, getNested tx.state.fileColumnStats t (f, c) = none := by
  by_cases hcall : ∃ t, call = .dropTable t
  · obtain ⟨t, rfl⟩ := hcall
    unfold Call.after
    cases hrun : (Call.dropTable t).run tx with
    | ok u tx' =>
      cases Call.effect_of_run _ hrun with
      | dropTable live =>
        refine Iff.trans (fileStatsOwned_deleteTable_iff h) ⟨fun hnone t' heq _ => ?_, fun hall => hall t rfl live⟩
        cases heq
        exact hnone
    | error e tx' =>
      have hidle : Idle tx tx' := (Call.idle_or_stopped _ hrun).resolve_right fun hstop => by cases hstop
      obtain ⟨next, -, rfl⟩ := hidle
      refine iff_of_true h fun t' heq hlive => ?_
      cases heq
      obtain ⟨value, hvalue⟩ := Option.isSome_iff_exists.mp hlive
      have hok : ∃ tx', (Call.dropTable t).run tx = .ok () tx' := by simp [Call.run, Transaction.dropTable, hvalue]
      obtain ⟨tx', hok⟩ := hok
      rw [hok] at hrun
      cases hrun
  · push Not at hcall
    refine iff_of_true (fun t f c hstats => ?_) fun t heq => absurd heq (hcall t)
    have hevolves := evolves_after call hv
    refine hevolves.stays _ rfl (fun t' heq => absurd heq (hcall t')) ?_
    obtain ⟨r, hr⟩ := Option.isSome_iff_exists.mp hstats
    rcases hevolves.records _ _ hr with hold | ⟨hkey, hwritten⟩
    · exact h t f c (by rw [hold]; rfl)
    · exact hwritten.fileStats t f c hkey

end Single

/-! ## Runs -/

theorem blind_parentsBelow : Blind fun r => ParentsBelow r.records := by
  intro a b hpasses hbelow t c value p hvalue hp
  obtain ⟨poisoned, hrecords⟩ := hpasses.records
  rw [hrecords _ rfl] at hvalue
  obtain ⟨r, hr, heq⟩ := Option.map_eq_some_iff.mp hvalue
  exact hbelow t c value p (by rw [hr]; exact congrArg some heq) hp

theorem blind_integrity : Blind fun r => Integrity specs r.records := by
  intro a b hpasses hintegrity
  obtain ⟨poisoned, hrecords⟩ := hpasses.records
  refine hintegrity.passes ⟨poisoned, fun k hk => hrecords k ?_⟩
  rcases k with ⟨⟨⟩⟩ | _
  all_goals first | rfl | cases hk

theorem blind_fileStatsOwned : Blind fun r => FileStatsOwned r.records := by
  intro a b hpasses howned t f c hstats
  obtain ⟨poisoned, hrecords⟩ := hpasses.records
  rw [hrecords _ rfl, Option.isSome_map]
  exact howned t f c (hpasses.fileStats t f c hstats)

section Start

variable (micros : Int) (uuid : String) (encrypted : Bool) (dataPath : Option String)

theorem integrity_start : Integrity specs (Session.start micros uuid encrypted dataPath).tx.reading.records := by
  refine ⟨fun k r hr k' hk' => ?_, fun k k' r r' s hr hr' hs hs' => ?_, fun t ht => ?_,
    Session.start_main micros uuid encrypted dataPath⟩
  · rcases Session.start_records_cases micros uuid encrypted dataPath hr with ⟨rfl, _, rfl, -⟩ | ⟨rfl, _, rfl⟩ <;>
      cases hk'
  · rcases Session.start_records_cases micros uuid encrypted dataPath hr with ⟨rfl, _, rfl, -⟩ | ⟨rfl, _, rfl⟩ <;>
      cases hs
  · obtain ⟨r, hr⟩ := Option.isSome_iff_exists.mp ht
    rcases Session.start_records_cases micros uuid encrypted dataPath hr with ⟨heq, -⟩ | ⟨heq, -⟩ <;> cases heq

theorem parentsBelow_start : ParentsBelow (Session.start micros uuid encrypted dataPath).tx.reading.records := by
  intro t c value p hvalue
  rcases Session.start_records_cases micros uuid encrypted dataPath hvalue with ⟨heq, -⟩ | ⟨heq, -⟩ <;> cases heq

theorem fileStatsOwned_start : FileStatsOwned (Session.start micros uuid encrypted dataPath).tx.reading.records := by
  intro t f c hstats
  obtain ⟨r, hr⟩ := Option.isSome_iff_exists.mp hstats
  rcases Session.start_records_cases micros uuid encrypted dataPath hr with ⟨heq, -⟩ | ⟨heq, -⟩ <;> cases heq

end Start

/-- In every run of verbs, commits and retries from a new catalog the live records keep integrity, in the closure, in
    the batch and in what has landed. The columns that live partition specs name are live too exactly if no accepted
    drop of a column takes one that the table's spec names. And statistics of files belong to live tables exactly if no
    accepted drop of a table takes one that has such statistics. -/
theorem verbs_keep_integrity_iff (changes : List Operation → String × List Nat) (micros : Int) (uuid : String)
    (encrypted : Bool) (dataPath : Option String) (events : List SessionEvent) :
    Runs.Always (Session.step changes) (Session.Holds fun r => Integrity false r.records)
      (Session.start micros uuid encrypted dataPath) events ∧
    (Runs.Always (Session.step changes) (Session.Holds fun r => Integrity true r.records)
        (Session.start micros uuid encrypted dataPath) events ↔
      Runs.Throughout (Session.step changes)
        (fun s event => ∀ t c, event = .call (.dropColumn t c) → Droppable s.tx.state t c →
          Unpartitioned s.tx.state t c)
        (Session.start micros uuid encrypted dataPath) events) ∧
    (Runs.Always (Session.step changes) (Session.Holds fun r => FileStatsOwned r.records)
        (Session.start micros uuid encrypted dataPath) events ↔
      Runs.Throughout (Session.step changes)
        (fun s event => ∀ t, event = .call (.dropTable t) → s.tx.state.tables[t]?.isSome →
          ∀ f c, getNested s.tx.state.fileColumnStats t (f, c) = none)
        (Session.start micros uuid encrypted dataPath) events) := by
  have hiff : ∀ specs, Runs.Always (Session.step changes) (Session.Holds fun r => Integrity specs r.records)
      (Session.start micros uuid encrypted dataPath) events ↔ _ := fun specs =>
    Session.always_holds_iff blind_parentsBelow (fun tx call hv h => parentsBelow_after hv h call) micros uuid encrypted
      dataPath (parentsBelow_start micros uuid encrypted dataPath) blind_integrity
      (fun tx call hv hbelow h => integrity_after_iff hv hbelow h call)
      (integrity_start micros uuid encrypted dataPath) events
  refine ⟨(hiff false).mpr (Runs.throughout_of_forall fun s event call _ hcount => by cases hcount),
    (hiff true).trans ?_, ?_⟩
  · refine Runs.throughout_congr fun s event => ⟨fun h t c heq => h _ heq rfl t c rfl, ?_⟩
    rintro h _ rfl - t c rfl
    exact h t c rfl
  · refine (Session.always_holds_iff (J := fun _ => True) (fun _ _ _ _ => trivial) (fun _ _ _ _ => trivial) micros uuid
      encrypted dataPath trivial blind_fileStatsOwned (fun tx call hv _ h => fileStatsOwned_after_iff hv h call)
      (fileStatsOwned_start micros uuid encrypted dataPath) events).trans ?_
    refine Runs.throughout_congr fun s event => ⟨fun h t heq => h _ heq t rfl, ?_⟩
    rintro h _ rfl t rfl
    exact h t rfl

section Dangling

/-- A new catalog in which a table of two columns has been created. -/
private def twoColumns : Transaction :=
  (Call.createTable 0 "t" [.mk "a" "BIGINT" true none [], .mk "b" "BIGINT" true none []] "").after
    (Session.start 0 "" false none).tx

private theorem twoColumns_unpartitioned : livePartitionId twoColumns.state 1 = none := by
  rw [livePartitionId, Std.ExtTreeMap.minKey?_eq_head?_keys]
  decide +kernel

/-- The table can be partitioned by its first column. -/
private theorem twoColumns_partitioned : ∃ spec : PartitionValue,
    ((Call.setPartitioning 1 [⟨1, "identity"⟩]).after twoColumns).state =
      twoColumns.state.putRecord (.partition spec) ∧ spec.tableId = 1 ∧
        spec.columns.map PartitionColumn.columnId = [1] := by
  have hrun : ∃ tx', (Call.setPartitioning 1 [⟨1, "identity"⟩]).run twoColumns = .ok () tx' := by
    simp [Call.run, Call.ignore, Transaction.setPartitioning, twoColumns_unpartitioned, partitionColumnsLive]
    simp only [← Option.isSome_iff_exists]
    decide +kernel
  obtain ⟨tx', hrun⟩ := hrun
  have hafter : (Call.setPartitioning 1 [⟨1, "identity"⟩]).after twoColumns = tx' := by rw [Call.after, hrun]
  rw [hafter]
  cases Call.effect_of_run _ hrun with
  | @setPartitioning _ _ spec live columnsLive id table named =>
    exact ⟨spec, by simp only [Call.withoutPartition, twoColumns_unpartitioned], table, named⟩

/-- A table of two columns, partitioned by the first, and the first dropped: the spec names a column that is gone. -/
theorem dropped_partition_column_dangles :
    ¬ Runs.Always (Session.step fun _ => ("", [])) (Session.Holds fun r => Integrity true r.records)
      (Session.start 0 "" false none)
      [.call (.createTable 0 "t" [.mk "a" "BIGINT" true none [], .mk "b" "BIGINT" true none []] ""),
       .call (.setPartitioning 1 [⟨1, "identity"⟩]), .call (.dropColumn 1 1)] := by
  intro h
  obtain ⟨spec, hstate, htable, hnamed⟩ := twoColumns_partitioned
  have hpartitioned := (h.2 _ rfl).2 _ rfl
  have hstart := (Session.inv_start 0 "" false none).grown.sound
  have hsound : twoColumns.state.Sound := sound_after hstart _
  have hbelow : ParentsBelow twoColumns.state.get := parentsBelow_after hstart (parentsBelow_start 0 "" false none) _
  have hdropped := (integrity_after_iff (sound_after hsound _) (parentsBelow_after hsound hbelow _) hpartitioned.1.tx
    (.dropColumn 1 1)).mp (hpartitioned.2 _ rfl).tx rfl 1 1 rfl
  rw [hstate] at hdropped
  have hdroppable : Droppable (twoColumns.state.putRecord (.partition spec)) 1 1 := by
    have hlive : (getNested twoColumns.state.columns 1 1).isSome := by decide +kernel
    have hindexes : (twoColumns.state.indexes.getD 1 ∅).values.length = 0 := by decide +kernel
    obtain ⟨value, hvalue⟩ := Option.isSome_iff_exists.mp hlive
    refine ⟨⟨value, hvalue, fun _ => ?_⟩, fun d _ => ?_⟩
    · have hrest : 1 < ((columnsOf twoColumns.state 1).filter (·.parentColumn.isNone)).length := by decide +kernel
      exact hrest
    · have hnone := List.length_eq_zero_iff.mp hindexes
      change (twoColumns.state.indexes.getD 1 ∅).values.any (·.columnIds.contains d) = false
      rw [hnone]
      rfl
  obtain ⟨key, hkey, hid⟩ : ∃ key ∈ spec.columns, key.columnId = 1 := by
    rw [← List.mem_map, hnamed]
    exact List.mem_singleton_self 1
  refine hdropped hdroppable spec.partitionId spec ?_ key hkey (hid ▸ .refl)
  simp [CatalogSnapshot.putRecord, putPartition, htable]

end Dangling

end Moraine
