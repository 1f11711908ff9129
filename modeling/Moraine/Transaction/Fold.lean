-- SUMMARY: Folding a committed batch into a held view, and when the result is the rebuilt view.
import Moraine.Store.Store

/-!
# Folding a batch forward

`foldBatch` applies the writes of a committed batch to the view held before it, one key at a time and
without cascades. Its effect on what a view shows is `applyCurrent` on the batch's `current` writes.
`same_applyCurrent_iff` compares the result with a view rebuilt from the store: the records always
agree, and the name lookups agree exactly when the batch settles every name.
-/

namespace Moraine

open NameIndex OrdMap

namespace CatalogSnapshot

/-- The refusal of a mapping deletion. -/
def mappingDeletion : Error :=
  .corruption "column-mapping deletion is unexpected; mappings are immutable"

/-- Removes exactly the entity at one `current` key, keeping the name indexes coherent but cascading to
    nothing. -/
def removeEntity (v : CatalogSnapshot) : EntityKey → Except Error CatalogSnapshot
  | .schema s => .ok (v.removeSchemaOnly s)
  | .table t => .ok (v.removeTableOnly t)
  | .view w => .ok (v.deleteView w)
  | .column t c => .ok (v.removeColumnOnly t c)
  | .file t f => .ok (v.deleteDataFile t f)
  | .deleteFile t d => .ok (v.deleteDeleteFile t d)
  | .partition t p => .ok (v.deletePartition t p)
  | .sort t s => .ok (v.deleteSort t s)
  | .macroDef m => .ok (v.deleteMacro m)
  | .index t i => .ok (v.deleteIndex t i)
  | .fileColumnStats t f c => .ok (v.removeFileColumnStats t f c)
  | .tableStats t => .ok (v.removeTableStats t)
  | .tableColumnStats t c => .ok (v.removeTableColumnStats t c)
  | .option k s => .ok (v.removeOptionRecord (k, s))
  | .tag o => .ok (v.removeTag o)
  | .mapping _ _ => .error mappingDeletion

/-- The fold's running state: the view, the head it has read and the snapshot record it has read. -/
structure FoldState where
  view : CatalogSnapshot
  newHead : Option Nat := none
  minted : Option SnapshotValue := none

/-- One write of the batch. History mirrors, schema versions and changelogs do not appear in the head
    view; an expiry's snapshot deletions leave its entities untouched. -/
def foldWrite (st : FoldState) : StagedWrite → Except Error FoldState
  | .current (.entity _) (some record) => .ok { st with view := st.view.putRecord record }
  | .current (.entity entity) none => do return { st with view := ← st.view.removeEntity entity }
  | .current (.gcFile _) (some record) => .ok { st with view := st.view.putRecord record }
  | .current (.gcFile f) none => .ok { st with view := st.view.removeGcFile f }
  | .snapshot _ value => .ok { st with minted := value <|> st.minted }
  | .head value =>
    .ok { st with newHead := some value.snapshotId, view := { st.view with batchSeq := value.batchSeq } }
  | .history .. | .schemaVersion .. | .changelog .. => .ok st

/-- Folds one committed batch into `view`, advancing it to the batch's head. The minted snapshot's
    metadata is adopted only when it is the new head. -/
def foldBatch (view : CatalogSnapshot) (writes : List StagedWrite) : Except Error CatalogSnapshot := do
  let st ← writes.foldlM foldWrite { view := view }
  match st.newHead, st.minted with
  | some head, some snapshot =>
    return if snapshot.snapshotId = head then { st.view with snapshot := snapshot } else st.view
  | _, _ => return st.view

/-! ## The effect of a batch on what a view shows -/

/-- The `current` writes of a batch, in order. -/
def currentWrites (writes : List StagedWrite) : List (CurrentKey × Option EntityRecord) :=
  writes.filterMap fun
    | .current key value => some (key, value)
    | _ => none

theorem currentWrites_sublist {ws ws' : List StagedWrite} (h : ws.Sublist ws') :
    (currentWrites ws).Sublist (currentWrites ws') :=
  h.filterMap _

theorem currentWrites_cons (w : StagedWrite) (ws : List StagedWrite) :
    currentWrites (w :: ws) = currentWrites [w] ++ currentWrites ws := by
  cases w <;> rfl

theorem currentWrites_append (us ws : List StagedWrite) :
    currentWrites (us ++ ws) = currentWrites us ++ currentWrites ws :=
  List.filterMap_append

/-- A batch's effect on the `current` subspace is that of its `current` writes. -/
theorem applyBatch_current (s : Store) (writes : List StagedWrite) :
    (s.applyBatch writes).current = setKeys s.current (currentWrites writes) := by
  induction writes generalizing s with
  | nil => rfl
  | cons w ws ih =>
    rw [Store.applyBatch_cons, ih, currentWrites_cons, setKeys, setKeys, List.foldl_append]
    cases w <;> rfl

/-- One `current` write on a view; the refused deletion of a column mapping leaves it alone. -/
def applyCurrentWrite (v : CatalogSnapshot) : CurrentKey × Option EntityRecord → CatalogSnapshot
  | (_, some record) => v.putRecord record
  | (.entity entity, none) => (v.removeEntity entity).toOption.getD v
  | (.gcFile f, none) => v.removeGcFile f

def applyCurrent (v : CatalogSnapshot) (cws : List (CurrentKey × Option EntityRecord)) : CatalogSnapshot :=
  cws.foldl applyCurrentWrite v

/-- The write deletes a column mapping, which the fold refuses. -/
def isMappingDelete : CurrentKey × Option EntityRecord → Bool
  | (.entity (.mapping _ _), none) => true
  | _ => false

theorem isMappingDelete_put (k : CurrentKey) (r : EntityRecord) : isMappingDelete (k, some r) = false := by
  rcases k with e | f
  · cases e <;> rfl
  · rfl

/-- Only the deletion of a mapping is refused. -/
theorem eq_mapping_of_isMappingDelete {k : CurrentKey} {value : Option EntityRecord}
    (h : isMappingDelete (k, value) = true) : ∃ t m, k = .entity (.mapping t m) ∧ value = none := by
  cases value with
  | some r => rw [isMappingDelete_put] at h; cases h
  | none =>
    rcases k with (_ | _ | _ | _ | _ | _ | _ | _ | _ | _ | _ | _ | _ | _ | ⟨t, m⟩ | _) | _
    case entity.mapping => exact ⟨t, m, rfl, rfl⟩
    all_goals cases h

section Lemmas

variable (v : CatalogSnapshot)

theorem get_remove {k : CurrentKey} (hk : isMappingDelete (k, none) = false) (k' : CurrentKey) :
    (v.applyCurrentWrite (k, none)).get k' = if k' = k then none else v.get k' := by
  rcases k with (s | t | w | _ | _ | _ | _ | _ | _ | _ | _ | _ | _ | m | _ | ⟨t, i⟩) | _
  case entity.mapping => cases hk
  case entity.schema =>
    cases h : v.schemas[s]? <;>
      rcases k' with ⟨⟨⟩⟩ | _ <;>
      simp [applyCurrentWrite, removeEntity, removeSchemaOnly, get, h, map_ite, Except.toOption]
    rintro rfl
    simpa using h
  case entity.index =>
    cases h : getNested v.indexes t i <;>
      rcases k' with ⟨⟨⟩⟩ | _ <;>
      simp [applyCurrentWrite, removeEntity, deleteIndex, get, h, map_ite, Except.toOption]
    rintro rfl rfl
    simp [h]
  all_goals
    rcases k' with ⟨⟨⟩⟩ | _ <;>
    simp [applyCurrentWrite, removeEntity, removeTableOnly, deleteView, removeColumnOnly,
      deleteDataFile, deleteDeleteFile, deletePartition, deleteSort, deleteMacro, removeFileColumnStats,
      removeTableStats, removeTableColumnStats, removeOptionRecord, removeTag, removeGcFile, get,
      map_ite, Except.toOption]

theorem owner_remove {k : CurrentKey} (hk : isMappingDelete (k, none) = false) (n : NameKey) :
    (v.applyCurrentWrite (k, none)).owner n =
      if (v.get k).bind EntityRecord.nameKey = some n then none else v.owner n := by
  have hmap : ∀ {α β γ : Type} (f : α → β) (g : β → Option γ) (x : Option α),
      (x.map f).bind g = x.bind fun a => g (f a) := fun f g x => by cases x <;> rfl
  rcases k with (s | t | w | _ | _ | _ | _ | _ | _ | _ | _ | _ | _ | m | _ | ⟨t, i⟩) | _
  case entity.mapping => cases hk
  case entity.schema =>
    cases h : v.schemas[s]? <;> cases n <;>
      simp [applyCurrentWrite, removeEntity, removeSchemaOnly, get, owner, h, map_ite, Except.toOption,
        EntityRecord.nameKey, eq_comm]
  case entity.table =>
    cases h : v.tables[t]? <;> cases n <;>
      simp [applyCurrentWrite, removeEntity, removeTableOnly, get, owner, h, map_ite, Except.toOption,
        EntityRecord.nameKey]
  case entity.view =>
    cases h : v.views[w]? <;> cases n <;>
      simp [applyCurrentWrite, removeEntity, deleteView, get, owner, h, map_ite, Except.toOption,
        EntityRecord.nameKey]
  case entity.macroDef =>
    cases h : v.macros[m]? <;> cases n <;>
      simp [applyCurrentWrite, removeEntity, deleteMacro, get, owner, h, map_ite, Except.toOption,
        EntityRecord.nameKey]
  case entity.index =>
    cases h : getNested v.indexes t i <;> cases n <;>
      simp [applyCurrentWrite, removeEntity, deleteIndex, get, owner, h, map_ite, Except.toOption,
        EntityRecord.nameKey, scopedName, removeScopedName, eq_comm]
  all_goals
    cases n <;> simp [applyCurrentWrite, removeEntity, removeColumnOnly, deleteDataFile, deleteDeleteFile,
      deletePartition, deleteSort, removeFileColumnStats, removeTableStats, removeTableColumnStats,
      removeOptionRecord, removeTag, removeGcFile, get, owner, Except.toOption, EntityRecord.nameKey, hmap]

/-- A `current` write is one write of the directory. -/
theorem directory_applyCurrentWrite {w : CurrentKey × Option EntityRecord}
    (hkeyed : ∀ r, w.2 = some r → r.key = w.1) (hmap : isMappingDelete w = false) :
    (v.applyCurrentWrite w).directory = v.directory.write w.1 (w.2.bind EntityRecord.nameKey) := by
  obtain ⟨k, _ | r⟩ := w
  · simp only [directory, Directory.write, Directory.mk.injEq]
    refine ⟨funext fun k' => ?_, funext fun n => ?_⟩
    · by_cases hk : k' = k
      · simp [get_remove v hmap, hk]
      · simp [get_remove v hmap, hk]
    · rw [if_neg (by simp)]
      exact owner_remove v hmap n
  · obtain rfl : r.key = k := hkeyed r rfl
    exact directory_putRecord v r

theorem get_applyCurrentWrite {w : CurrentKey × Option EntityRecord}
    (hkeyed : ∀ r, w.2 = some r → r.key = w.1) (hmap : isMappingDelete w = false) (k : CurrentKey) :
    (v.applyCurrentWrite w).get k = if k = w.1 then w.2 else v.get k := by
  obtain ⟨k', _ | r⟩ := w
  · exact get_remove v hmap k
  · obtain rfl : r.key = k' := hkeyed r rfl
    exact get_putRecord v r k

end Lemmas

/-! ## A whole batch of `current` writes -/

/-- The `current` writes of a batch that a fold can apply: each key is written once, a record goes under
    the key its own ids name, and no column mapping is deleted. -/
structure Foldable (cws : List (CurrentKey × Option EntityRecord)) : Prop where
  nodup : (cws.map Prod.fst).Nodup
  keyed : ∀ w ∈ cws, ∀ r, w.2 = some r → r.key = w.1
  noMappingDelete : ∀ w ∈ cws, isMappingDelete w = false

/-- The batch as writes of a name directory. -/
def nameWrites (cws : List (CurrentKey × Option EntityRecord)) : List (CurrentKey × Option NameKey) :=
  cws.map fun w => (w.1, w.2.bind EntityRecord.nameKey)

section Batch

variable {v : CatalogSnapshot} {cws : List (CurrentKey × Option EntityRecord)}

theorem Foldable.tail {w : CurrentKey × Option EntityRecord} (h : Foldable (w :: cws)) : Foldable cws where
  nodup := (List.nodup_cons.mp h.nodup).2
  keyed w' hw' := h.keyed w' (List.mem_cons_of_mem _ hw')
  noMappingDelete w' hw' := h.noMappingDelete w' (List.mem_cons_of_mem _ hw')

theorem directory_applyCurrent (h : Foldable cws) :
    (v.applyCurrent cws).directory = v.directory.run (nameWrites cws) := by
  induction cws generalizing v with
  | nil => rfl
  | cons w cws ih =>
    have hw := directory_applyCurrentWrite v (h.keyed w (by simp)) (h.noMappingDelete w (by simp))
    rw [applyCurrent, List.foldl_cons, ← applyCurrent, ih h.tail, hw]
    rfl

theorem get_applyCurrent_of_not_mem (h : Foldable cws) {k : CurrentKey} (hk : k ∉ cws.map Prod.fst) :
    (v.applyCurrent cws).get k = v.get k := by
  induction cws generalizing v with
  | nil => rfl
  | cons w cws ih =>
    simp only [List.map_cons, List.mem_cons, not_or] at hk
    have hw := get_applyCurrentWrite v (h.keyed w (by simp)) (h.noMappingDelete w (by simp)) k
    rw [applyCurrent, List.foldl_cons, ← applyCurrent, ih h.tail hk.2, hw, if_neg hk.1]

theorem get_applyCurrent_of_mem (h : Foldable cws) {w : CurrentKey × Option EntityRecord} (hw : w ∈ cws) :
    (v.applyCurrent cws).get w.1 = w.2 := by
  induction cws generalizing v with
  | nil => cases hw
  | cons w' cws ih =>
    rw [applyCurrent, List.foldl_cons, ← applyCurrent]
    rcases List.mem_cons.mp hw with rfl | hw
    · have hget := get_applyCurrentWrite v (h.keyed w (by simp)) (h.noMappingDelete w (by simp)) w.1
      rw [get_applyCurrent_of_not_mem h.tail (List.nodup_cons.mp h.nodup).1, hget, if_pos rfl]
    · exact ih h.tail hw

theorem WellKeyed.applyCurrent (hv : v.WellKeyed) (h : Foldable cws) : (v.applyCurrent cws).WellKeyed := by
  intro k r hr
  by_cases hk : k ∈ cws.map Prod.fst
  · obtain ⟨w, hw, rfl⟩ := List.mem_map.mp hk
    rw [get_applyCurrent_of_mem h hw] at hr
    exact h.keyed w hw r hr
  · rw [get_applyCurrent_of_not_mem h hk] at hr
    exact hv k r hr

/-- Name lookups of views whose links all hold tell the links apart. -/
theorem same_iff {w : CatalogSnapshot} (hv : v.WellKeyed) (hw : w.WellKeyed) (hlv : v.directory.Linked)
    (hlw : w.directory.Linked) (hget : ∀ k, v.get k = w.get k) :
    v.Same w ↔ ∀ n, v.owner n = w.owner n := by
  have hrec : ∀ {u : CatalogSnapshot}, u.WellKeyed → u.directory.Linked → ∀ {n k}, u.owner n = some k →
      ∃ r, u.byName n = some r ∧ r.key = k := by
    intro u hu hlu n k hk
    have hheld := hlu n k hk
    obtain ⟨r, hr, -⟩ := Option.bind_eq_some_iff.mp hheld
    exact ⟨r, by rw [byName, hk, Option.bind_some, hr], hu k r hr⟩
  have hnone : ∀ {u : CatalogSnapshot} {n}, u.owner n = none → u.byName n = none := by
    intro u n h
    rw [byName, h, Option.bind_none]
  constructor
  · intro hsame n
    cases hov : v.owner n with
    | some k =>
      obtain ⟨r, hr, rfl⟩ := hrec hv hlv hov
      cases how : w.owner n with
      | some k' =>
        obtain ⟨r', hr', rfl⟩ := hrec hw hlw how
        rw [hsame.byName, hr', Option.some.injEq] at hr
        rw [hr]
      | none => rw [hsame.byName, hnone how] at hr; cases hr
    | none =>
      cases how : w.owner n with
      | some k' =>
        obtain ⟨r', hr', -⟩ := hrec hw hlw how
        rw [← hsame.byName, hnone hov] at hr'
        cases hr'
      | none => rfl
  · intro howner
    refine ⟨hget, fun n => ?_⟩
    rw [byName, byName, howner]
    cases w.owner n with
    | some k => exact hget k
    | none => rfl

/-- The folded view agrees with a rebuilt one exactly when the batch settles every name, provided the
    rebuilt view shows the same records. -/
theorem same_applyCurrent_iff {w : CatalogSnapshot} (hv : v.WellKeyed) (hw : w.WellKeyed)
    (hfv : v.directory.Faithful) (hfw : w.directory.Faithful) (hfin : {k | v.directory.held k ≠ none}.Finite)
    (h : Foldable cws) (hord : v.directory.InOrder (nameWrites cws))
    (hget : ∀ k, (v.applyCurrent cws).get k = w.get k) :
    (v.applyCurrent cws).Same w ↔ v.directory.Settled (nameWrites cws) := by
  have hnd : ((nameWrites cws).map Prod.fst).Nodup := by
    simpa [nameWrites, List.map_map, Function.comp_def] using h.nodup
  have hdir := directory_applyCurrent (v := v) h
  have hheld : ∀ k, (v.applyCurrent cws).directory.held k = w.directory.held k := by
    intro k
    simp only [directory, hget k]
  rw [same_iff (hv.applyCurrent h) hw (hdir ▸ hfv.linked.run _) hfw.linked hget,
    ← Directory.faithful_run_iff hfv hfin hnd hord, ← hdir]
  constructor
  · intro howner n i
    have := hfw n i
    rw [← show (v.applyCurrent cws).directory.owner n = w.directory.owner n from howner n] at this
    simpa only [hheld] using this
  · exact fun hf n => hf.owner_eq hfw hheld n

end Batch

/-! ## The fold is the batch's `current` writes -/

/-- Stamping a view and writing to it commute. -/
theorem applyCurrentWrite_batchSeq (v : CatalogSnapshot) (b : Nat) (w : CurrentKey × Option EntityRecord) :
    CatalogSnapshot.applyCurrentWrite { v with batchSeq := b } w =
      { v.applyCurrentWrite w with batchSeq := b } := by
  obtain ⟨k, _ | r⟩ := w
  · rcases k with (s | _ | _ | _ | _ | _ | _ | _ | _ | _ | _ | _ | _ | _ | _ | ⟨t, i⟩) | _
    case entity.schema =>
      cases h : v.schemas[s]? <;>
        simp [applyCurrentWrite, removeEntity, removeSchemaOnly, h, Except.toOption]
    case entity.index =>
      cases h : getNested v.indexes t i <;>
        simp [applyCurrentWrite, removeEntity, deleteIndex, h, Except.toOption]
    all_goals rfl
  · cases r <;> rfl

theorem applyCurrent_batchSeq (v : CatalogSnapshot) (b : Nat) (cws : List (CurrentKey × Option EntityRecord)) :
    CatalogSnapshot.applyCurrent { v with batchSeq := b } cws = { v.applyCurrent cws with batchSeq := b } := by
  induction cws generalizing v with
  | nil => rfl
  | cons w cws ih =>
    rw [applyCurrent, List.foldl_cons, applyCurrentWrite_batchSeq, ← applyCurrent, ih]
    rfl

theorem applyCurrentWrite_of_removeEntity {v v' : CatalogSnapshot} {e : EntityKey}
    (h : v.removeEntity e = .ok v') : v.applyCurrentWrite (.entity e, none) = v' := by
  simp [applyCurrentWrite, h, Except.toOption]

theorem removeEntity_eq (v : CatalogSnapshot) {e : EntityKey}
    (h : isMappingDelete (.entity e, none) = false) :
    v.removeEntity e = .ok (v.applyCurrentWrite (.entity e, none)) := by
  cases e
  case mapping => cases h
  all_goals rfl

/-- One write either goes to the view or leaves its records alone. -/
theorem foldWrite_eq_ok {w : StagedWrite} (st : FoldState)
    (h : ∀ u ∈ currentWrites [w], isMappingDelete u = false) :
    ∃ st', foldWrite st w = .ok st' ∧
      ∃ b, st'.view = { st.view.applyCurrent (currentWrites [w]) with batchSeq := b } := by
  match w, h with
  | .current (.entity e) none, h =>
    refine ⟨{ st with view := st.view.applyCurrentWrite (.entity e, none) }, ?_, _, rfl⟩
    have hrem := removeEntity_eq st.view (h (.entity e, none) (by simp [currentWrites]))
    simp [foldWrite, hrem, bind, Except.bind, pure, Except.pure]
  | .current (.entity e) (some r), _ => exact ⟨_, rfl, _, rfl⟩
  | .current (.gcFile f) none, _ => exact ⟨_, rfl, _, rfl⟩
  | .current (.gcFile f) (some r), _ => exact ⟨_, rfl, _, rfl⟩
  | .snapshot _ value, _ => exact ⟨_, rfl, _, rfl⟩
  | .head value, _ => exact ⟨_, rfl, _, rfl⟩
  | .history .., _ => exact ⟨_, rfl, _, rfl⟩
  | .schemaVersion .., _ => exact ⟨_, rfl, _, rfl⟩
  | .changelog .., _ => exact ⟨_, rfl, _, rfl⟩

/-- A batch without a mapping deletion folds, and the fold's view is that of its `current` writes. -/
theorem foldlM_foldWrite_eq_ok {writes : List StagedWrite} (st : FoldState)
    (h : ∀ w ∈ currentWrites writes, isMappingDelete w = false) :
    ∃ st', writes.foldlM foldWrite st = .ok st' ∧
      ∃ b, st'.view = { st.view.applyCurrent (currentWrites writes) with batchSeq := b } := by
  induction writes generalizing st with
  | nil => exact ⟨st, rfl, st.view.batchSeq, rfl⟩
  | cons w ws ih =>
    rw [currentWrites_cons] at h
    obtain ⟨st₁, hst₁, b₁, hview₁⟩ := foldWrite_eq_ok st fun u hu => h u (List.mem_append_left _ hu)
    obtain ⟨st', hst', b, hview⟩ := ih st₁ fun u hu => h u (List.mem_append_right _ hu)
    refine ⟨st', by simp [List.foldlM_cons, hst₁, hst', bind, Except.bind], b, ?_⟩
    rw [hview, hview₁, applyCurrent_batchSeq, currentWrites_cons w ws]
    simp [applyCurrent]

/-- What `foldBatch` returns, up to the snapshot metadata and the batch count it stamps. -/
theorem foldBatch_eq_ok {writes : List StagedWrite} (v : CatalogSnapshot)
    (h : ∀ w ∈ currentWrites writes, isMappingDelete w = false) :
    ∃ snapshot batchSeq, v.foldBatch writes =
      .ok { v.applyCurrent (currentWrites writes) with snapshot := snapshot, batchSeq := batchSeq } := by
  obtain ⟨st, hst, b, hview⟩ := foldlM_foldWrite_eq_ok { view := v } h
  have hfold : v.foldBatch writes = .ok st.view ∨
      ∃ snapshot, v.foldBatch writes = .ok { st.view with snapshot := snapshot } := by
    simp only [foldBatch, hst, bind, Except.bind, pure, Except.pure]
    split
    · split
      · exact .inr ⟨_, rfl⟩
      · exact .inl rfl
    · exact .inl rfl
  rcases hfold with hfold | ⟨snapshot, hfold⟩
  · exact ⟨_, b, by rw [hfold, hview]⟩
  · exact ⟨snapshot, b, by rw [hfold, hview]⟩

private theorem eq_of_isMappingDelete {w : StagedWrite} {u : CurrentKey × Option EntityRecord}
    (hu : u ∈ currentWrites [w]) (hdel : isMappingDelete u = true) :
    ∃ t m, w = .current (.entity (.mapping t m)) none := by
  cases w with
  | current k value =>
    obtain rfl : u = (k, value) := by simpa [currentWrites] using hu
    obtain ⟨t, m, rfl, rfl⟩ := eq_mapping_of_isMappingDelete hdel
    exact ⟨t, m, rfl⟩
  | _ => cases hu

/-- A mapping deletion anywhere in the batch fails the whole fold. -/
theorem foldBatch_eq_error {writes : List StagedWrite} (v : CatalogSnapshot)
    (h : ∃ w ∈ currentWrites writes, isMappingDelete w = true) :
    v.foldBatch writes = .error mappingDeletion := by
  suffices hfold : ∀ st : FoldState, writes.foldlM foldWrite st = .error mappingDeletion by
    simp [foldBatch, hfold, bind, Except.bind]
  induction writes with
  | nil =>
    obtain ⟨w, hw, -⟩ := h
    cases hw
  | cons w ws ih =>
    intro st
    rw [List.foldlM_cons]
    by_cases hw : ∃ u ∈ currentWrites [w], isMappingDelete u = true
    · -- This write is the deletion.
      obtain ⟨u, hu, hdel⟩ := hw
      obtain ⟨t, m, rfl⟩ := eq_of_isMappingDelete hu hdel
      rfl
    · obtain ⟨st₁, hst₁, -⟩ := foldWrite_eq_ok (w := w) st fun u hu => by
        simpa using fun hdel => hw ⟨u, hu, hdel⟩
      obtain ⟨u, hu, hdel⟩ := h
      rw [currentWrites_cons, List.mem_append] at hu
      have hu' := hu.resolve_left fun hu => hw ⟨u, hu, hdel⟩
      simp [hst₁, bind, Except.bind, ih ⟨u, hu', hdel⟩ st₁]

theorem byName_stamp (v : CatalogSnapshot) (snapshot : SnapshotValue) (batchSeq : Nat) (n : NameKey) :
    CatalogSnapshot.byName { v with snapshot := snapshot, batchSeq := batchSeq } n = v.byName n := by
  cases n <;> simp only [byName, owner] <;> congr 1

/-- The stamps of a view do not matter to what it shows. -/
theorem same_stamp_iff {v w : CatalogSnapshot} {snapshot : SnapshotValue} {batchSeq : Nat} :
    CatalogSnapshot.Same { v with snapshot := snapshot, batchSeq := batchSeq } w ↔ v.Same w := by
  constructor
  · intro h
    exact ⟨fun k => (get_stamp v snapshot batchSeq k).symm.trans (h.get k),
      fun n => (byName_stamp v snapshot batchSeq n).symm.trans (h.byName n)⟩
  · intro h
    exact ⟨fun k => (get_stamp v snapshot batchSeq k).trans (h.get k),
      fun n => (byName_stamp v snapshot batchSeq n).trans (h.byName n)⟩

end CatalogSnapshot

/-- A batch that goes by its records' own ids keeps the store keyed by them. -/
theorem Store.WellKeyed.applyBatch {s : Store} {writes : List StagedWrite} (hs : s.WellKeyed)
    (h : CatalogSnapshot.Foldable (CatalogSnapshot.currentWrites writes)) : (s.applyBatch writes).WellKeyed := by
  intro k r hr
  rw [CatalogSnapshot.applyBatch_current] at hr
  by_cases hk : k ∈ (CatalogSnapshot.currentWrites writes).map Prod.fst
  · obtain ⟨w, hw, rfl⟩ := List.mem_map.mp hk
    rw [getElem?_setKeys_of_mem h.nodup hw] at hr
    exact h.keyed w hw r hr
  · rw [getElem?_setKeys_of_not_mem hk] at hr
    exact hs k r hr

end Moraine
