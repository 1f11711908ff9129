-- SUMMARY: The diff carries a store's records from the base view to the staged one, but for some statistics.
import Moraine.Transaction.DiffExact
import Moraine.Transaction.StagedRows.Effects

/-!
# The diff writes the whole change

The states a commit diffs are those that verbs or accepted staged rows make of its base view. No such state has
lost a column mapping, so of the changes the diff leaves out only one sort remains: column statistics of a data
file that neither view lists. Without these, applying the diff to the records of the base view gives the records
of the staged one, and mirrors each ended version.
-/

namespace Moraine

open Std (ExtTreeMap)
open OrdMap CatalogSnapshot

/-- A state that a commit on `base` diffs: from verbs, from the rows of a batch with a snapshot row, or from those
    of a batch without one. -/
inductive StagedFrom (base : CatalogSnapshot) : CatalogSnapshot → Prop where
  | verbs {newSnapshot : Nat} {calls : List (Call × Bool)} {tx : Transaction} (poisoned : List Nat)
      (run : Call.runClosure calls (.new base newSnapshot) = .ok () tx) :
      StagedFrom base (applyPoison tx.state poisoned)
  | rows {ops : List StagedRows.RowOperation} {poisoned deferred : List Nat} {newId : Nat} {state : CatalogSnapshot}
      {direct : List StagedWrite}
      (accepted : StagedRows.translateState base ops poisoned deferred newId = .ok (state, direct)) :
      StagedFrom base state
  | maintenance {ops : List StagedRows.RowOperation} {hardDeleted : List EntityKey} {a : StagedRows.Applied}
      (accepted : ops.foldlM (StagedRows.applyMaintenanceOp base hardDeleted) { state := base } = .ok a) :
      StagedFrom base a.state

/-- The version of an entity that the change from `base` to `state` ends, under its history key. -/
def EndedVersion (base state : CatalogSnapshot) (newSnapshot : Nat) (h : HistoryKey) (r : EntityRecord) : Prop :=
  h.endSnapshot = newSnapshot ∧ ∃ prior, base.get (.entity h.entity) = some prior ∧ prior.isVersioned ∧
    (state.get (.entity h.entity)).map EntityRecord.definition ≠ some prior.definition ∧ r = prior.ended newSnapshot

/-- The write is at an entity's live record or at one of its versions. -/
def StagedWrite.names (k : CurrentKey) : StagedWrite → Prop
  | .current k' _ => k' = k
  | .history h _ => .entity h.entity = k
  | _ => False

/-- What the diff of two views owes a store. -/
structure WritesWholeChange (s : Store) (base state : CatalogSnapshot) (newSnapshot : Nat) : Prop where
  current : ∀ k : CurrentKey, (s.applyBatch (diffWrites base state newSnapshot)).current[k]? = state.get k
  ended : ∀ h r, EndedVersion base state newSnapshot h r →
    (s.applyBatch (diffWrites base state newSnapshot)).history[h]? = some r
  kept : ∀ h, (∀ r, ¬ EndedVersion base state newSnapshot h r) →
    (s.applyBatch (diffWrites base state newSnapshot)).history[h]? = s.history[h]?
  untouched : ∀ k, base.get k = state.get k → ∀ w ∈ diffWrites base state newSnapshot, ¬ w.names k
  /-- Whatever else the commit writes, its changelog names every key it changes. -/
  recorded : ∀ rest keys, refreshKeysOf (diffWrites base state newSnapshot ++ rest) = some keys →
    ∀ k : CurrentKey, (s.applyBatch (diffWrites base state newSnapshot ++ rest)).current[k]? ≠ s.current[k]? → k ∈ keys

/-- Every column statistic that changes is one of a data file in the base view or in the staged one. -/
def StatsOfListedFiles (base state : CatalogSnapshot) : Prop :=
  ∀ t f c, base.get (.entity (.fileColumnStats t f c)) ≠ state.get (.entity (.fileColumnStats t f c)) →
    base.get (.entity (.file t f)) ≠ none ∨ state.get (.entity (.file t f)) ≠ none

section

variable {base state : CatalogSnapshot} {s : Store} {newSnapshot : Nat}

/-- No commit loses a column mapping. -/
theorem StagedFrom.mapping (h : StagedFrom base state) (hbase : base.Sound) {t m : Nat} {value : MappingValue}
    (hm : getNested base.mappings t m = some value) : getNested state.mappings t m ≠ none := by
  cases h with
  | @verbs newSnapshot calls tx poisoned run =>
    obtain ⟨indexes, hpoison⟩ := applyPoison_eq tx.state poisoned
    have hnew : (Transaction.new base newSnapshot).state.Sound := hbase
    have hstays : (tx.state.get (.entity (.mapping t m))).isSome :=
      (Call.grown_of_runClosure (.refl hnew) run).mappings t m (by simp [Transaction.new, CatalogSnapshot.get, hm])
    rw [hpoison, ← Option.isSome_iff_ne_none]
    simpa [CatalogSnapshot.get] using hstays
  | rows accepted =>
    rw [(StagedRows.translated_of_translateState accepted).mapping t m value hm]
    simp
  | maintenance accepted =>
    rw [(StagedRows.followsAll_of_maintenance accepted).mapping t m value hm]
    simp

/-- Of what the diff leaves out, a commit's state has only statistics. -/
theorem StagedFrom.unstaged (h : StagedFrom base state) (hbase : base.Sound) {k : CurrentKey}
    (hdiff : base.get k ≠ state.get k) (hk : Unstaged base state k) :
    ∃ t f c, k = .entity (.fileColumnStats t f c) ∧ base.get (.entity (.file t f)) = none ∧
      state.get (.entity (.file t f)) = none := by
  unfold Unstaged at hk
  split at hk
  · next t m =>
    cases hm : getNested base.mappings t m with
    | none => exact absurd (by simp [CatalogSnapshot.get, hm, hk]) hdiff
    | some value => exact absurd hk (h.mapping hbase hm)
  · next t f c => exact ⟨t, f, c, rfl, by simp [CatalogSnapshot.get, hk.1], by simp [CatalogSnapshot.get, hk.2]⟩
  · exact hk.elim

theorem mem_refreshKeysOf_of_changed {writes : List StagedWrite} {keys : List CurrentKey}
    (h : refreshKeysOf writes = some keys) {k : CurrentKey}
    (hk : (s.applyBatch writes).current[k]? ≠ s.current[k]?) : k ∈ keys := by
  rw [mem_refreshKeysOf h]
  by_contra hwritten
  exact hk (by rw [applyBatch_current, getElem?_setKeys_of_not_mem hwritten])

/-- The diff of a commit's state writes the whole change exactly when every column statistic it changes belongs
    to a data file of one of the two views. -/
theorem writesWholeChange_iff (hbase : base.Sound) (hs : ∀ k : CurrentKey, s.current[k]? = base.get k)
    (hstate : StagedFrom base state) (newSnapshot : Nat) :
    WritesWholeChange s base state newSnapshot ↔ StatsOfListedFiles base state := by
  classical
  refine ⟨fun h t f c hdiff => ?_, fun h => ⟨fun k => ?_, ?_, ?_, ?_, ?_⟩⟩
  · by_contra hfile
    push Not at hfile
    have hunstaged : Unstaged base state (.entity (.fileColumnStats t f c)) := by
      simpa [Unstaged, CatalogSnapshot.get] using hfile
    have hcurrent := h.current (.entity (.fileColumnStats t f c))
    rw [current_applyBatch_diffWrites, if_neg (fun hk => hk.2 hunstaged), hs] at hcurrent
    exact hdiff hcurrent
  · rw [current_applyBatch_diffWrites, hs]
    split
    · rfl
    · next hk =>
      by_contra hdiff
      have hunstaged : Unstaged base state k := by
        by_contra hstaged
        exact hk ⟨hdiff, hstaged⟩
      obtain ⟨t, f, c, rfl, hbasefile, hstatefile⟩ := hstate.unstaged hbase hdiff hunstaged
      exact (h t f c hdiff).elim (absurd hbasefile) (absurd hstatefile)
  · rintro key r ⟨hend, prior, hprior, hversioned, hchanged, rfl⟩
    rw [history_applyBatch_diffWrites, if_pos ⟨hend, prior, hprior, hversioned, hchanged⟩, hprior]
    rfl
  · intro key hnone
    rw [history_applyBatch_diffWrites, if_neg]
    rintro ⟨hend, prior, hprior, hversioned, hchanged⟩
    exact hnone _ ⟨hend, prior, hprior, hversioned, hchanged, rfl⟩
  · intro k heq w hw hnames
    cases w with
    | current k' value => exact (current_mem_diffWrites.mp hw).1 (hnames ▸ heq)
    | history key value =>
      obtain ⟨-, prior, hprior, -, hchanged, -⟩ := history_mem_diffWrites.mp hw
      rw [← (show CurrentKey.entity key.entity = k from hnames)] at heq
      exact hchanged (by rw [← heq, hprior]; rfl)
    | _ => exact hnames
  · exact fun rest keys hkeys k hk => mem_refreshKeysOf_of_changed hkeys hk

end

/-! ## Statistics of an ended file -/

namespace EndedFile

def stats : EntityRecord :=
  .fileColumnStats
    { dataFileId := 7, tableId := 1, columnId := 1, columnSizeBytes := 0, valueCount := 3, nullCount := 0
      minValue := none, maxValue := none, containsNan := none, extraStats := none, variantStats := [] }

def scheduled : EntityRecord :=
  .gcFile { dataFileId := 7, path := "f", pathIsRelative := true, scheduleStartMicros := 0 }

/-- File 7 has ended and waits for its deletion; its statistics are still stored. -/
def store : Store :=
  { current := (∅ : ExtTreeMap CurrentKey EntityRecord)
      |>.insert (.entity (.fileColumnStats 1 7 1)) stats
      |>.insert (.gcFile 7) scheduled }

theorem store_wellKeyed : store.WellKeyed := by
  intro k r h
  simp only [store, getElem?_insert_ite] at h
  split at h
  · next hk => cases h; exact hk.symm
  · split at h
    · next hk => cases h; exact hk.symm
    · simp at h

abbrev base : CatalogSnapshot := store.viewAt default

theorem store_current (k : CurrentKey) : store.current[k]? = base.get k := by
  rw [Store.viewAt_get store_wellKeyed]
  simp only [store, getElem?_insert_ite]
  split
  · rfl
  · split
    · rfl
    · simp

/-- What the rows make of the view. -/
def applied (ops : List StagedRows.RowOperation) : StagedRows.Applied :=
  match ops.foldlM (StagedRows.applyMaintenanceOp base []) { state := base } with
  | .ok a => a
  | .error _ => { state := base }

theorem foldlM_applied (ops : List StagedRows.RowOperation)
    (h : (ops.foldlM (StagedRows.applyMaintenanceOp base []) { state := base }).isOk) :
    ops.foldlM (StagedRows.applyMaintenanceOp base []) { state := base } = .ok (applied ops) := by
  unfold applied
  split
  · next h' => exact h'
  · next h' => rw [h'] at h; cases h

/-- A cleanup deletes the statistics of the ended file. -/
def dropStats : List StagedRows.RowOperation := [.delete .fileColumnStats [.u64 7, .u64 1, .u64 1]]

/-- A cleanup deletes the file's row in the deletion schedule. -/
def dropSchedule : List StagedRows.RowOperation := [.delete .filesScheduledForDeletion [.u64 7]]

/-- The staged state has no statistics of the file; the diff leaves them in the store. -/
theorem dropStats_unwritten :
    dropStats.foldlM (StagedRows.applyMaintenanceOp base []) { state := base } = .ok (applied dropStats) ∧
      (applied dropStats).state.get (.entity (.fileColumnStats 1 7 1)) = none ∧
      (store.applyBatch (diffWrites base (applied dropStats).state 0)).current[
        CurrentKey.entity (.fileColumnStats 1 7 1)]? = some stats ∧
      ¬ WritesWholeChange store base (applied dropStats).state 0 := by
  have hgone : (applied dropStats).state.get (.entity (.fileColumnStats 1 7 1)) = none := by decide +kernel
  have hleft : (store.applyBatch (diffWrites base (applied dropStats).state 0)).current[
      CurrentKey.entity (.fileColumnStats 1 7 1)]? = some stats := by decide +kernel
  refine ⟨foldlM_applied _ (by decide +kernel), hgone, hleft, fun h => ?_⟩
  have hcurrent := h.current (.entity (.fileColumnStats 1 7 1))
  rw [hleft, hgone] at hcurrent
  cases hcurrent

theorem applied_dropSchedule : (applied dropSchedule).state = base.removeGcFile 7 := by
  have happlied := foldlM_applied dropSchedule (by decide +kernel)
  rw [dropSchedule, List.foldlM_cons] at happlied
  obtain ⟨b, hrow, hrest⟩ := Results.bind_eq_ok.mp happlied
  rw [dropSchedule, ← Except.ok.inj hrest]
  rw [StagedRows.applyMaintenanceOp, if_pos (by decide)] at hrow
  unfold StagedRows.applyOp StagedRows.applyDelete StagedRows.applyScheduleDelete at hrow
  obtain ⟨file, hfile, hrow⟩ := Results.bind_eq_ok.mp hrow
  cases hfile
  split at hrow
  · cases hrow
    rfl
  · cases hrow

/-- `writesWholeChange_iff` at a cleanup of the deletion schedule. -/
theorem writesWholeChange_dropSchedule : WritesWholeChange store base (applied dropSchedule).state 0 :=
  (writesWholeChange_iff (Store.viewAt_sound store_wellKeyed default) store_current
    (.maintenance (foldlM_applied _ (by decide +kernel))) 0).mpr
    (fun t f c hdiff => absurd (by rw [applied_dropSchedule]; rfl) hdiff)

end EndedFile

end Moraine
