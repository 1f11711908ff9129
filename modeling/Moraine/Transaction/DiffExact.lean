-- SUMMARY: Exactly which `current` and `history` writes the diff of two views makes.
import Moraine.Base.LastEffect
import Moraine.Transaction.Commit

/-!
# What the diff writes

A `current` write of the diff is the staged view's record at a key where the two views differ, and every such
key is written but two sorts: a column mapping the staged view no longer has, and the statistics of a file
that neither view has. A `history` write is the base view's version of an entity whose definition the staged
view changes or ends.
-/

namespace Moraine

open Std (ExtTreeMap TransOrd LawfulEqOrd)
open OrdMap CatalogSnapshot

/-! ## Definitions of versioned records -/

namespace EntityRecord

/-- The record without the fields whose change alone is no version transition. -/
def definition : EntityRecord → EntityRecord
  | table value => table { value with nextColumnId := 0 }
  | column value => column { value with tags := [] }
  | r => r

/-- The version ended at a snapshot. -/
def ended (newSnapshot : Nat) : EntityRecord → EntityRecord
  | schema value => schema { value with endSnapshot := some newSnapshot }
  | table value => table { value with endSnapshot := some newSnapshot }
  | view value => view { value with endSnapshot := some newSnapshot }
  | column value => column { value with endSnapshot := some newSnapshot }
  | file value => file { value with endSnapshot := some newSnapshot }
  | deleteFile value => deleteFile { value with endSnapshot := some newSnapshot }
  | partition value => partition { value with endSnapshot := some newSnapshot }
  | sort value => sort { value with endSnapshot := some newSnapshot }
  | macroDef value => macroDef { value with endSnapshot := some newSnapshot }
  | index value => index { value with endSnapshot := some newSnapshot }
  | r => r

/-- A record of a kind that has versions. -/
def isVersioned (r : EntityRecord) : Bool := r.lifecycle.isSome

end EntityRecord

/-! ## The history mirrors -/

section Kinds

variable {base state : CatalogSnapshot} {newSnapshot : Nat}

/-- The `history` writes of the diff: the base versions of the entities whose definition changes or ends. -/
theorem history_mem_diffWrites {h : HistoryKey} {value : Option EntityRecord} :
    .history h value ∈ diffWrites base state newSnapshot ↔
      h.endSnapshot = newSnapshot ∧ ∃ prior, base.get (.entity h.entity) = some prior ∧ prior.isVersioned ∧
        (state.get (.entity h.entity)).map EntityRecord.definition ≠ some prior.definition ∧
        value = some (prior.ended newSnapshot) := by
  rw [diffWrites, List.mem_flatten]
  simp only [diffParts, List.mem_cons, List.not_mem_nil, exists_eq_or_imp, or_false, exists_eq_left,
    diffSchemas, diffTables, diffViews, diffColumns, diffDataFiles, diffDeleteFiles, diffPartitions, diffSorts,
    diffIndexes, diffMacros, mem_diffMappings, diffTableStats, diffTableColumnStats, mem_diffFileColumnStats,
    diffOptions, diffTags, diffGcFiles]
  repeat rw [mem_diffMap_writes fun _ => rfl]
  repeat rw [mem_diffNested_writes fun _ _ => rfl]
  simp only [history_mem_stageTransition, history_mem_stageTransitionWithInternal,
    history_not_mem_stageOverwrite]
  obtain ⟨entity, ended⟩ := h
  rcases entity with s | t | v | ⟨t, c⟩ | ⟨t, p⟩ | ⟨t, f⟩ | ⟨t, d⟩ | ⟨t, f, c⟩ | t | ⟨t, c⟩ | o | ⟨x, y⟩ | ⟨t, s⟩ | m |
    ⟨t, m⟩ | ⟨t, i⟩
  all_goals simp [CatalogSnapshot.get, EntityRecord.isVersioned, EntityRecord.lifecycle,
    EntityRecord.definition, EntityRecord.ended]
  all_goals
    intro _
    refine exists_congr fun prior => and_congr_right fun _ => and_congr_left fun _ => ?_
    exact ⟨fun h x hx heq => h (heq ▸ hx), fun h hs => h prior hs rfl⟩

end Kinds

/-! ## The store after the diff -/

section Store

variable {base state : CatalogSnapshot} {newSnapshot : Nat}

/-- The live record of one key, as a cell that batches write. -/
def currentCell (k : CurrentKey) : LastEffect.Cell Store.apply (Option EntityRecord) where
  read s := s.current[k]?
  written
    | .current k' value => if k' = k then some value else none
    | _ => none
  read_apply s w := by
    cases w <;> simp [Store.apply, eq_comm]
    split <;> rfl

/-- One history record, as a cell that batches write. -/
def historyCell (h : HistoryKey) : LastEffect.Cell Store.apply (Option EntityRecord) where
  read s := s.history[h]?
  written
    | .history h' value => if h' = h then some value else none
    | _ => none
  read_apply s w := by
    cases w <;> simp [Store.apply, eq_comm]
    split <;> rfl

theorem currentCell_written {writes : List StagedWrite} {k : CurrentKey} (v : Option EntityRecord) :
    (∃ w ∈ writes, (currentCell k).written w = some v) ↔ .current k v ∈ writes := by
  constructor
  · rintro ⟨w, hw, hv⟩
    cases w <;> simp only [currentCell, Option.ite_none_right_eq_some, reduceCtorEq] at hv
    obtain ⟨rfl, hv⟩ := hv
    exact Option.some.inj hv ▸ hw
  · intro hw
    exact ⟨_, hw, by simp [currentCell]⟩

theorem historyCell_written {writes : List StagedWrite} {h : HistoryKey} (v : Option EntityRecord) :
    (∃ w ∈ writes, (historyCell h).written w = some v) ↔ .history h v ∈ writes := by
  constructor
  · rintro ⟨w, hw, hv⟩
    cases w <;> simp only [historyCell, Option.ite_none_right_eq_some, reduceCtorEq] at hv
    obtain ⟨rfl, hv⟩ := hv
    exact Option.some.inj hv ▸ hw
  · intro hw
    exact ⟨_, hw, by simp [historyCell]⟩

/-- The diff leaves the staged record under every key where the views differ, but for what is unstaged. -/
theorem current_applyBatch_diffWrites (s : Store) (k : CurrentKey) [Decidable (Unstaged base state k)] :
    (s.applyBatch (diffWrites base state newSnapshot)).current[k]? =
      if base.get k ≠ state.get k ∧ ¬ Unstaged base state k then state.get k else s.current[k]? := by
  refine (currentCell k).read_foldl_of_unique (fun v => ?_) s
  rw [currentCell_written, current_mem_diffWrites]
  tauto

open Classical in
/-- The diff adds the base version of every entity whose definition it changes or ends. -/
theorem history_applyBatch_diffWrites (s : Store) (h : HistoryKey) :
    (s.applyBatch (diffWrites base state newSnapshot)).history[h]? =
      if h.endSnapshot = newSnapshot ∧ ∃ prior, base.get (.entity h.entity) = some prior ∧ prior.isVersioned ∧
          (state.get (.entity h.entity)).map EntityRecord.definition ≠ some prior.definition then
        (base.get (.entity h.entity)).map (EntityRecord.ended newSnapshot)
      else s.history[h]? := by
  refine (historyCell h).read_foldl_of_unique (fun v => ?_) s
  rw [historyCell_written, history_mem_diffWrites]
  constructor
  · rintro ⟨hend, prior, hprior, hversioned, hne, rfl⟩
    exact ⟨⟨hend, prior, hprior, hversioned, hne⟩, by rw [hprior]; rfl⟩
  · rintro ⟨⟨hend, prior, hprior, hversioned, hne⟩, rfl⟩
    exact ⟨hend, prior, hprior, hversioned, hne, by rw [hprior]; rfl⟩

end Store

end Moraine
