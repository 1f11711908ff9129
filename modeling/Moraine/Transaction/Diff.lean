-- SUMMARY: The write set that turns a base view into a staged one, and what it puts in `current`.
import Moraine.Transaction.Fold

/-!
# The diff engine

`diffWrites` turns a pair of views into store writes: per-kind version transitions with history mirrors,
in-place overwrites for the unversioned kinds. Whatever the kind, the only `current` write for a key is
the staged view's record there, and there is one only if the two views differ at the key
(`current_mem_diffWrites`). Within a kind, writes come in ascending key order (`DiffPart.sorted`).
-/

namespace Moraine

open Std (ExtTreeMap TransOrd LawfulEqOrd)
open OrdMap NameIndex CatalogSnapshot

section Staging

variable {M : Type} [DecidableEq M]

/-- Stages one entity's version transition. An end deletes the live record and mirrors it to history;
    a change mirrors the prior version and puts the new one. -/
def stageTransition (record : M → EntityRecord) (newSnapshot : Nat) (setEnd : M → M) (entity : EntityKey)
    (base state : Option M) : List StagedWrite :=
  match base, state with
  | some base, none =>
    [.current (.entity entity) none, .history ⟨entity, newSnapshot⟩ (some (record (setEnd base)))]
  | some base, some state =>
    if base ≠ state then
      [.history ⟨entity, newSnapshot⟩ (some (record (setEnd base))),
        .current (.entity entity) (some (record state))]
    else []
  | none, some state => [.current (.entity entity) (some (record state))]
  | none, none => []

/-- Stages an unversioned record: overwritten in place, never mirrored to history. -/
def stageOverwrite (record : M → EntityRecord) (key : CurrentKey) (base state : Option M) :
    List StagedWrite :=
  match base, state with
  | some _, none => [.current key none]
  | base, some state => if base ≠ some state then [.current key (some (record state))] else []
  | none, none => []

/-- As `stageTransition`, except that a change confined to the fields `internalFree` zeroes overwrites
    the live record in place. -/
def stageTransitionWithInternal (record : M → EntityRecord) (newSnapshot : Nat) (setEnd internalFree : M → M)
    (entity : EntityKey) (base state : Option M) : List StagedWrite :=
  match base, state with
  | some prior, some next =>
    if prior ≠ next ∧ internalFree prior = internalFree next then
      [.current (.entity entity) (some (record next))]
    else stageTransition record newSnapshot setEnd entity base state
  | _, _ => stageTransition record newSnapshot setEnd entity base state

end Staging

/-- Stages every key of one map pair, in key order. -/
def diffMap {K M : Type} [Ord K] [TransOrd K] (stage : K → Option M → Option M → List StagedWrite)
    (base state : ExtTreeMap K M) : List StagedWrite :=
  (keyUnion base state).flatMap fun id => stage id base[id]? state[id]?

/-- Stages every key of one table-scoped nested map pair, table by table. -/
def diffNested {K M : Type} [Ord K] [TransOrd K] (stage : Nat → K → Option M → Option M → List StagedWrite)
    (base state : Nested Nat K M) : List StagedWrite :=
  (keyUnion base state).flatMap fun tableId =>
    diffMap (stage tableId) (base[tableId]?.getD ∅) (state[tableId]?.getD ∅)

section Kinds

variable (base state : CatalogSnapshot) (newSnapshot : Nat)

def diffSchemas : List StagedWrite :=
  diffMap (fun id => stageTransition .schema newSnapshot
    (fun prior => { prior with endSnapshot := some newSnapshot }) (.schema id)) base.schemas state.schemas

/-- A change of the field-id counter alone is no version transition. -/
def diffTables : List StagedWrite :=
  diffMap (fun id => stageTransitionWithInternal .table newSnapshot
    (fun prior => { prior with endSnapshot := some newSnapshot })
    (fun value => { value with nextColumnId := 0 }) (.table id)) base.tables state.tables

def diffViews : List StagedWrite :=
  diffMap (fun id => stageTransition .view newSnapshot
    (fun prior => { prior with endSnapshot := some newSnapshot }) (.view id)) base.views state.views

/-- Tag entries carry their own lifecycle, so a change of the tags alone is no version transition. -/
def diffColumns : List StagedWrite :=
  diffNested (fun t c => stageTransitionWithInternal .column newSnapshot
    (fun prior => { prior with endSnapshot := some newSnapshot })
    (fun value => { value with tags := [] }) (.column t c)) base.columns state.columns

def diffDataFiles : List StagedWrite :=
  diffNested (fun t f => stageTransition .file newSnapshot
    (fun prior => { prior with endSnapshot := some newSnapshot }) (.file t f)) base.dataFiles state.dataFiles

def diffDeleteFiles : List StagedWrite :=
  diffNested (fun t d => stageTransition .deleteFile newSnapshot
    (fun prior => { prior with endSnapshot := some newSnapshot }) (.deleteFile t d))
    base.deleteFiles state.deleteFiles

def diffPartitions : List StagedWrite :=
  diffNested (fun t p => stageTransition .partition newSnapshot
    (fun prior => { prior with endSnapshot := some newSnapshot }) (.partition t p))
    base.partitions state.partitions

def diffSorts : List StagedWrite :=
  diffNested (fun t s => stageTransition .sort newSnapshot
    (fun prior => { prior with endSnapshot := some newSnapshot }) (.sort t s)) base.sorts state.sorts

def diffIndexes : List StagedWrite :=
  diffNested (fun t i => stageTransition .index newSnapshot
    (fun prior => { prior with endSnapshot := some newSnapshot }) (.index t i)) base.indexes state.indexes

def diffMacros : List StagedWrite :=
  diffMap (fun id => stageTransition .macroDef newSnapshot
    (fun prior => { prior with endSnapshot := some newSnapshot }) (.macroDef id)) base.macros state.macros

/-- Mappings are create-only, so only the staged view's entries are visited. -/
def diffMappings : List StagedWrite :=
  state.mappings.toList.flatMap fun (tableId, perTable) =>
    perTable.toList.flatMap fun (mappingId, value) =>
      stageOverwrite .mapping (.entity (.mapping tableId mappingId))
        (getNested base.mappings tableId mappingId) (some value)

def diffTableStats : List StagedWrite :=
  diffMap (fun id => stageOverwrite .tableStats (.entity (.tableStats id))) base.tableStats state.tableStats

def diffTableColumnStats : List StagedWrite :=
  diffNested (fun t c => stageOverwrite .tableColumnStats (.entity (.tableColumnStats t c)))
    base.tableColumnStats state.tableColumnStats

/-- A file registered and expired within one commit is in neither view's data files; its statistics are
    not staged. -/
def diffFileColumnStats : List StagedWrite :=
  diffNested (fun t fc b s =>
    if (getNested base.dataFiles t fc.1).isNone && (getNested state.dataFiles t fc.1).isNone then []
    else stageOverwrite .fileColumnStats (.entity (.fileColumnStats t fc.1 fc.2)) b s)
    base.fileColumnStats state.fileColumnStats

def diffOptions : List StagedWrite :=
  diffMap (fun ks => stageOverwrite (.option ks.1 ks.2) (.entity (.option ks.1 ks.2)))
    base.options state.options

def diffTags : List StagedWrite :=
  diffMap (fun id => stageOverwrite .tag (.entity (.tag id))) base.tags state.tags

def diffGcFiles : List StagedWrite :=
  diffMap (fun id => stageOverwrite .gcFile (.gcFile id)) base.gcFiles state.gcFiles

/-- The writes of the diff, kind by kind. -/
def diffParts : List (List StagedWrite) :=
  [diffSchemas base state newSnapshot, diffTables base state newSnapshot, diffViews base state newSnapshot,
    diffColumns base state newSnapshot, diffDataFiles base state newSnapshot,
    diffDeleteFiles base state newSnapshot, diffPartitions base state newSnapshot,
    diffSorts base state newSnapshot, diffIndexes base state newSnapshot, diffMacros base state newSnapshot,
    diffMappings base state, diffTableStats base state, diffTableColumnStats base state,
    diffFileColumnStats base state, diffOptions base state, diffTags base state, diffGcFiles base state]

/-- The write set turning `base` into `state` at `newSnapshot`. -/
def diffWrites : List StagedWrite := (diffParts base state newSnapshot).flatten

end Kinds

/-! ## One staging step -/

section Stages

variable {M : Type} [DecidableEq M] {record : M → EntityRecord} {newSnapshot : Nat} {setEnd internalFree : M → M}
  {entity : EntityKey} {key : CurrentKey} {b s : Option M} {k : CurrentKey} {h : HistoryKey}
  {value : Option EntityRecord}

theorem current_mem_stageTransition :
    .current k value ∈ stageTransition record newSnapshot setEnd entity b s ↔
      k = .entity entity ∧ b ≠ s ∧ value = s.map record := by
  cases b with
  | none => cases s <;> simp [stageTransition]
  | some prior =>
    cases s with
    | none => simp [stageTransition]
    | some next => simp [stageTransition, and_left_comm]

theorem history_mem_stageTransition :
    .history h value ∈ stageTransition record newSnapshot setEnd entity b s ↔
      h = ⟨entity, newSnapshot⟩ ∧ ∃ prior, b = some prior ∧ s ≠ some prior ∧ value = some (record (setEnd prior)) := by
  cases b with
  | none => cases s <;> simp [stageTransition]
  | some prior =>
    cases s with
    | none => simp [stageTransition]
    | some next => simp [stageTransition, and_left_comm, @eq_comm _ prior]

theorem current_mem_stageTransitionWithInternal :
    .current k value ∈ stageTransitionWithInternal record newSnapshot setEnd internalFree entity b s ↔
      k = .entity entity ∧ b ≠ s ∧ value = s.map record := by
  unfold stageTransitionWithInternal
  split
  · split
    · simp_all
    · exact current_mem_stageTransition
  · exact current_mem_stageTransition

/-- A change of the internal fields alone mirrors nothing. -/
theorem history_mem_stageTransitionWithInternal :
    .history h value ∈ stageTransitionWithInternal record newSnapshot setEnd internalFree entity b s ↔
      h = ⟨entity, newSnapshot⟩ ∧ ∃ prior, b = some prior ∧
        s.map internalFree ≠ some (internalFree prior) ∧ value = some (record (setEnd prior)) := by
  unfold stageTransitionWithInternal
  split
  next prior next =>
    split
    · next heq => simp [heq.2]
    · next hne =>
      rw [history_mem_stageTransition]
      have hiff : next = prior ↔ internalFree next = internalFree prior := by
        refine ⟨fun heq => by rw [heq], fun heq => ?_⟩
        by_contra hdiff
        exact hne ⟨fun h => hdiff h.symm, heq.symm⟩
      simp [hiff]
  next hnot =>
    rw [history_mem_stageTransition]
    cases b with
    | none => simp
    | some prior =>
      cases s with
      | none => simp
      | some next => exact absurd rfl (hnot prior next rfl)

theorem current_mem_stageOverwrite :
    .current k value ∈ stageOverwrite record key b s ↔ k = key ∧ b ≠ s ∧ value = s.map record := by
  cases b with
  | none => cases s <;> simp [stageOverwrite]
  | some prior =>
    cases s with
    | none => simp [stageOverwrite]
    | some next => simp [stageOverwrite, and_left_comm]

theorem history_not_mem_stageOverwrite : .history h value ∉ stageOverwrite record key b s := by
  cases b <;> cases s <;> simp [stageOverwrite]

/-- A staging step writes its own key at most once. -/
theorem keys_stageTransition :
    ((currentWrites (stageTransition record newSnapshot setEnd entity b s)).map Prod.fst).Sublist
      [.entity entity] := by
  cases b with
  | none => cases s <;> simp [stageTransition, currentWrites]
  | some prior =>
    cases s with
    | none => simp [stageTransition, currentWrites]
    | some next => by_cases h : prior = next <;> simp [stageTransition, currentWrites, h]

theorem keys_stageTransitionWithInternal :
    ((currentWrites (stageTransitionWithInternal record newSnapshot setEnd internalFree entity b s)).map
      Prod.fst).Sublist [.entity entity] := by
  unfold stageTransitionWithInternal
  split
  · split
    · simp [currentWrites]
    · exact keys_stageTransition
  · exact keys_stageTransition

theorem keys_stageOverwrite :
    ((currentWrites (stageOverwrite record key b s)).map Prod.fst).Sublist [key] := by
  cases b with
  | none => cases s <;> simp [stageOverwrite, currentWrites]
  | some prior =>
    cases s with
    | none => simp [stageOverwrite, currentWrites]
    | some next => by_cases h : prior = next <;> simp [stageOverwrite, currentWrites, h]

end Stages

/-! ## One kind -/

section Maps

variable {K M : Type} [Ord K] [TransOrd K] [LawfulEqOrd K] [DecidableEq K]

/-- The diff of a map pair is the staging of its keys. -/
theorem mem_diffMap_writes {stage : K → Option M → Option M → List StagedWrite}
    (hnone : ∀ id, stage id none none = []) {base state : ExtTreeMap K M} {w : StagedWrite} :
    w ∈ diffMap stage base state ↔ ∃ id, w ∈ stage id base[id]? state[id]? := by
  simp only [diffMap, List.mem_flatMap, mem_keyUnion]
  constructor
  · rintro ⟨id, -, hw⟩
    exact ⟨id, hw⟩
  · rintro ⟨id, hw⟩
    refine ⟨id, ?_, hw⟩
    by_contra habsent
    push Not at habsent
    rw [habsent.1, habsent.2, hnone] at hw
    cases hw

theorem mem_diffNested_writes {stage : Nat → K → Option M → Option M → List StagedWrite}
    (hnone : ∀ t id, stage t id none none = []) {base state : Nested Nat K M} {w : StagedWrite} :
    w ∈ diffNested stage base state ↔
      ∃ t id, w ∈ stage t id (getNested base t id) (getNested state t id) := by
  simp only [diffNested, List.mem_flatMap, mem_keyUnion, mem_diffMap_writes (hnone _)]
  constructor
  · rintro ⟨t, -, id, hw⟩
    refine ⟨t, id, ?_⟩
    rwa [getElem?_getD_empty, getElem?_getD_empty] at hw
  · rintro ⟨t, id, hw⟩
    refine ⟨t, ?_, id, ?_⟩
    · by_contra habsent
      push Not at habsent
      rw [getNested, getNested, habsent.1, habsent.2] at hw
      simp [hnone] at hw
    · rwa [getElem?_getD_empty, getElem?_getD_empty]

end Maps

section Kinds

variable (base state : CatalogSnapshot) (newSnapshot : Nat)

/-- Only the staged view's mappings are visited. -/
theorem mem_diffMappings {w : StagedWrite} :
    w ∈ diffMappings base state ↔
      ∃ t m value, getNested state.mappings t m = some value ∧
        w ∈ stageOverwrite .mapping (.entity (.mapping t m)) (getNested base.mappings t m) (some value) := by
  simp only [diffMappings, List.mem_flatMap, Prod.exists, ExtTreeMap.mem_toList_iff_getElem?_eq_some, getNested,
    Option.bind_eq_some_iff]
  constructor
  · rintro ⟨t, perTable, ht, m, value, hm, hw⟩
    exact ⟨t, m, value, ⟨perTable, ht, hm⟩, hw⟩
  · rintro ⟨t, m, value, ⟨perTable, ht, hm⟩, hw⟩
    exact ⟨t, perTable, ht, m, value, hm, hw⟩

/-- A change the diff does not write: a mapping that is gone, or the statistics of a file that neither view
    has. -/
def Unstaged : CurrentKey → Prop
  | .entity (.mapping t m) => getNested state.mappings t m = none
  | .entity (.fileColumnStats t f _) =>
    getNested base.dataFiles t f = none ∧ getNested state.dataFiles t f = none
  | _ => False

variable {base state newSnapshot} {w : StagedWrite}

/-- The statistics of a file in neither view are passed over. -/
theorem mem_diffFileColumnStats :
    w ∈ diffFileColumnStats base state ↔
      ∃ t fc, ¬ (getNested base.dataFiles t fc.1 = none ∧ getNested state.dataFiles t fc.1 = none) ∧
        w ∈ stageOverwrite .fileColumnStats (.entity (.fileColumnStats t fc.1 fc.2))
          (getNested base.fileColumnStats t fc) (getNested state.fileColumnStats t fc) := by
  rw [diffFileColumnStats, mem_diffNested_writes (fun t fc => by split <;> rfl)]
  refine exists_congr fun t => exists_congr fun fc => ?_
  simp only [Bool.and_eq_true, Option.isNone_iff_eq_none]
  split <;> simp_all

/-- The `current` writes of the diff: the staged records where the views differ, but for what is unstaged. -/
theorem current_mem_diffWrites {k : CurrentKey} {value : Option EntityRecord} :
    .current k value ∈ diffWrites base state newSnapshot ↔
      base.get k ≠ state.get k ∧ value = state.get k ∧ ¬ Unstaged base state k := by
  have hmap : ∀ {α β : Type} {f : α → β}, (∀ x y, f x = f y → x = y) → ∀ x y : Option α,
      x.map f = y.map f ↔ x = y := fun hf x y => (Option.map_injective hf).eq_iff
  rw [diffWrites, List.mem_flatten]
  simp only [diffParts, List.mem_cons, List.not_mem_nil, exists_eq_or_imp, or_false, exists_eq_left,
    diffSchemas, diffTables, diffViews, diffColumns, diffDataFiles, diffDeleteFiles, diffPartitions, diffSorts,
    diffIndexes, diffMacros, mem_diffMappings, diffTableStats, diffTableColumnStats, mem_diffFileColumnStats,
    diffOptions, diffTags, diffGcFiles]
  repeat rw [mem_diffMap_writes fun _ => rfl]
  repeat rw [mem_diffNested_writes fun _ _ => rfl]
  simp only [current_mem_stageTransition, current_mem_stageTransitionWithInternal,
    current_mem_stageOverwrite]
  rcases k with (s | t | v | ⟨t, c⟩ | ⟨t, p⟩ | ⟨t, f⟩ | ⟨t, d⟩ | ⟨t, f, c⟩ | t | ⟨t, c⟩ | o | ⟨x, y⟩ | ⟨t, s⟩ | m |
    ⟨t, m⟩ | ⟨t, i⟩) | f
  -- The other kinds stage nothing under the key.
  all_goals simp [CatalogSnapshot.get, Unstaged]
  case entity.fileColumnStats =>
    rw [hmap fun x y h => by cases h; rfl]
    tauto
  case entity.mapping =>
    cases getNested state.mappings t m with
    | none => simp
    | some value =>
      cases getNested base.mappings t m <;> simp
  all_goals exact fun _ => not_congr (hmap (fun x y h => by cases h; rfl) _ _).symm

theorem mem_currentWrites {writes : List StagedWrite} {k : CurrentKey} {value : Option EntityRecord} :
    (k, value) ∈ currentWrites writes ↔ .current k value ∈ writes := by
  simp only [currentWrites, List.mem_filterMap]
  constructor
  · rintro ⟨w, hw, heq⟩
    cases w <;> cases heq
    exact hw
  · intro hw
    exact ⟨_, hw, rfl⟩

/-- Each write carries the staged view's record of a key where the views differ. -/
theorem diffWrites_sound (base state : CatalogSnapshot) (newSnapshot : Nat)
    {w : CurrentKey × Option EntityRecord} (hw : w ∈ currentWrites (diffWrites base state newSnapshot)) :
    w.2 = state.get w.1 ∧ base.get w.1 ≠ state.get w.1 ∧ isMappingDelete w = false := by
  obtain ⟨k, value⟩ := w
  obtain ⟨hne, rfl, hstaged⟩ := current_mem_diffWrites.mp (mem_currentWrites.mp hw)
  refine ⟨rfl, hne, ?_⟩
  cases hget : state.get k with
  | some r => exact isMappingDelete_put k r
  | none =>
    by_contra hdelete
    obtain ⟨t, m, rfl, -⟩ := eq_mapping_of_isMappingDelete (by simpa using hdelete)
    exact hstaged (Option.map_eq_none_iff.mp hget)

/-- Every changed schema, table, view, macro or index is written. -/
theorem mem_diffWrites_of_named {k : CurrentKey} (hne : base.get k ≠ state.get k)
    (hnamed : base.directory.held k ≠ none ∨ state.directory.held k ≠ none) :
    (k, state.get k) ∈ currentWrites (diffWrites base state newSnapshot) := by
  refine mem_currentWrites.mpr (current_mem_diffWrites.mpr ⟨hne, rfl, fun hunstaged => ?_⟩)
  have hmap : ∀ {α β γ : Type} (f : α → β) (g : β → Option γ) (x : Option α),
      (x.map f).bind g = x.bind fun a => g (f a) := fun f g x => by cases x <;> rfl
  rcases k with ⟨⟨⟩⟩ | _
  all_goals first
    | exact hunstaged
    | simp [directory, CatalogSnapshot.get, hmap, EntityRecord.nameKey] at hnamed

end Kinds

/-! ## The order of the writes -/

/-- The place of a key's kind in the order `diffWrites` goes through the kinds. -/
def diffRank : CurrentKey → Nat
  | .entity (.schema _) => 0
  | .entity (.table _) => 1
  | .entity (.view _) => 2
  | .entity (.column ..) => 3
  | .entity (.file ..) => 4
  | .entity (.deleteFile ..) => 5
  | .entity (.partition ..) => 6
  | .entity (.sort ..) => 7
  | .entity (.index ..) => 8
  | .entity (.macroDef _) => 9
  | .entity (.mapping ..) => 10
  | .entity (.tableStats _) => 11
  | .entity (.tableColumnStats ..) => 12
  | .entity (.fileColumnStats ..) => 13
  | .entity (.option ..) => 14
  | .entity (.tag _) => 15
  | .gcFile _ => 16

/-- The `current` writes of one kind's diff: all of that kind and in key order. -/
structure DiffPart (i : Nat) (cws : List (CurrentKey × Option EntityRecord)) : Prop where
  rank : ∀ w ∈ cws, diffRank w.1 = i
  sorted : cws.Pairwise fun a b => a.1 < b.1

section Parts

variable {i : Nat}

/-- Ids whose keys are in order, each with at most its own key's write, make a part of the diff. -/
theorem diffPart_of_ids {α : Type} (key : α → CurrentKey) (hrank : ∀ id, diffRank (key id) = i)
    {ids : List α} (hids : ids.Pairwise fun a b => key a < key b)
    {f : α → List (CurrentKey × Option EntityRecord)} (hf : ∀ id, ((f id).map Prod.fst).Sublist [key id]) :
    DiffPart i (ids.flatMap f) := by
  have hfst : ∀ id, ∀ w ∈ f id, w.1 = key id :=
    fun id w hw => by simpa using (hf id).subset (List.mem_map_of_mem hw)
  refine ⟨fun w hw => ?_, List.pairwise_flatMap.mpr ⟨fun id _ => ?_, hids.imp fun hlt x hx y hy => ?_⟩⟩
  · obtain ⟨id, -, hw⟩ := List.mem_flatMap.mp hw
    rw [hfst id w hw, hrank]
  · exact List.pairwise_map.mp ((List.pairwise_singleton (· < ·) (key id)).sublist (hf id))
  · rwa [hfst _ x hx, hfst _ y hy]

end Parts

theorem currentWrites_flatMap {α : Type} (l : List α) (f : α → List StagedWrite) :
    currentWrites (l.flatMap f) = l.flatMap fun a => currentWrites (f a) :=
  List.filterMap_flatMap

/-- The pairs of keys a nested diff goes through. -/
private def nestedIds {K M : Type} [Ord K] [TransOrd K] (base state : Nested Nat K M) : List (Nat × K) :=
  (keyUnion base state).flatMap fun t =>
    (keyUnion (base[t]?.getD ∅) (state[t]?.getD ∅)).map fun id => (t, id)

private theorem nestedIds_sorted {K M : Type} [Ord K] [TransOrd K] (base state : Nested Nat K M) :
    (nestedIds base state).Pairwise fun a b => compare a b = .lt := by
  rw [nestedIds, List.pairwise_flatMap]
  refine ⟨fun t _ => ?_, (keyUnion_sorted base state).imp fun hlt x hx y hy => ?_⟩
  · rw [List.pairwise_map]
    refine (keyUnion_sorted _ _).imp fun hlt => compare_pair_eq_lt.mpr (.inr ⟨?_, hlt⟩)
    exact Std.ReflCmp.compare_self
  · obtain ⟨i, -, rfl⟩ := List.mem_map.mp hx
    obtain ⟨j, -, rfl⟩ := List.mem_map.mp hy
    exact compare_pair_eq_lt.mpr (.inl hlt)

private theorem currentWrites_diffNested {K M : Type} [Ord K] [TransOrd K]
    (stage : Nat → K → Option M → Option M → List StagedWrite) (base state : Nested Nat K M) :
    currentWrites (diffNested stage base state) = (nestedIds base state).flatMap fun ti =>
      currentWrites (stage ti.1 ti.2 (getNested base ti.1 ti.2) (getNested state ti.1 ti.2)) := by
  simp only [diffNested, diffMap, currentWrites_flatMap, nestedIds, List.flatMap_assoc, List.flatMap_map,
    getElem?_getD_empty, getNested]

section Parts

variable {i : Nat} {K M : Type} [Ord K] [TransOrd K]

private theorem diffPart_map (key : K → CurrentKey) (hlt : ∀ a b, compare a b = .lt → key a < key b)
    (hrank : ∀ id, diffRank (key id) = i) {stage : K → Option M → Option M → List StagedWrite}
    (hstage : ∀ id b s, ((currentWrites (stage id b s)).map Prod.fst).Sublist [key id])
    (base state : ExtTreeMap K M) : DiffPart i (currentWrites (diffMap stage base state)) := by
  rw [diffMap, currentWrites_flatMap]
  exact diffPart_of_ids key hrank ((keyUnion_sorted _ _).imp fun h => hlt _ _ h) fun id => hstage id _ _

private theorem diffPart_nested (key : Nat × K → CurrentKey)
    (hlt : ∀ a b, compare a b = .lt → key a < key b) (hrank : ∀ id, diffRank (key id) = i)
    {stage : Nat → K → Option M → Option M → List StagedWrite}
    (hstage : ∀ ti b s, ((currentWrites (stage ti.1 ti.2 b s)).map Prod.fst).Sublist [key ti])
    (base state : Nested Nat K M) : DiffPart i (currentWrites (diffNested stage base state)) := by
  rw [currentWrites_diffNested]
  exact diffPart_of_ids key hrank ((nestedIds_sorted _ _).imp fun h => hlt _ _ h) fun ti => hstage ti _ _

private theorem key_lt_flat {key : Nat → CurrentKey} (d : Nat) (h : ∀ id, (key id).components = [0, d, id])
    (a b : Nat) (hlt : compare a b = .lt) : key a < key b := by
  have := compare_lt_iff_lt.mp hlt
  simp [CurrentKey.lt_iff, h, List.cons_lt_cons_iff, this]

private theorem key_lt_nested (key : Nat × Nat → CurrentKey) (d : Nat)
    (h : ∀ ti, (key ti).components = [0, d, ti.1, ti.2]) (a b : Nat × Nat) (hlt : compare a b = .lt) :
    key a < key b := by
  have := compare_pair_eq_lt.mp hlt
  rw [compare_lt_iff_lt, compare_lt_iff_lt, Std.compare_eq_iff_eq] at this
  simpa [CurrentKey.lt_iff, h, List.cons_lt_cons_iff] using this

private theorem diffPart_flat (kind : Nat → EntityKey) {d : Nat} {base state : ExtTreeMap Nat M}
    {stage : Nat → Option M → Option M → List StagedWrite}
    (hstage : ∀ id b s, ((currentWrites (stage id b s)).map Prod.fst).Sublist [.entity (kind id)])
    (hd : ∀ id, (CurrentKey.entity (kind id)).components = [0, d, id] := by intros; rfl)
    (hrank : ∀ id, diffRank (.entity (kind id)) = i := by intros; rfl) :
    DiffPart i (currentWrites (diffMap stage base state)) :=
  diffPart_map _ (key_lt_flat d hd) hrank hstage base state

private theorem diffPart_scoped (kind : Nat → Nat → EntityKey) {d : Nat} {base state : Nested Nat Nat M}
    {stage : Nat → Nat → Option M → Option M → List StagedWrite}
    (hstage : ∀ t id b s, ((currentWrites (stage t id b s)).map Prod.fst).Sublist [.entity (kind t id)])
    (hd : ∀ ti : Nat × Nat, (CurrentKey.entity (kind ti.1 ti.2)).components = [0, d, ti.1, ti.2] := by
      intros; rfl)
    (hrank : ∀ ti : Nat × Nat, diffRank (.entity (kind ti.1 ti.2)) = i := by intros; rfl) :
    DiffPart i (currentWrites (diffNested stage base state)) :=
  diffPart_nested _ (key_lt_nested _ d hd) hrank (fun ti => hstage ti.1 ti.2) base state

/-- The entries of the staged view's mappings, in key order. -/
private theorem diffPart_mappings (base state : CatalogSnapshot) :
    DiffPart 10 (currentWrites (diffMappings base state)) := by
  have hids : diffMappings base state =
      (state.mappings.toList.flatMap fun p => p.2.toList.map fun q => (p.1, q)).flatMap fun x =>
        stageOverwrite .mapping (.entity (.mapping x.1 x.2.1)) (getNested base.mappings x.1 x.2.1)
          (some x.2.2) := by
    simp only [diffMappings, List.flatMap_assoc, List.flatMap_map]
  have hlt := key_lt_nested (fun ti => .entity (.mapping ti.1 ti.2)) 14 fun _ => rfl
  rw [hids, currentWrites_flatMap]
  refine diffPart_of_ids (fun x => .entity (.mapping x.1 x.2.1)) (fun _ => rfl) ?_ fun x => keys_stageOverwrite
  refine List.pairwise_flatMap.mpr ⟨fun p _ => List.pairwise_map.mpr ?_, ?_⟩
  · refine ExtTreeMap.ordered_keys_toList.imp fun hm => ?_
    exact hlt (p.1, _) (p.1, _) (compare_pair_eq_lt.mpr (.inr ⟨Std.ReflCmp.compare_self, hm⟩))
  · refine ExtTreeMap.ordered_keys_toList.imp fun ht x hx y hy => ?_
    obtain ⟨q, -, rfl⟩ := List.mem_map.mp hx
    obtain ⟨q', -, rfl⟩ := List.mem_map.mp hy
    exact hlt (_, q.1) (_, q'.1) (compare_pair_eq_lt.mpr (.inl ht))

variable (base state : CatalogSnapshot) (newSnapshot : Nat)

private theorem currentWrites_diffWrites :
    currentWrites (diffWrites base state newSnapshot) =
      ((diffParts base state newSnapshot).map currentWrites).flatten :=
  List.filterMap_flatten ..

private theorem diffPart_getElem (i : Nat) (cws : List (CurrentKey × Option EntityRecord))
    (h : ((diffParts base state newSnapshot).map currentWrites)[i]? = some cws) : DiffPart i cws := by
  match i, h with
  | 0, h => cases h; exact diffPart_flat .schema fun _ _ _ => keys_stageTransition
  | 1, h => cases h; exact diffPart_flat .table fun _ _ _ => keys_stageTransitionWithInternal
  | 2, h => cases h; exact diffPart_flat .view fun _ _ _ => keys_stageTransition
  | 3, h => cases h; exact diffPart_scoped .column fun _ _ _ _ => keys_stageTransitionWithInternal
  | 4, h => cases h; exact diffPart_scoped .file fun _ _ _ _ => keys_stageTransition
  | 5, h => cases h; exact diffPart_scoped .deleteFile fun _ _ _ _ => keys_stageTransition
  | 6, h => cases h; exact diffPart_scoped .partition fun _ _ _ _ => keys_stageTransition
  | 7, h => cases h; exact diffPart_scoped .sort fun _ _ _ _ => keys_stageTransition
  | 8, h => cases h; exact diffPart_scoped .index fun _ _ _ _ => keys_stageTransition
  | 9, h => cases h; exact diffPart_flat .macroDef fun _ _ _ => keys_stageTransition
  | 10, h => cases h; exact diffPart_mappings base state
  | 11, h => cases h; exact diffPart_flat .tableStats fun _ _ _ => keys_stageOverwrite
  | 12, h => cases h; exact diffPart_scoped .tableColumnStats fun _ _ _ _ => keys_stageOverwrite
  | 13, h =>
    cases h
    refine diffPart_nested (fun tfc => .entity (.fileColumnStats tfc.1 tfc.2.1 tfc.2.2)) (fun a b hlt => ?_)
      (fun _ => rfl) (fun tfc b s => ?_) _ _
    · have := compare_pair_eq_lt.mp hlt
      rw [compare_lt_iff_lt, Std.compare_eq_iff_eq, compare_pair_eq_lt, compare_lt_iff_lt, compare_lt_iff_lt,
        Std.compare_eq_iff_eq] at this
      simpa [CurrentKey.lt_iff, CurrentKey.components, List.cons_lt_cons_iff] using this
    · split
      · exact List.nil_sublist _
      · exact keys_stageOverwrite
  | 14, h =>
    cases h
    refine diffPart_map (fun ks => .entity (.option ks.1 ks.2)) (key_lt_nested _ 11 fun _ => rfl) (fun _ => rfl)
      (fun _ _ _ => ?_) _ _
    exact keys_stageOverwrite
  | 15, h => cases h; exact diffPart_flat .tag fun _ _ _ => keys_stageOverwrite
  | 16, h =>
    cases h
    refine diffPart_map .gcFile (fun a b hlt => ?_) (fun _ => rfl) (fun _ _ _ => ?_) _ _
    · have := compare_lt_iff_lt.mp hlt
      simp [CurrentKey.lt_iff, CurrentKey.components, List.cons_lt_cons_iff, this]
    · exact keys_stageOverwrite

/-- Kind by kind, and in key order within a kind. -/
theorem diffWrites_ordered :
    (currentWrites (diffWrites base state newSnapshot)).Pairwise fun a b =>
      diffRank a.1 < diffRank b.1 ∨ diffRank a.1 = diffRank b.1 ∧ a.1 < b.1 := by
  have hpart := diffPart_getElem base state newSnapshot
  rw [currentWrites_diffWrites, List.pairwise_flatten]
  constructor
  · intro cws hcws
    obtain ⟨i, hi⟩ := List.mem_iff_getElem?.mp hcws
    have h := hpart i cws hi
    refine h.sorted.imp_of_mem fun ha hb hlt => .inr ⟨?_, hlt⟩
    rw [h.rank _ ha, h.rank _ hb]
  · rw [List.pairwise_iff_getElem]
    intro i j hi hj hij a ha b hb
    rw [(hpart i _ (List.getElem?_eq_getElem hi)).rank a ha,
      (hpart j _ (List.getElem?_eq_getElem hj)).rank b hb]
    exact .inl hij

end Parts

/-! ## Folding the diff against rebuilding from the store -/

/-- Every record of the view is live at head. -/
def CatalogSnapshot.Live (v : CatalogSnapshot) : Prop := ∀ k r, v.get k = some r → isLive none r = true

/-- Every name the staged view holds keeps its link through a key-ordered batch. With `m` the greatest
    key that holds the name after the commit: no greater key held the name before it, and unless the
    commit changes `m` itself, no smaller key it changes held the name before or holds it after. -/
def NamesSettle (base state : CatalogSnapshot) : Prop :=
  ∀ n m, IsGreatest {k | state.directory.held k = some n} m →
    (∀ k, m < k → base.directory.held k ≠ some n) ∧
      (base.get m ≠ state.get m ∨ ∀ k, k < m → base.get k ≠ state.get k →
        base.directory.held k ≠ some n ∧ state.directory.held k ≠ some n)

section FoldDiff

variable {base state : CatalogSnapshot} {newSnapshot : Nat}

theorem foldable_diffWrites (base : CatalogSnapshot) (newSnapshot : Nat) (hstate : state.WellKeyed) :
    Foldable (currentWrites (diffWrites base state newSnapshot)) where
  nodup := by
    rw [List.nodup_iff_pairwise_ne, List.pairwise_map]
    refine (diffWrites_ordered base state newSnapshot).imp fun h heq => ?_
    rcases h with h | h
    · exact absurd (congrArg diffRank heq) h.ne
    · exact h.2.ne heq
  keyed w hw r hr := hstate w.1 r ((diffWrites_sound base state newSnapshot hw).1 ▸ hr)
  noMappingDelete w hw := (diffWrites_sound base state newSnapshot hw).2.2

/-- Two keys that hold one name are of one kind. -/
private theorem diffRank_eq_of_nameKey {r r' : EntityRecord} {n : NameKey} (h : r.nameKey = some n)
    (h' : r'.nameKey = some n) : diffRank r.key = diffRank r'.key := by
  cases r <;> cases r' <;> simp_all [EntityRecord.nameKey] <;> subst n <;> simp_all <;> rfl

private theorem record_of_touches (hbase : base.WellKeyed) (hstate : state.WellKeyed)
    {w : CurrentKey × Option EntityRecord} {n : NameKey}
    (hw : w ∈ currentWrites (diffWrites base state newSnapshot))
    (h : base.directory.Touches n (w.1, w.2.bind EntityRecord.nameKey)) :
    ∃ r : EntityRecord, r.key = w.1 ∧ r.nameKey = some n := by
  rcases h with h | h
  · obtain ⟨r, hr, hn⟩ := Option.bind_eq_some_iff.mp h
    exact ⟨r, hstate w.1 r ((diffWrites_sound base state newSnapshot hw).1 ▸ hr), hn⟩
  · obtain ⟨r, hr, hn⟩ := Option.bind_eq_some_iff.mp h
    exact ⟨r, hbase w.1 r hr, hn⟩

theorem inOrder_diffWrites (hbase : base.WellKeyed) (hstate : state.WellKeyed) :
    base.directory.InOrder (nameWrites (currentWrites (diffWrites base state newSnapshot))) := by
  intro n
  rw [nameWrites, List.pairwise_map]
  refine (diffWrites_ordered base state newSnapshot).imp_of_mem fun {a b} ha hb hab hta htb => ?_
  obtain ⟨r, hr, hrn⟩ := record_of_touches hbase hstate ha hta
  obtain ⟨r', hr', hrn'⟩ := record_of_touches hbase hstate hb htb
  have hrank : diffRank a.1 = diffRank b.1 := by
    rw [← hr, ← hr']
    exact diffRank_eq_of_nameKey hrn hrn'
  exact (hab.resolve_left hrank.not_lt).2

/-- After the batch every key holds the name it holds in the staged view. -/
theorem held_applyCurrent_diffWrites (hstate : state.WellKeyed) (k : CurrentKey) :
    (base.applyCurrent (currentWrites (diffWrites base state newSnapshot))).directory.held k =
      state.directory.held k := by
  have hfold := foldable_diffWrites base newSnapshot hstate
  by_cases hk : k ∈ (currentWrites (diffWrites base state newSnapshot)).map Prod.fst
  · obtain ⟨w, hw, rfl⟩ := List.mem_map.mp hk
    simp only [directory, get_applyCurrent_of_mem hfold hw, (diffWrites_sound base state newSnapshot hw).1]
  · simp only [directory, get_applyCurrent_of_not_mem hfold hk]
    -- An unwritten key that differs holds no name on either side.
    by_contra hne
    refine hk (List.mem_map.mpr ⟨_, mem_diffWrites_of_named (k := k) ?_ ?_, rfl⟩)
    · exact fun h => hne (by rw [h])
    · by_contra hnone
      push Not at hnone
      exact hne (hnone.1.trans hnone.2.symm)

theorem settled_diffWrites_iff (newSnapshot : Nat) (hstate : state.WellKeyed) :
    base.directory.Settled (nameWrites (currentWrites (diffWrites base state newSnapshot))) ↔
      NamesSettle base state := by
  have hfold := foldable_diffWrites base newSnapshot hstate
  have hkeys : (nameWrites (currentWrites (diffWrites base state newSnapshot))).map Prod.fst =
      (currentWrites (diffWrites base state newSnapshot)).map Prod.fst := by
    simp [nameWrites, Function.comp_def]
  refine Directory.settled_iff ?_ (fun k => ?_) (fun k hk => ?_) fun k n hne hn => ?_
  · rw [hkeys]
    exact hfold.nodup
  · rw [← directory_applyCurrent hfold, held_applyCurrent_diffWrites hstate]
  · rw [hkeys] at hk
    obtain ⟨w, hw, rfl⟩ := List.mem_map.mp hk
    exact (diffWrites_sound base state newSnapshot hw).2.1
  · rw [hkeys]
    refine List.mem_map.mpr ⟨_, mem_diffWrites_of_named hne ?_, rfl⟩
    exact hn.imp (fun h => by simp [h]) fun h => by simp [h]

/-- The rebuilt view after the batch shows the records the folded one shows. -/
theorem get_fold_eq_get_rebuild {store : Store} (hstore : store.WellKeyed) (hstate : state.WellKeyed)
    (hlive : state.Live) (snapshot snapshot' : SnapshotValue) (k : CurrentKey) :
    ((store.viewAt snapshot).applyCurrent
      (currentWrites (diffWrites (store.viewAt snapshot) state newSnapshot))).get k =
    ((store.applyBatch (diffWrites (store.viewAt snapshot) state newSnapshot)).viewAt snapshot').get k := by
  have hfold := foldable_diffWrites (store.viewAt snapshot) newSnapshot hstate
  rw [Store.viewAt_get (hstore.applyBatch hfold), applyBatch_current]
  by_cases hk : k ∈ (currentWrites (diffWrites (store.viewAt snapshot) state newSnapshot)).map Prod.fst
  · obtain ⟨w, hw, rfl⟩ := List.mem_map.mp hk
    rw [get_applyCurrent_of_mem hfold hw, getElem?_setKeys_of_mem hfold.nodup hw,
      (diffWrites_sound _ _ _ hw).1]
    cases hget : state.get w.1 with
    | none => rfl
    | some r => rw [Option.filter_some, if_pos (hlive _ r hget)]
  · rw [get_applyCurrent_of_not_mem hfold hk, getElem?_setKeys_of_not_mem hk, Store.viewAt_get hstore]

/-- Folding the diff of a rebuilt view always succeeds, and gives the view rebuilt from the store after
    the batch exactly when every name settles. -/
theorem foldBatch_diffWrites_iff {store : Store} (hstore : store.WellKeyed) (hstate : state.WellKeyed)
    (hlive : state.Live) (snapshot snapshot' : SnapshotValue) (newSnapshot : Nat) :
    ∃ folded, (store.viewAt snapshot).foldBatch (diffWrites (store.viewAt snapshot) state newSnapshot) =
        .ok folded ∧
      (folded.Same ((store.applyBatch (diffWrites (store.viewAt snapshot) state newSnapshot)).viewAt snapshot') ↔
        NamesSettle (store.viewAt snapshot) state) := by
  have hfold := foldable_diffWrites (store.viewAt snapshot) newSnapshot hstate
  have hbase := Store.viewAt_wellKeyed hstore snapshot
  have hstore' := hstore.applyBatch hfold
  obtain ⟨_, _, hok⟩ := foldBatch_eq_ok (store.viewAt snapshot) hfold.noMappingDelete
  refine ⟨_, hok, ?_⟩
  rw [same_stamp_iff, ← settled_diffWrites_iff newSnapshot hstate]
  exact same_applyCurrent_iff hbase (Store.viewAt_wellKeyed hstore' _) (Store.viewAt_faithful hstore _)
    (Store.viewAt_faithful hstore' _) (Store.viewAt_finite hstore _) hfold
    (inOrder_diffWrites hbase hstate) (get_fold_eq_get_rebuild hstore hstate hlive _ _)

end FoldDiff

end Moraine
