-- SUMMARY: The column trees of a table: the records new columns become, and the subtree that a drop walks.
import Moraine.Base.Walk
import Moraine.Transaction.Removals
import Moraine.Transaction.VerbSteps

/-!
# Column trees

New columns are numbered in preorder, so a field's id is above its parent's. Where this holds of all live columns,
they are a forest: the walk that collects a column's subtree ends, and it collects the column and every field
beneath it.
-/

namespace Moraine

open Std OrdMap CatalogSnapshot Transaction

/-! ## The records of new columns -/

/-- A record of a column tree begun at `n` that is numbered from `id` on, beneath `parent`. -/
structure InTree (t n : Nat) (parent : Option Nat) (id size : Nat) (c : ColumnValue) : Prop where
  table : c.tableId = t
  begun : (EntityRecord.column c).lifecycle = some (n, none)
  first : id ≤ c.columnId
  last : c.columnId < id + size
  parents : c.parentColumn = parent ∨ ∃ p, c.parentColumn = some p ∧ id ≤ p ∧ p < c.columnId

theorem InTree.mono {t n id size id' size' : Nat} {parent : Option Nat} {c : ColumnValue}
    (h : InTree t n parent id size c) (hid : id' ≤ id) (hsize : id + size ≤ id' + size') :
    InTree t n parent id' size' c where
  table := h.table
  begun := h.begun
  first := hid.trans h.first
  last := h.last.trans_le hsize
  parents := h.parents.imp_right fun ⟨p, hp, hle, hlt⟩ => ⟨p, hp, hid.trans hle, hlt⟩

mutual

theorem inTree_of_mem_columnRecords (t n : Nat) : ∀ (defs : List ColumnDef) (parent : Option Nat) (id order : Nat)
    {c : ColumnValue}, c ∈ columnRecords t n defs parent id order → InTree t n parent id (columnNodeCount defs) c
  | [], _, _, _, _, h => absurd h List.not_mem_nil
  | column :: defs, parent, id, order, c, h => by
    rcases List.mem_append.mp h with h | h
    · exact (inTree_of_mem_treeRecords t n column parent id order h).mono (Nat.le_refl _)
        (by simp only [columnNodeCount]; omega)
    · exact (inTree_of_mem_columnRecords t n defs parent _ _ h).mono (Nat.le_add_right _ _)
        (by simp only [columnNodeCount]; omega)

theorem inTree_of_mem_treeRecords (t n : Nat) : ∀ (column : ColumnDef) (parent : Option Nat) (id order : Nat)
    {c : ColumnValue}, c ∈ treeRecords t n column parent id order → InTree t n parent id (nodeCount column) c
  | .mk name columnType nullsAllowed defaultValue children, parent, id, order, c, h => by
    rcases List.mem_cons.mp h with rfl | h
    · exact ⟨rfl, rfl, Nat.le_refl _, by simp only [newColumn, nodeCount]; omega, .inl rfl⟩
    · have hin := inTree_of_mem_columnRecords t n children (some id) (id + 1) (order + 1) h
      refine ⟨hin.table, hin.begun, by have := hin.first; omega, by have := hin.last; simp only [nodeCount]; omega,
        .inr ?_⟩
      rcases hin.parents with hp | ⟨p, hp, hle, hlt⟩
      · exact ⟨id, hp, Nat.le_refl _, by have := hin.first; omega⟩
      · exact ⟨p, hp, by omega, hlt⟩

end

/-! ## Subtrees -/

/-- A field's id is above its parent's. -/
def ParentsBelow (f : CurrentKey → Option EntityRecord) : Prop :=
  ∀ t c value p, f (.entity (.column t c)) = some (.column value) → value.parentColumn = some p → p < c

/-- `d` is a live field directly beneath `p`. -/
def ChildColumn (v : CatalogSnapshot) (t p d : Nat) : Prop :=
  ∃ value, getNested v.columns t d = some value ∧ value.parentColumn = some p

/-- `d` is `c` or a live field beneath it. -/
def BeneathColumn (v : CatalogSnapshot) (t : Nat) : Nat → Nat → Prop := Relation.ReflTransGen (ChildColumn v t)

variable {v : CatalogSnapshot} {t c d p : Nat}

theorem mem_columnsOf {value : ColumnValue} : value ∈ columnsOf v t ↔ ∃ c, getNested v.columns t c = some value :=
  mem_getD_values

/-- A live column's own id is the one it stands under. -/
theorem CatalogSnapshot.Sound.columnId_eq (hv : v.Sound) {value : ColumnValue}
    (h : getNested v.columns t c = some value) :
    value.columnId = c := by
  have hkey := (hv _ _ (get_column h)).1
  simp only [EntityRecord.key, CurrentKey.entity.injEq, EntityKey.column.injEq] at hkey
  exact hkey.2

theorem CatalogSnapshot.Sound.mem_childrenOf (hv : v.Sound) : d ∈ childrenOf v t p ↔ ChildColumn v t p d := by
  simp only [childrenOf, List.mem_map, List.mem_filter, mem_columnsOf, beq_iff_eq]
  constructor
  · rintro ⟨value, ⟨⟨d', hd'⟩, hparent⟩, rfl⟩
    exact ⟨value, hv.columnId_eq hd' ▸ hd', hparent⟩
  · rintro ⟨value, hvalue, hparent⟩
    exact ⟨value, ⟨⟨d, hvalue⟩, hparent⟩, hv.columnId_eq hvalue⟩

theorem CatalogSnapshot.Sound.nodup_columnIds (hv : v.Sound) : ((columnsOf v t).map ColumnValue.columnId).Nodup := by
  have hkeys : (columnsOf v t).map ColumnValue.columnId = (v.columns.getD t ∅).keys := by
    rw [columnsOf, values_eq_map_toList, ← ExtTreeMap.map_fst_toList_eq_keys, List.map_map]
    refine List.map_congr_left fun ⟨c, value⟩ h => ?_
    rw [ExtTreeMap.mem_toList_iff_getElem?_eq_some, getElem?_getD_inner] at h
    exact hv.columnId_eq h
  rw [hkeys]
  exact ExtTreeMap.nodup_keys

theorem subtreeWalk_eq (v : CatalogSnapshot) (t fuel : Nat) (visited pending : List Nat) :
    subtreeWalk v t fuel visited pending = Walk.walk (childrenOf v t) fuel visited pending := by
  induction fuel generalizing visited pending with
  | zero => cases pending <;> rfl
  | succ fuel ih =>
    cases pending with
    | nil => rfl
    | cons parent pending => exact ih _ _

/-- The subtree is the column and the fields beneath it. -/
theorem CatalogSnapshot.Sound.mem_columnSubtree (hv : v.Sound) {doomed : List Nat}
    (h : columnSubtree v t c = some doomed) :
    d ∈ doomed ↔ BeneathColumn v t c d := by
  rw [columnSubtree, subtreeWalk_eq] at h
  rw [Walk.mem_walk_iff h, Walk.Beneath, BeneathColumn]
  simp only [hv.mem_childrenOf]

theorem CatalogSnapshot.Sound.forest (hv : v.Sound) (hbelow : ParentsBelow v.get) (t : Nat) :
    Walk.Forest (childrenOf v t) id ((columnsOf v t).map ColumnValue.columnId) where
  nodes p d hd := by
    obtain ⟨value, hvalue, -⟩ := hv.mem_childrenOf.mp hd
    exact List.mem_map.mpr ⟨value, mem_columnsOf.mpr ⟨d, hvalue⟩, hv.columnId_eq hvalue⟩
  above p d hd := by
    obtain ⟨value, hvalue, hparent⟩ := hv.mem_childrenOf.mp hd
    exact hbelow t d value p (get_column hvalue) hparent
  parent p q d hp hq := by
    obtain ⟨value, hvalue, hparent⟩ := hv.mem_childrenOf.mp hp
    obtain ⟨value', hvalue', hparent'⟩ := hv.mem_childrenOf.mp hq
    obtain rfl : value = value' := Option.some.inj (hvalue.symm.trans hvalue')
    exact Option.some.inj (hparent.symm.trans hparent')
  nodup p := hv.nodup_columnIds.sublist (List.filter_sublist.map _)

/-- The walk from a live column ends. -/
theorem CatalogSnapshot.Sound.columnSubtree_isSome (hv : v.Sound) (hbelow : ParentsBelow v.get)
    (hlive : (getNested v.columns t c).isSome) : (columnSubtree v t c).isSome := by
  obtain ⟨value, hvalue⟩ := Option.isSome_iff_exists.mp hlive
  rw [columnSubtree, subtreeWalk_eq, ← List.length_map ColumnValue.columnId]
  refine Walk.walk_isSome (hv.forest hbelow t) (List.mem_map.mpr ⟨value, mem_columnsOf.mpr ⟨c, hvalue⟩, ?_⟩)
  exact hv.columnId_eq hvalue

end Moraine
