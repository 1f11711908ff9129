-- SUMMARY: What dropping a column ends: the column, the fields beneath it and their statistics, and nothing else.
import Moraine.Transaction.Integrity

/-!
# Column drops

In every state that verbs reach, the parent of a live field is live and has a smaller id. So the columns of a table are
trees: the walk that collects a column's subtree ends and visits each field once, after its parent. A drop that is
accepted removes what the walk collects. What is left are trees again, and at least one of them.
-/

namespace Moraine

open OrdMap CatalogSnapshot Transaction References

/-! ## Parents -/

/-- The key of a field's parent. -/
def EntityRecord.parents : CurrentKey → EntityRecord → List CurrentKey
  | .entity (.column t _), .column value => (value.parentColumn.map fun p => .entity (.column t p)).toList
  | _, _ => []

/-- The parent of every live field is live. -/
def ParentsLive (f : CurrentKey → Option EntityRecord) : Prop := Closed EntityRecord.parents f

section Parents

variable {v w : CatalogSnapshot} {t c d : Nat}

theorem mem_parents {k k' : CurrentKey} {r : EntityRecord} : k' ∈ r.parents k ↔ ∃ t c value p,
    k = .entity (.column t c) ∧ r = .column value ∧ value.parentColumn = some p ∧ k' = .entity (.column t p) := by
  constructor
  · intro h
    unfold EntityRecord.parents at h
    split at h
    · simp only [Option.mem_toList, Option.map_eq_some_iff] at h
      obtain ⟨p, hp, rfl⟩ := h
      exact ⟨_, _, _, p, rfl, rfl, hp, rfl⟩
    · cases h
  · rintro ⟨t, c, value, p, rfl, rfl, hp, rfl⟩
    simp [EntityRecord.parents, hp]

theorem ParentsLive.parent (h : ParentsLive v.get) {value : ColumnValue} {p : Nat}
    (hvalue : getNested v.columns t c = some value) (hp : value.parentColumn = some p) :
    (getNested v.columns t p).isSome :=
  isSome_get_column.mp (h _ _ (get_column hvalue) _ (mem_parents.mpr ⟨t, c, value, p, rfl, rfl, hp, rfl⟩))

theorem ParentsLive.of_columns (h : ParentsLive v.get) (hcolumns : w.columns = v.columns) : ParentsLive w.get := by
  have hget : ∀ t c, w.get (.entity (.column t c)) = v.get (.entity (.column t c)) := fun t c => by
    simp only [CatalogSnapshot.get, hcolumns]
  intro k r hr k' hk'
  obtain ⟨t, c, value, p, rfl, rfl, -, rfl⟩ := mem_parents.mp hk'
  rw [hget] at hr ⊢
  exact h _ _ hr _ hk'

/-- Another column, or another version of one, beneath a live parent. -/
theorem ParentsLive.putColumn (h : ParentsLive v.get) {value : ColumnValue} (htable : value.tableId = t)
    (hparent : ∀ p, value.parentColumn = some p → (v.get (.entity (.column t p))).isSome) :
    ParentsLive (v.putRecord (.column value)).get := by
  refine h.put (put_putRecord v (.column value)) fun k hk => .inr ?_
  obtain ⟨t', c', value', p, hkey, hvalue, hp, rfl⟩ := mem_parents.mp hk
  cases hvalue
  cases hkey
  rw [htable]
  exact hparent p hp

theorem ParentsLive.dropTable (h : ParentsLive v.get) (t : Nat) : ParentsLive (v.deleteTable t).get := by
  refine (h.drop_iff (drop_of_ite (v.get_deleteTable t))).mpr fun k r hk _ k' hk' hD => hk ?_
  obtain ⟨t', c, value, p, rfl, -, -, rfl⟩ := mem_parents.mp hk'
  exact hD

/-- A whole subtree goes. -/
theorem ParentsLive.dropColumns (h : ParentsLive v.get) {doomed : List Nat}
    (hdoomed : ∀ d, d ∈ doomed ↔ BeneathColumn v t c d) :
    ParentsLive (doomed.foldl (fun v id => v.deleteColumn t id) v).get := by
  refine (h.drop_iff (drop_of_ite (get_deleteColumns v t doomed))).mpr fun k r hk hr k' hk' hD => hk ?_
  obtain ⟨t', d, value, p, rfl, rfl, hp, rfl⟩ := mem_parents.mp hk'
  obtain ⟨q, hq, heq | heq⟩ := hD
  · cases heq
    have hlive : getNested v.columns t d = some value := by simpa [CatalogSnapshot.get] using hr
    exact ⟨d, (hdoomed d).mpr (((hdoomed p).mp hq).tail ⟨value, hlive, hp⟩), .inl rfl⟩
  · cases heq

end Parents

/-! ## Calls keep parents live -/

section Calls

variable {tx tx' : Transaction} {call : Call} {t : Nat}

theorem columns_withoutSort (v : CatalogSnapshot) (t : Nat) : (Call.withoutSort v t).columns = v.columns := by
  unfold Call.withoutSort
  split <;> rfl

theorem columns_deleteSchema (v : CatalogSnapshot) (schema : Nat) : (v.deleteSchema schema).columns = v.columns := by
  unfold deleteSchema removeSchemaOnly
  split <;> rfl

theorem columns_deleteIndex (v : CatalogSnapshot) (t i : Nat) : (v.deleteIndex t i).columns = v.columns := by
  unfold deleteIndex
  split <;> rfl

theorem columns_withoutDataFile (v : CatalogSnapshot) (t f : Nat) : (withoutDataFile v t f).columns = v.columns := by
  have hdeletes : ∀ (ids : List Nat) (v : CatalogSnapshot),
      (ids.foldl (fun v id => v.deleteDeleteFile t id) v).columns = v.columns := by
    intro ids
    induction ids with
    | nil => exact fun _ => rfl
    | cons id ids ih => exact fun v => ih _
  exact hdeletes _ v

theorem columns_registeredFile (file : DataFile) (tstat : TableStatsValue) (partitionId : Option Nat) :
    (registeredFile tx t file tstat partitionId).state.columns = tx.state.columns := by
  obtain ⟨stats, h⟩ := putFileStats_eq _ t tx.nextFileId file.columnStats
  rw [registeredFile, h]
  rfl

theorem columns_flushed {ceiling : Nat} {flushes : List FlushedDataFile} (h : FlushedFiles t ceiling flushes tx tx') :
    tx'.state.columns = tx.state.columns := by
  induction h with
  | nil => rfl
  | @cons flush flushes tx tx' tstat partitionId fits rest ih =>
    obtain ⟨stats, hstats⟩ := putFileStats_eq _ t tx.nextFileId flush.file.columnStats
    rw [ih, flushedFile, hstats]
    rfl

theorem parentsLive_effect (hv : tx.state.Sound) (h : ParentsLive tx.state.get) (heffect : Call.Effect tx call tx') :
    ParentsLive tx'.state.get := by
  cases heffect with
  | @createTable _ _ _ columns _ value =>
    have hput : ParentsLive (tx.state.putRecord (.table value)).get := h.of_columns rfl
    have hcolumns := putColumns_keeps (P := fun v => ParentsLive v.get) tx.nextCatalogId tx.newSnapshotId
      (fun v c h => h.putColumn) columns none 1 1 hput nofun
    exact hcolumns.of_columns rfl
  | @addColumn t nextOrder column value live free distinct nextId =>
    have hcolumns := putTree_keeps (P := fun v => ParentsLive v.get) t tx.newSnapshotId (fun v c h => h.putColumn)
      column
      none nextId nextOrder h nofun
    exact hcolumns.of_columns rfl
  | renameColumn live | alterColumn live =>
    have hkey := (hv _ _ (get_column live)).1
    simp only [EntityRecord.key, CurrentKey.entity.injEq, EntityKey.column.injEq] at hkey
    exact h.putColumn hkey.1 fun p hp => isSome_get_column.mpr (h.parent live hp)
  | dropColumn live subtree => exact h.dropColumns fun d => hv.mem_columnSubtree subtree
  | dropTable => exact h.dropTable _
  | dropSchema => exact h.of_columns (columns_deleteSchema _ _)
  | dropIndex => exact h.of_columns (columns_deleteIndex _ _ _)
  | setPartitioning | clearPartitioning => exact h.of_columns (columns_withoutPartition _ _)
  | setSorting | clearSorting => exact h.of_columns (columns_withoutSort _ _)
  | registerDataFile => exact h.of_columns (columns_registeredFile ..)
  | expireDataFile => exact h.of_columns (columns_withoutDataFile _ _ _)
  | setTag live retagged | removeTag live retagged =>
    obtain ⟨tags, rfl, -⟩ := retagged
    exact h.of_columns rfl
  | flushInlinedData live stats files =>
    have hcolumns := columns_flushed files
    exact h.of_columns hcolumns
  | _ => exact h.of_columns rfl

theorem parentsLive_stopped (h : ParentsLive tx.state.get) (hstop : Call.Partial tx call tx') :
    ParentsLive tx'.state.get := by
  cases hstop with
  | registerDataFile => exact h.of_columns (columns_registeredFile ..)
  | expireDataFile => exact h.of_columns (columns_withoutDataFile _ _ _)
  | flushInlinedData live stats some files refused idle =>
    obtain ⟨next, -, rfl⟩ := idle
    have hcolumns := columns_flushed files
    exact h.of_columns hcolumns
  | _ => exact h.of_columns rfl

theorem parentsLive_after (hv : tx.state.Sound) (h : ParentsLive tx.state.get) (call : Call) :
    ParentsLive (call.after tx).state.get := by
  refine Call.after_of (p := fun tx' => ParentsLive tx'.state.get) (parentsLive_effect hv h) ?_ (parentsLive_stopped h)
  rintro _ ⟨next, -, rfl⟩
  exact h

theorem blind_parentsLive : Blind fun r => ParentsLive r.records := by
  intro a b hpasses hlive k r hr k' hk'
  obtain ⟨poisoned, hrecords⟩ := hpasses.records
  obtain ⟨t, c, value, p, rfl, rfl, hp, rfl⟩ := mem_parents.mp hk'
  rw [hrecords _ rfl] at hr ⊢
  obtain ⟨r, hr, heq⟩ := Option.map_eq_some_iff.mp hr
  obtain rfl : r = .column value := heq
  exact Option.isSome_map.trans (hlive _ _ hr _ hk')

theorem parentsLive_start (micros : Int) (uuid : String) (encrypted : Bool) (dataPath : Option String) :
    ParentsLive (Session.start micros uuid encrypted dataPath).tx.reading.records := by
  intro k r hr k' hk'
  rcases Session.start_records_cases micros uuid encrypted dataPath hr with ⟨rfl, _, rfl, -⟩ | ⟨rfl, _, rfl⟩ <;>
    cases hk'

end Calls

/-! ## Trees -/

/-- The columns of every table are trees. -/
structure ColumnForest (f : CurrentKey → Option EntityRecord) : Prop where
  below : ParentsBelow f
  live : ParentsLive f

section Trees

variable {v : CatalogSnapshot} {t c d : Nat}

/-- Every live column lies beneath a top-level one. -/
theorem ColumnForest.exists_top (h : ColumnForest v.get) {value : ColumnValue}
    (hvalue : getNested v.columns t c = some value) :
    ∃ top topValue, getNested v.columns t top = some topValue ∧ topValue.parentColumn = none ∧
      BeneathColumn v t top c := by
  induction c using Nat.strong_induction_on generalizing value with
  | _ c ih =>
    cases hp : value.parentColumn with
    | none => exact ⟨c, value, hvalue, hp, .refl⟩
    | some p =>
      obtain ⟨parent, hparent⟩ := Option.isSome_iff_exists.mp (h.live.parent hvalue hp)
      obtain ⟨top, topValue, htop, hnone, hbeneath⟩ := ih p (h.below t c value p (get_column hvalue) hp) hparent
      exact ⟨top, topValue, htop, hnone, hbeneath.tail ⟨value, hvalue, hp⟩⟩

/-- Only the column itself is top-level among those beneath it. -/
theorem BeneathColumn.eq_of_top (h : BeneathColumn v t c d) {value : ColumnValue}
    (hvalue : getNested v.columns t d = some value) (hnone : value.parentColumn = none) : d = c := by
  rcases Relation.ReflTransGen.cases_tail h with heq | ⟨p, -, value', hvalue', hp⟩
  · exact heq
  · obtain rfl := Option.some.inj (hvalue.symm.trans hvalue')
    rw [hnone] at hp
    cases hp

/-- Where there are two top-level columns, there is one besides any. -/
theorem exists_other_top (hv : v.Sound) (hmany : 1 < ((columnsOf v t).filter (·.parentColumn.isNone)).length)
    (c : Nat) :
    ∃ top value, getNested v.columns t top = some value ∧ value.parentColumn = none ∧ top ≠ c := by
  by_contra hno
  push Not at hno
  have hids : ((columnsOf v t).filter (·.parentColumn.isNone)).map ColumnValue.columnId =
      List.replicate ((columnsOf v t).filter (·.parentColumn.isNone)).length c := by
    refine List.eq_replicate_iff.mpr ⟨List.length_map _, fun id hid => ?_⟩
    obtain ⟨value, hvalue, rfl⟩ := List.mem_map.mp hid
    obtain ⟨hmem, hnone⟩ := List.mem_filter.mp hvalue
    obtain ⟨top, htop⟩ := mem_columnsOf.mp hmem
    rw [hv.columnId_eq htop]
    exact hno top value htop (Option.isNone_iff_eq_none.mp hnone)
  have hnodup := hv.nodup_columnIds.sublist ((List.filter_sublist (l := columnsOf v t)
    (p := (·.parentColumn.isNone))).map ColumnValue.columnId)
  rw [hids, List.nodup_replicate] at hnodup
  omega

/-- A column that can be dropped leaves a top-level one that is not beneath it. -/
theorem ColumnForest.top_left (hv : v.Sound) (h : ColumnForest v.get) (hdrop : Droppable v t c) :
    ∃ top value, getNested v.columns t top = some value ∧ value.parentColumn = none ∧ ¬ BeneathColumn v t c top := by
  obtain ⟨value, hvalue, hmany⟩ := hdrop.live
  cases hp : value.parentColumn with
  | none =>
    obtain ⟨top, topValue, htop, hnone, hne⟩ := exists_other_top hv (hmany hp) c
    exact ⟨top, topValue, htop, hnone, fun hbeneath => hne (hbeneath.eq_of_top htop hnone)⟩
  | some p =>
    obtain ⟨top, topValue, htop, hnone, hbeneath⟩ := h.exists_top hvalue
    refine ⟨top, topValue, htop, hnone, fun hcycle => ?_⟩
    -- The column has a parent, so it is not the top of its own tree.
    obtain rfl := hcycle.eq_of_top htop hnone
    obtain rfl := Option.some.inj (hvalue.symm.trans htop)
    rw [hnone] at hp
    cases hp

end Trees

/-! ## Drops -/

/-- Dropping the column ends its subtree, that is the walk and what an accepted drop leaves. -/
structure EndsSubtree (tx : Transaction) (t c : Nat) : Prop where
  /-- The walk ends, and however long it could go on it visits the same columns. -/
  walk : ∃ doomed, (∀ fuel, (columnsOf tx.state t).length < fuel → subtreeWalk tx.state t fuel [] [c] = some doomed) ∧
    (∀ d, d ∈ doomed ↔ BeneathColumn tx.state t c d) ∧ doomed.Nodup ∧
    ∀ front d back, doomed = front ++ d :: back → d = c ∨ ∃ p ∈ front, ChildColumn tx.state t p d
  /-- The subtree and its statistics are gone, and every other record is as it was. -/
  removed : ∀ tx', (Call.dropColumn t c).run tx = .ok () tx' → ∀ k,
    (∃ d, BeneathColumn tx.state t c d ∧ (k = .entity (.column t d) ∨ k = .entity (.tableColumnStats t d))) ∧
        tx'.state.get k = none ∨
      (¬ ∃ d, BeneathColumn tx.state t c d ∧ (k = .entity (.column t d) ∨ k = .entity (.tableColumnStats t d))) ∧
        tx'.state.get k = tx.state.get k
  /-- The parents of what is left are left. -/
  parents : ∀ tx', (Call.dropColumn t c).run tx = .ok () tx' → ∀ d value p,
    getNested tx'.state.columns t d = some value → value.parentColumn = some p →
      (getNested tx'.state.columns t p).isSome
  /-- A top-level column is left. -/
  top : ∀ tx', (Call.dropColumn t c).run tx = .ok () tx' → ∃ d value,
    getNested tx'.state.columns t d = some value ∧ value.parentColumn = none

section Drops

variable {tx : Transaction} {t c : Nat}

theorem subtreeWalk_spec {v : CatalogSnapshot} (hv : v.Sound) (hbelow : ParentsBelow v.get)
    (hlive : (getNested v.columns t c).isSome) :
    ∃ doomed, (∀ fuel, (columnsOf v t).length < fuel → subtreeWalk v t fuel [] [c] = some doomed) ∧
      (∀ d, d ∈ doomed ↔ BeneathColumn v t c d) ∧ doomed.Nodup ∧
      ∀ front d back, doomed = front ++ d :: back → d = c ∨ ∃ p ∈ front, ChildColumn v t p d := by
  obtain ⟨doomed, hdoomed⟩ := Option.isSome_iff_exists.mp (hv.columnSubtree_isSome hbelow hlive)
  have hwalk := hdoomed
  rw [columnSubtree, subtreeWalk_eq] at hwalk
  obtain ⟨value, hvalue⟩ := Option.isSome_iff_exists.mp hlive
  have hroot : c ∈ (columnsOf v t).map ColumnValue.columnId :=
    List.mem_map.mpr ⟨value, mem_columnsOf.mpr ⟨c, hvalue⟩, hv.columnId_eq hvalue⟩
  have hforest := hv.forest hbelow t
  refine ⟨doomed, fun fuel hfuel => ?_, fun d => hv.mem_columnSubtree hdoomed, Walk.nodup_walk hforest hroot hwalk,
    fun front d back heq => ?_⟩
  · rw [subtreeWalk_eq]
    exact Walk.walk_mono hwalk hfuel
  · simpa only [hv.mem_childrenOf] using Walk.walk_parent_before hforest hroot hwalk heq

theorem endsSubtree (hv : tx.state.Sound) (hforest : ColumnForest tx.state.get)
    (hlive : (getNested tx.state.columns t c).isSome) : EndsSubtree tx t c := by
  -- What an accepted drop leaves is the state without what the walk collects.
  have hdropped : ∀ tx', (Call.dropColumn t c).run tx = .ok () tx' →
      Drop tx.state.get tx'.state.get (fun k => ∃ d, BeneathColumn tx.state t c d ∧
        (k = .entity (.column t d) ∨ k = .entity (.tableColumnStats t d))) := by
    intro tx' hrun
    cases Call.effect_of_run _ hrun with
    | @dropColumn _ _ doomed live subtree =>
      intro k
      rcases drop_of_ite (get_deleteColumns tx.state t doomed) k with ⟨⟨d, hd, hk⟩, hnone⟩ | ⟨hk, hsame⟩
      · exact .inl ⟨⟨d, (hv.mem_columnSubtree subtree).mp hd, hk⟩, hnone⟩
      · refine .inr ⟨fun ⟨d, hd, hkd⟩ => hk ⟨d, (hv.mem_columnSubtree subtree).mpr hd, hkd⟩, hsame⟩
  refine ⟨subtreeWalk_spec hv hforest.below hlive, fun tx' hrun => hdropped tx' hrun, fun tx' hrun d value p => ?_,
    fun tx' hrun => ?_⟩
  · exact (parentsLive_effect hv hforest.live (Call.effect_of_run _ hrun)).parent
  · obtain ⟨top, value, hvalue, hnone, hout⟩ := hforest.top_left hv (droppable_of_run hv hrun)
    refine ⟨top, value, ?_, hnone⟩
    rcases hdropped tx' hrun (.entity (.column t top)) with ⟨⟨d, hd, heq | heq⟩, -⟩ | ⟨-, hsame⟩
    · cases heq
      exact absurd hd hout
    · cases heq
    · rw [get_column hvalue] at hsame
      simpa [CatalogSnapshot.get] using hsame

end Drops

/-- In every state that verbs, commits and retries reach from a new catalog, dropping a live column ends exactly its
    subtree: the walk terminates, it visits the column and every field beneath it once, parents before children, and an
    accepted drop removes these columns with their statistics and leaves every other record, every parent of a column
    that is left and at least one top-level column. -/
theorem drop_column_ends_subtree (changes : List Operation → String × List Nat) (micros : Int) (uuid : String)
    (encrypted : Bool) (dataPath : Option String) (events : List SessionEvent) :
    Runs.Always (Session.step changes)
      (fun s => ∀ t c, (getNested s.tx.state.columns t c).isSome → EndsSubtree s.tx t c)
      (Session.start micros uuid encrypted dataPath) events := by
  have hblind : Blind fun r => ColumnForest r.records := fun a b hpasses h =>
    ⟨blind_parentsBelow a b hpasses h.below, blind_parentsLive a b hpasses h.live⟩
  have hkeeps : ∀ (tx : Transaction) (call : Call), tx.state.Sound → ColumnForest tx.reading.records →
      ColumnForest (call.after tx).reading.records := fun tx call hv h =>
    ⟨parentsBelow_after hv h.below call, parentsLive_after hv h.live call⟩
  refine (Session.always_holds hblind hkeeps micros uuid encrypted dataPath
    ⟨parentsBelow_start micros uuid encrypted dataPath, parentsLive_start micros uuid encrypted dataPath⟩
      events).mono ?_
  rintro s ⟨hinv, hholds⟩ t c hlive
  exact endsSubtree hinv.grown.sound hholds.tx hlive

end Moraine
