-- SUMMARY: Folding a verb commit's batch into its base view, against rebuilding from the store.
import Moraine.Transaction.Diff
import Moraine.Transaction.Evolution

/-!
# Folding a commit's own batch

After a commit the writer does not rescan the store: it folds the batch it has just written into the view
the transaction started from. The folded view should be the one a scan of the store would build.

A batch lists the changed keys of a kind in id order, and each put or delete also unlinks the name its
entity had before. So a name that passes from one entity to another inside a commit is linked again only
if its new holder comes after its old one. `NamesSettle` is that condition on the view before and the view
after, and `foldBatch_verbs_iff` shows that nothing else stands between the two views.
-/

namespace Moraine

open Std OrdMap NameIndex CatalogSnapshot

namespace CatalogSnapshot

variable {v : CatalogSnapshot}

theorem Sound.wellKeyed (hv : v.Sound) : v.WellKeyed := fun k r h => (hv k r h).1

theorem Sound.live (hv : v.Sound) : v.Live := fun k r h => (hv k r h).2

end CatalogSnapshot

theorem Store.viewAt_sound {s : Store} (hs : s.WellKeyed) (snapshot : SnapshotValue) :
    (s.viewAt snapshot).Sound := by
  intro k r h
  refine ⟨Store.viewAt_wellKeyed hs snapshot k r h, ?_⟩
  rw [Store.viewAt_get hs] at h
  exact (Option.filter_eq_some_iff.mp h).2

/-- Whatever sequence of successful verbs leads from a rebuilt view to `tx`, folding the batch of their
    diff succeeds, and it gives the view rebuilt from the store after the batch exactly when every name
    settles. -/
theorem foldBatch_verbs_iff {store : Store} (hstore : store.WellKeyed) (snapshot snapshot' : SnapshotValue)
    (newSnapshot : Nat) {calls : List Call} {tx : Transaction}
    (hrun : Call.runAll calls (.new (store.viewAt snapshot) newSnapshot) = .ok () tx) :
    ∃ folded, (store.viewAt snapshot).foldBatch (diffWrites (store.viewAt snapshot) tx.state newSnapshot) =
        .ok folded ∧
      (folded.Same
          ((store.applyBatch (diffWrites (store.viewAt snapshot) tx.state newSnapshot)).viewAt snapshot') ↔
        NamesSettle (store.viewAt snapshot) tx.state) := by
  have hbase : (Transaction.new (store.viewAt snapshot) newSnapshot).state.Sound :=
    Store.viewAt_sound hstore snapshot
  have hstate : tx.state.Sound := Call.sound_of_runAll hbase hrun
  exact foldBatch_diffWrites_iff hstore hstate.wellKeyed hstate.live snapshot snapshot' newSnapshot

/-! ## A name handed to a smaller id -/

namespace HandDown

def tableNamed (id : Nat) (name : String) : EntityRecord :=
  .table
    { tableId := id, tableUuid := "", beginSnapshot := 1, endSnapshot := none, schemaId := 0
      tableName := name, path := name, pathIsRelative := true, nextColumnId := 2 }

/-- Tables 1 and 2 of one schema are named `a` and `b`. -/
def twoTables : Store :=
  { head := ⟨1, 1⟩
    current := (∅ : ExtTreeMap CurrentKey EntityRecord)
      |>.insert (.entity (.table 1)) (tableNamed 1 "a")
      |>.insert (.entity (.table 2)) (tableNamed 2 "b") }

/-- Table 2 gives up its name and table 1 takes it. -/
def handDown : List Call := [.renameTable 2 "c", .renameTable 1 "b"]

theorem twoTables_wellKeyed : twoTables.WellKeyed := by
  intro k r h
  simp only [twoTables, getElem?_insert_ite] at h
  split at h
  · next hk => cases h; exact hk.symm
  · split at h
    · next hk => cases h; exact hk.symm
    · simp at h

/-- The view rebuilt from the two tables. -/
abbrev base : CatalogSnapshot := twoTables.viewAt default

def handedDown : Transaction :=
  match Call.runAll handDown (.new base 2) with
  | .ok _ tx | .error _ tx => tx

theorem runAll_handDown : Call.runAll handDown (.new base 2) = .ok () handedDown := by
  have hok : (match Call.runAll handDown (.new base 2) with
      | .ok _ _ => true
      | .error _ _ => false) = true := by decide +kernel
  unfold handedDown
  split at hok
  · next h => rw [h]
  · cases hok

/-- `foldBatch_verbs_iff` at the two renames. -/
theorem foldBatch_verbs_iff_handDown :
    ∃ folded, base.foldBatch (diffWrites base handedDown.state 2) = .ok folded ∧
      (folded.Same ((twoTables.applyBatch (diffWrites base handedDown.state 2)).viewAt default) ↔
        NamesSettle base handedDown.state) :=
  foldBatch_verbs_iff twoTables_wellKeyed default default 2 runAll_handDown

/-- The fold links `b` to table 1 and then, at table 2, unlinks it: the folded view does not find the name
    that the rebuilt view finds. -/
theorem fold_loses_name_handed_down :
    ∃ tx folded, Call.runAll handDown (.new base 2) = .ok () tx ∧
      base.foldBatch (diffWrites base tx.state 2) = .ok folded ∧
      folded.byName (.table 0 "b") = none ∧
      ((twoTables.applyBatch (diffWrites base tx.state 2)).viewAt default).byName (.table 0 "b") ≠ none ∧
      ¬ folded.Same ((twoTables.applyBatch (diffWrites base tx.state 2)).viewAt default) := by
  have hlost : ((base.foldBatch (diffWrites base handedDown.state 2)).toOption.map
      fun folded => folded.byName (.table 0 "b")) = some none := by decide +kernel
  have hfound : ((twoTables.applyBatch (diffWrites base handedDown.state 2)).viewAt default).byName
      (.table 0 "b") ≠ none := by decide +kernel
  obtain ⟨folded, hfold, hname⟩ := Option.map_eq_some_iff.mp hlost
  refine ⟨handedDown, folded, runAll_handDown, ?_, hname, hfound, fun hsame => ?_⟩
  · cases h : base.foldBatch (diffWrites base handedDown.state 2) with
    | error e => rw [h] at hfold; cases hfold
    | ok f => rw [h] at hfold; cases hfold; rfl
  · exact hfound (by rw [← hsame.byName, hname])

end HandDown

end Moraine
